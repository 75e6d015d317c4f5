/-
# `Logkafka.Position.Interrupted` — a compaction that is cut short

`compact` reads the whole file, empties it with `ftruncate` and gives the lines
it keeps to `fwrite`, one after the other:

    ftruncate(file, 0)
    fwrite(line 1), fwrite(line 2), ..

The result of `ftruncate` is looked at, those of the `fwrite`s are not.  What is
in the file when all is over is then a piece of each line: all of it, some of it
or nothing, whether the disk was full or the process killed (`cut`).  A line
that is not whole runs into the next one, and neither can be read.

So nothing is lost if and only if every line is whole, up to the last one, of
which the newline may be missing; and of an inode of zero all digits but one
(`safe_iff`).
-/
import Logkafka.Position.Store
import Logkafka.Position.Width

namespace Logkafka.PositionFile

open Records (text)

variable {ls : List FileLine} {file line : List Byte} {key : PositionEntryKey}
  {pe : FilePositionEntry}

/-! ## What becomes of a compaction

How far each `fwrite` came, and the property in terms of the lines that were to be
kept.
-/

inductive Outcome
  /-- `ftruncate` fails -/
  | refused
  /-- the process is gone before it -/
  | early
  /-- `ns[i]` bytes of the `i`-th line are in the file, and `compact` has `returned` -/
  | cut (ns : List ℕ) (returned : Bool)

/-- What is in the file of each line. -/
def pieces (lines : List (List Byte)) (ns : List ℕ) : List (List Byte) :=
  List.zipWith (fun line n => line.take n) lines ns

namespace Outcome

/-- What `compact` returns, if it does. -/
def result : Outcome → Option Bool
  | refused => some false
  | early => none
  | cut _ returned => if returned then some true else none

/-- The file it leaves. -/
def left (file : List Byte) : Outcome → List Byte
  | refused => file
  | early => file
  | cut ns _ => (pieces (entryTexts file) ns).flatten

end Outcome

/-- `parse` finds the entries of the lines, and they read what the lines say. -/
def Found (ls : List FileLine) (file : List Byte) : Prop :=
  ∀ l ∈ ls, ∃ pe, (parse file).peMap.find? l.1 = some pe ∧
    pe.readPos (parse file).file = l.2.readPos ∧ pe.readInode (parse file).file = l.2.readInode

/-- The live entries are found: of each pattern that of the last live line. -/
def Recovers (ls : List FileLine) (file : List Byte) : Prop := Found (kept ls) file

/-- The entries can be recovered, or the failure is reported and the file as it was. -/
def Safe (ls : List FileLine) (o : Outcome) : Prop :=
  Recovers ls (o.left (textOf ls)) ∨ o.result = some false ∧ o.left (textOf ls) = textOf ls

/-- Of the last line `n` bytes are enough. -/
def LastEnough (l : FileLine) (n : ℕ) : Prop :=
  (lineText l).length ≤ n + 1 ∨ l.2.inode = 0 ∧ (lineText l).length ≤ n + 8

theorem LastEnough.mono {l : FileLine} {m n : ℕ} (h : LastEnough l m) (hle : m ≤ n) :
    LastEnough l n :=
  Or.imp (fun h => by omega) (And.imp_right fun h => by omega) h

/-- The lines are whole, up to the last one. -/
def Enough : List FileLine → List ℕ → Prop
  | [], _ => True
  | _ :: _, [] => False
  | [l], n :: _ => LastEnough l n
  | l :: l' :: ls, n :: ns => (lineText l).length ≤ n ∧ Enough (l' :: ls) ns

/-- Nothing was written over, or enough was written. -/
def Whole (ls : List FileLine) : Outcome → Prop
  | .refused => True
  | .early => True
  | .cut ns _ => Enough (kept ls) ns

/-! ## A piece of a line

What is still read of a line of which the end is missing.
-/

/-- Digits up to what is none. -/
theorem digits_unique {ds ds' rest rest' : List Byte} {y : Byte} (hy : hex.isDigit y = false)
    (hds : ∀ b ∈ ds, hex.isDigit b = true) (hds' : ∀ b ∈ ds', hex.isDigit b = true)
    (h : ds ++ y :: rest = ds' ++ y :: rest') : ds = ds' ∧ rest = rest' := by
  obtain ⟨htake, hdrop⟩ := takeWhile_append_stop rest hds hy
  obtain ⟨htake', hdrop'⟩ := takeWhile_append_stop rest' hds' hy
  rw [h, htake'] at htake
  rw [h, hdrop'] at hdrop
  exact ⟨htake.symm, (List.cons.inj hdrop).2.symm⟩

/-- What an entry reads whose line is a piece of the one that was written. -/
theorem read_of_piece {g : List Byte} {l : FileLine} (m : EntryLine g l.1 pe)
    (hpiece : m.lineStr <+: lineText l) :
    pe.readPos g = l.2.readPos ∧ (lineText l).length ≤ m.lineStr.length + 8 ∧
      ((lineText l).length ≤ m.lineStr.length + 1 → pe.readInode g = l.2.readInode) ∧
      (m.lineStr.length + 1 < (lineText l).length → pe.readInode g = inoNone) := by
  obtain ⟨more, hmore⟩ := hpiece
  have hsplit : m.posStr ++ 9 :: (m.inodeStr ++ m.tail ++ more)
      = FilePositionEntry.posText l.2.pos ++ 9 :: (FilePositionEntry.inodeText l.2.inode ++ [10]) := by
    have hcancel : header l.1 ++ (m.posStr ++ 9 :: (m.inodeStr ++ m.tail ++ more))
        = header l.1 ++ (FilePositionEntry.posText l.2.pos
          ++ 9 :: (FilePositionEntry.inodeText l.2.inode ++ [10])) := by
      simpa [EntryLine.lineStr, lineText, lineOf, Slot.text] using hmore
    exact List.append_cancel_left hcancel
  obtain ⟨hpos, hrest⟩ := digits_unique (by decide) m.posDigits
    (Slot.isDigit_posText _) hsplit
  have hlenPos : m.posStr.length = 16 := by
    rw [hpos]
    simp [FilePositionEntry.posText]
  have hlenInode : (FilePositionEntry.inodeText l.2.inode).length = 8 := by
    simp [FilePositionEntry.inodeText]
  have hlen : (lineText l).length = (header l.1).length + 26 := by
    simp [lineText, lineOf]
  have hline : m.lineStr.length = (header l.1).length + 17 + m.inodeStr.length + m.tail.length := by
    simp only [EntryLine.lineStr, List.length_append, List.length_singleton, hlenPos]
  have hinode : 1 ≤ m.inodeStr.length := List.length_pos_iff.mpr m.inode_ne
  -- with a newline behind it the inode is whole, and without one it is a part of it
  have hpart : m.tail = [10] ∧ m.inodeStr = FilePositionEntry.inodeText l.2.inode ∨
      m.tail = [] ∧ m.inodeStr <+: FilePositionEntry.inodeText l.2.inode := by
    rcases m.tail_eq with htail | htail
    · right
      rw [htail, List.append_nil] at hrest
      refine ⟨htail, (List.prefix_concat_iff.mp ⟨more, hrest⟩).resolve_left fun hall => ?_⟩
      have hdigit := m.inodeDigits 10 (hall ▸ List.mem_append_right _ List.mem_cons_self)
      exact (hex_digit_ne hdigit).2.2.2.2.2 rfl
    · left
      rw [htail, List.append_assoc] at hrest
      exact ⟨htail, (digits_unique (by decide) m.inodeDigits (Slot.isDigit_inodeText _) hrest).1⟩
  refine ⟨?_, by omega, fun hle => ?_, fun hlt => ?_⟩
  · rw [m.read_pos (by omega), List.take_of_length_le (by omega), hpos]
    exact l.2.hexstr2num_posText
  · have hwhole : m.inodeStr = FilePositionEntry.inodeText l.2.inode := by
      rcases hpart with ⟨-, hwhole⟩ | ⟨htail, hpre⟩
      · exact hwhole
      · rw [htail, List.length_nil] at hline
        exact hpre.eq_of_length (by have := hpre.length_le; omega)
    have height : m.inodeStr.length = 8 := hwhole ▸ hlenInode
    rw [m.read_inode_behind hlenPos (by omega), List.take_of_length_le (by omega), hwhole]
    exact (EntryLine.hexstr2num_eight (Slot.isDigit_inodeText _) hlenInode 0).symm.trans
      (l.2.hexstr2num_inodeText 0)
  · obtain ⟨htail, -⟩ := hpart.resolve_left fun hwhole => by
      rw [hwhole.1, hwhole.2, hlenInode, List.length_singleton] at hline
      omega
    -- the file ends with the line
    have hend := congrArg List.length m.file_eq
    rw [EntryLine.back, htail, m.after_eq_nil htail] at hend
    simp only [List.length_append, List.length_singleton, List.flatten_nil, List.length_nil,
      ← m.length_front] at hend
    rw [htail, List.length_nil] at hline
    unfold FilePositionEntry.readInode readAt
    rw [if_neg ?_]
    rw [show FilePositionEntry.inoOffset = 17 from rfl, show FilePositionEntry.inoSize = 8 from rfl]
    omega

/-- A piece is accepted if it has a digit of the inode. -/
theorem parseLine_piece {l : FileLine} (hl : Legible l.1) {p : List Byte}
    (hpiece : p <+: lineText l) (hlong : (lineText l).length ≤ p.length + 8) :
    ∃ inode, parseLine p = some ⟨l.1, l.2.readPos, inode⟩ := by
  have hwhole : lineText l = header l.1 ++ FilePositionEntry.posText l.2.pos ++ [9]
      ++ (FilePositionEntry.inodeText l.2.inode ++ [10]) := by
    simp [lineText, lineOf, Slot.text]
  have hlenPos : (FilePositionEntry.posText l.2.pos).length = 16 := by
    simp [FilePositionEntry.posText]
  have hlenInode : (FilePositionEntry.inodeText l.2.inode).length = 8 := by
    simp [FilePositionEntry.inodeText]
  have hlen : (lineText l).length = (header l.1).length + 26 := by
    simp [lineText, lineOf]
  have hfront : header l.1 ++ FilePositionEntry.posText l.2.pos ++ [9] <+: p := by
    refine List.prefix_of_prefix_length_le (hwhole ▸ List.prefix_append _ _) hpiece ?_
    simp only [List.length_append, List.length_singleton, hlenPos]
    omega
  obtain ⟨ds, rfl⟩ := hfront
  have hds : ds <+: FilePositionEntry.inodeText l.2.inode ++ [10] := by
    rw [hwhole] at hpiece
    exact (List.prefix_append_right_inj _).mp hpiece
  have hne : 1 ≤ ds.length := by
    simp only [List.length_append, List.length_singleton, hlenPos] at hlong
    omega
  have hposne : FilePositionEntry.posText l.2.pos ≠ [] :=
    List.ne_nil_of_length_pos (by rw [hlenPos]; exact Nat.zero_lt_succ _)
  rcases List.prefix_concat_iff.mp hds with rfl | hpart
  · have hinone : FilePositionEntry.inodeText l.2.inode ≠ [] :=
      List.ne_nil_of_length_pos (by rw [hlenInode]; exact Nat.zero_lt_succ _)
    have hline := parseLine_complete hl.plain hposne (Slot.isDigit_posText l.2.pos) hinone
      (Slot.isDigit_inodeText l.2.inode) (Or.inr rfl)
    rw [List.append_assoc _ (FilePositionEntry.inodeText _), l.2.hexstr2num_posText] at hline
    exact ⟨_, hline⟩
  · have hdigits : ∀ b ∈ ds, hex.isDigit b = true := fun b hb =>
      Slot.isDigit_inodeText _ b (hpart.subset hb)
    have hline := parseLine_complete hl.plain hposne (Slot.isDigit_posText l.2.pos)
      (List.ne_nil_of_length_pos hne) hdigits (Or.inl rfl)
    rw [List.append_nil, l.2.hexstr2num_posText] at hline
    exact ⟨_, hline⟩

/-! ## Entries and lines

Every entry has a line of the file it was read from, and different entries have
different ones.
-/

/-- The entry that `parse` makes has a line of the file, zero bytes aside. -/
theorem line_of_entry (hzero : 0 ∉ file) (h : (parse file).peMap.find? key = some pe) :
    (parse file).file = compact file ∧ ∃ m : EntryLine (compact file) key pe,
      m.lineStr ∈ fgetsLines file ∧ parseLine m.lineStr = some m.parsed := by
  obtain ⟨hfile, ⟨m⟩⟩ := entryLine_of_parse h
  obtain ⟨line, hline, heq, -⟩ := keptText_of_accepted m.mem_lineStr m.parse_eq
  rw [cString_of_mem hzero hline] at heq
  exact ⟨hfile, m, heq ▸ hline, m.parse_eq⟩

/-- Of every line it accepts `parse` makes an entry. -/
theorem exists_parseEntries {g : List Byte} {lines : List (List Byte)}
    (hlines : ∀ l ∈ lines, cString l = l ∧ l ≠ []) {e : ParsedLine} :
    ∀ {tell : ℕ} {m : OrdMap PositionEntryKey FilePositionEntry},
      (m.find? e.key ≠ none ∨ ∃ l ∈ lines, parseLine l = some e) →
        (parseEntries g tell lines m).peMap.find? e.key ≠ none := by
  induction lines with
  | nil =>
      rintro tell m (hm | ⟨l, hl, -⟩)
      · exact hm
      · cases hl
  | cons line lines ih =>
      intro tell m hm
      obtain ⟨⟨hstr, hne⟩, hrest⟩ := List.forall_mem_cons.mp hlines
      simp only [parseEntries, hstr, if_neg hne]
      cases hparse : parseLine line with
      | none =>
          refine ih hrest ?_
          rcases hm with hm | ⟨l, hl, he⟩
          · exact Or.inl hm
          · rcases List.mem_cons.mp hl with rfl | hl
            · rw [hparse] at he
              cases he
            · exact Or.inr ⟨l, hl, he⟩
      | some e' =>
          refine ih hrest ?_
          by_cases hkey : e.key = e'.key
          · rw [OrdMap.find?_insert, if_pos hkey]
            exact Or.inl (Option.some_ne_none _)
          · rw [OrdMap.find?_insert, if_neg hkey]
            rcases hm with hm | ⟨l, hl, he⟩
            · exact Or.inl hm
            · rcases List.mem_cons.mp hl with rfl | hl
              · obtain rfl := Option.some.inj (hparse.symm.trans he)
                exact absurd rfl hkey
              · exact Or.inr ⟨l, hl, he⟩

/-- The last live line of a pattern has its entry. -/
theorem entry_of_line (hzero : 0 ∉ file) (hglued : ¬ Glued file) {p : Str} {e : ParsedLine}
    (hlast : lastLive file p = some line) (he : parseLine line = some e) :
    (parse file).file = compact file ∧
      ∃ pe, (parse file).peMap.find? e.key = some pe ∧
        ∃ m : EntryLine (compact file) e.key pe, m.lineStr = line := by
  have hlines := fgetsLines_compact hzero hglued
  have hentry := mem_entriesOf.mpr hlast
  have hmem : line ∈ fgetsLines (compact file) :=
    hlines ▸ List.mem_map.mpr ⟨(p, line), hentry, rfl⟩
  have hnozero := zero_not_mem_compact file
  have hsome : (parse file).peMap.find? e.key ≠ none :=
    exists_parseEntries (fun l hl => ⟨cString_of_mem hnozero hl, fgetsLines_ne_nil hl⟩)
      (Or.inr ⟨line, hmem, he⟩)
  obtain ⟨pe, hpe⟩ := Option.ne_none_iff_exists'.mp hsome
  obtain ⟨hfile, ⟨m⟩⟩ := entryLine_of_parse hpe
  refine ⟨hfile, pe, hpe, m, ?_⟩
  -- a pattern has one line
  have hpattern : ∀ l, (∃ q, (q, l) ∈ (entriesOf file).entries) → ∀ e', parseLine l = some e' →
      e'.key = e.key → l = line := by
    rintro l ⟨q, hq⟩ e' he' hkey
    have hstr : ∀ {l q}, (q, l) ∈ (entriesOf file).entries → ∀ {e'}, parseLine l = some e' →
        e'.key.pathPattern = q := by
      intro l q hq e' he'
      obtain ⟨hl, hlive⟩ := live_of_mem_entriesOf hq
      obtain ⟨e'', he'', -, hpat⟩ := livePattern_eq_some.mp hlive
      rw [cString_of_mem hzero hl, he'] at he''
      rw [← hpat, Option.some.inj he'']
    have hqp : q = p := by
      rw [← hstr hq he', hkey, hstr hentry he]
    exact OrdMap.mem_unique (hqp ▸ hq) hentry
  have hm := m.mem_lineStr
  rw [hlines] at hm
  obtain ⟨⟨q, l⟩, hq, hl⟩ := List.mem_map.mp hm
  obtain rfl : l = m.lineStr := hl
  exact hpattern _ ⟨q, hq⟩ m.parsed m.parse_eq m.key_eq

/-! ## Lines and pieces

Counting: with fewer lines than pieces two entries would share a line.
-/

/-- Texts in groups, none of them empty: as many texts as groups are one in each. -/
theorem length_le_flatten {gs : List (List (List Byte))} (hgs : ∀ g ∈ gs, g ≠ []) :
    gs.length ≤ gs.flatten.length ∧
      (gs.flatten.length ≤ gs.length → ∀ t ∈ gs.flatten, [t] ∈ gs) := by
  induction gs with
  | nil => exact ⟨Nat.le_refl _, fun _ t ht => by cases ht⟩
  | cons g gs ih =>
      obtain ⟨hg, hrest⟩ := List.forall_mem_cons.mp hgs
      obtain ⟨hle, hones⟩ := ih hrest
      have hpos := List.length_pos_iff.mpr hg
      simp only [List.flatten_cons, List.length_append, List.length_cons]
      refine ⟨by omega, fun hcount t ht => ?_⟩
      obtain ⟨t', rfl⟩ := List.length_eq_one_iff.mp (by omega : g.length = 1)
      rw [List.length_singleton] at hcount
      rcases List.mem_append.mp ht with ht | ht
      · obtain rfl := List.mem_singleton.mp ht
        exact List.mem_cons_self
      · exact List.mem_cons_of_mem _ (hones (by omega) t ht)

/-- Pieces make no more lines than they are, and as many only if all but the last
have their newline. -/
theorem lines_of_pieces {ts : List (List Byte)} (hts : ∀ t ∈ ts, Complete t ∨ 10 ∉ t) :
    (fgetsLines ts.flatten).length ≤ ts.length ∧
      (ts.length ≤ (fgetsLines ts.flatten).length → ts ≠ [] →
        ∃ init p, ts = init ++ [p] ∧ (∀ t ∈ init, Complete t) ∧ p ≠ []) := by
  obtain ⟨gs, r, rfl, hgs, hr⟩ := exists_groups hts
  have hne : ∀ g ∈ gs, g ≠ [] := by
    rintro g hg rfl
    cases (hgs [] hg).mem
  obtain ⟨hle, hones⟩ := length_le_flatten hne
  have hall : ∀ l ∈ gs.map List.flatten, Complete l := by
    intro l hl
    obtain ⟨g, hg, rfl⟩ := List.mem_map.mp hl
    exact hgs g hg
  have hlines := fgetsLines_append hall hr
  have hflat : (gs.flatten ++ r).flatten = (gs.map List.flatten).flatten ++ r.flatten := by
    rw [List.flatten_append, List.flatten_flatten]
  rw [hflat, hlines, List.length_append, List.length_append, List.length_map]
  by_cases hnil : r.flatten = []
  · rw [if_pos hnil, List.length_nil]
    refine ⟨by omega, fun hcount hsome => ?_⟩
    obtain rfl := List.length_eq_zero_iff.mp (by omega : r.length = 0)
    have hcomplete : ∀ t ∈ gs.flatten, Complete t := fun t ht => by
      simpa using hgs [t] (hones (by omega) t ht)
    rw [List.append_nil] at hsome ⊢
    obtain ⟨init, p, hinit⟩ := (List.eq_nil_or_concat' gs.flatten).resolve_left hsome
    rw [hinit] at hcomplete ⊢
    exact ⟨init, p, rfl, fun t ht => hcomplete t (List.mem_append_left _ ht),
      List.ne_nil_of_mem (hcomplete p (List.mem_append_right _ List.mem_cons_self)).mem⟩
  · have hsome : r ≠ [] := fun h => hnil (h ▸ rfl)
    have hpos := List.length_pos_iff.mpr hsome
    rw [if_neg hnil, List.length_singleton]
    refine ⟨by omega, fun hcount _ => ?_⟩
    obtain ⟨p, rfl⟩ := List.length_eq_one_iff.mp (by omega : r.length = 1)
    refine ⟨gs.flatten, p, rfl, fun t ht => ?_, by simpa using hnil⟩
    simpa using hgs [t] (hones (by omega) t ht)

/-- With its newline a piece is the line. -/
theorem complete_piece {l : FileLine} (hl : Legible l.1) {p : List Byte}
    (hpiece : p <+: lineText l) : p = lineText l ∧ Complete p ∨ 10 ∉ p := by
  have hbody : 10 ∉ header l.1 ++ l.2.text := fun h => (hl.body_bytes l.2 10 h).2 rfl
  rcases List.prefix_concat_iff.mp hpiece with hwhole | hpart
  · exact Or.inl ⟨hwhole, _, hwhole, hbody⟩
  · exact Or.inr fun h => hbody (hpart.subset h)

theorem mem_pieces {p : List Byte} : ∀ {ls : List FileLine} {ns : List ℕ},
    p ∈ pieces (ls.map lineText) ns → ∃ l ∈ ls, p <+: lineText l := by
  intro ls
  induction ls with
  | nil => exact fun h => by cases h
  | cons l ls ih =>
      intro ns h
      cases ns with
      | nil => cases h
      | cons n ns =>
          rcases List.mem_cons.mp h with rfl | h
          · exact ⟨l, List.mem_cons_self, List.take_prefix _ _⟩
          · obtain ⟨l', hl', hp⟩ := ih h
            exact ⟨l', List.mem_cons_of_mem _ hl', hp⟩

/-- Pieces with their newlines, and one more. -/
theorem enough_of_pieces {last : FileLine} {p : List Byte} {init : List FileLine} :
    ∀ {ini : List (List Byte)} {ns : List ℕ}, (∀ l ∈ init, Legible l.1) →
      pieces ((init ++ [last]).map lineText) ns = ini ++ [p] → ini.length = init.length →
      (∀ q ∈ ini, Complete q) →
        ini = init.map lineText ∧ p <+: lineText last ∧
          (LastEnough last p.length → Enough (init ++ [last]) ns) := by
  induction init with
  | nil =>
      intro ini ns _ hpieces hlen _
      obtain rfl := List.length_eq_zero_iff.mp hlen
      cases ns with
      | nil => cases hpieces
      | cons n ns =>
          obtain rfl : (lineText last).take n = p := (List.cons.inj hpieces).1
          refine ⟨rfl, List.take_prefix _ _, fun h => h.mono ?_⟩
          rw [List.length_take]
          exact Nat.min_le_left _ _
  | cons l init ih =>
      intro ini ns hlegible hpieces hlen hini
      obtain ⟨hl, hrest⟩ := List.forall_mem_cons.mp hlegible
      cases ini with
      | nil => cases hlen
      | cons q ini =>
          cases ns with
          | nil => cases hpieces
          | cons n ns =>
              obtain ⟨hq, hcomplete⟩ := List.forall_mem_cons.mp hini
              obtain ⟨hhead, htail⟩ := List.cons.inj hpieces
              obtain rfl : (lineText l).take n = q := hhead
              obtain ⟨rfl, hpre, henough⟩ := ih hrest htail (Nat.succ.inj hlen) hcomplete
              have hwhole := ((complete_piece hl (List.take_prefix n _)).resolve_right
                fun h => h hq.mem).1
              refine ⟨by rw [hwhole]; rfl, hpre, fun h => ?_⟩
              have hlast := henough h
              have hn : (lineText l).length ≤ n := List.take_eq_self_iff _ |>.mp hwhole
              cases init with
              | nil => exact ⟨hn, hlast⟩
              | cons l' init => exact ⟨hn, hlast⟩

/-- Where enough is written, the pieces are the lines and one piece of the last. -/
theorem pieces_of_enough {last : FileLine} {init : List FileLine} :
    ∀ {ns : List ℕ}, Enough (init ++ [last]) ns →
      ∃ n, LastEnough last n ∧ pieces ((init ++ [last]).map lineText) ns
        = init.map lineText ++ [(lineText last).take n] := by
  induction init with
  | nil =>
      intro ns h
      cases ns with
      | nil => cases h
      | cons n ns => exact ⟨n, h, rfl⟩
  | cons l init ih =>
      intro ns h
      cases ns with
      | nil => cases init <;> cases h
      | cons n ns =>
          have hboth : (lineText l).length ≤ n ∧ Enough (init ++ [last]) ns := by
            cases init with
            | nil => exact h
            | cons l' init => exact h
          obtain ⟨m, hm, hpieces⟩ := ih hboth.2
          refine ⟨m, hm, ?_⟩
          show (lineText l).take n :: pieces ((init ++ [last]).map lineText) ns = _
          rw [hpieces, List.take_of_length_le hboth.1]
          rfl

/-! ## What is recovered was written

All entries are found, so there are as many lines as pieces, and each is whole.
-/

variable {kl : List FileLine} {ns : List ℕ}

/-- The line of an entry that is found; a piece of the one it should have is long enough. -/
theorem exists_line (h : Found kl file) (hzero : 0 ∉ file) {l : FileLine} (hl : l ∈ kl) :
    ∃ line ∈ fgetsLines file, (∃ e, parseLine line = some e ∧ e.key = l.1) ∧
      (line <+: lineText l → LastEnough l line.length) := by
  obtain ⟨pe, hpe, -, hinode⟩ := h l hl
  obtain ⟨hfile, m, hline, he⟩ := line_of_entry hzero hpe
  rw [hfile] at hinode
  refine ⟨m.lineStr, hline, ⟨m.parsed, he, m.key_eq⟩, fun hpiece => ?_⟩
  obtain ⟨-, hlong, -, hnone⟩ := read_of_piece m hpiece
  by_cases hle : (lineText l).length ≤ m.lineStr.length + 1
  · exact Or.inl hle
  · have hzero := hinode.symm.trans (hnone (Nat.lt_of_not_le hle))
    exact Or.inr ⟨UInt32.toUInt64_inj.mp hzero, hlong⟩

theorem zero_not_mem_lineText {l : FileLine} (hl : Legible l.1) : 0 ∉ lineText l := by
  intro hmem
  rw [← cString_lineText hl] at hmem
  simpa using List.mem_takeWhile_imp hmem

theorem zero_not_mem_pieces (hlegible : ∀ l ∈ kl, Legible l.1) :
    0 ∉ (pieces (kl.map lineText) ns).flatten := by
  intro hmem
  obtain ⟨q, hq, hb⟩ := List.mem_flatten.mp hmem
  obtain ⟨l, hl, hpre⟩ := mem_pieces hq
  exact zero_not_mem_lineText (hlegible l hl) (hpre.subset hb)

/-- Each entry that is found has a line of its own, and there are no more lines than
pieces: so all the pieces are lines. -/
theorem enough_of_found (hlegible : ∀ l ∈ kl, Legible l.1)
    (hsorted : kl.Pairwise fun l l' => l.1.pathPattern < l'.1.pathPattern)
    (h : Found kl (pieces (kl.map lineText) ns).flatten) : Enough kl ns := by
  have hzero : 0 ∉ (pieces (kl.map lineText) ns).flatten := zero_not_mem_pieces hlegible
  have hpieces : ∀ q ∈ pieces (kl.map lineText) ns, Complete q ∨ 10 ∉ q := by
    intro q hq
    obtain ⟨l, hl, hpre⟩ := mem_pieces hq
    exact (complete_piece (hlegible l hl) hpre).imp_left And.right
  obtain ⟨hle, hsplit⟩ := lines_of_pieces hpieces
  have hcount : kl.length ≤ (fgetsLines (pieces (kl.map lineText) ns).flatten).length := by
    have hne : ∀ {l l' : FileLine}, l.1.pathPattern < l'.1.pathPattern → l.1 ≠ l'.1 := by
      intro l l' hlt heq
      rw [heq] at hlt
      exact lt_irrefl _ hlt
    have hnodup : (kl.map Prod.fst).Nodup := List.pairwise_map.mpr (hsorted.imp hne)
    have hsub : kl.map Prod.fst ⊆ (fgetsLines (pieces (kl.map lineText) ns).flatten).filterMap
        fun line => (parseLine line).map ParsedLine.key := by
      intro key hkey
      obtain ⟨l, hl, rfl⟩ := List.mem_map.mp hkey
      obtain ⟨line, hline, ⟨e, he, hkey⟩, -⟩ := exists_line h hzero hl
      refine List.mem_filterMap.mpr ⟨line, hline, ?_⟩
      rw [he, Option.map_some, hkey]
    have hlength := hnodup.length_le_of_subset hsub
    rw [List.length_map] at hlength
    exact hlength.trans (List.length_filterMap_le _ _)
  have hlen : (pieces (kl.map lineText) ns).length ≤ kl.length := by
    rw [pieces, List.length_zipWith, List.length_map]
    exact Nat.min_le_left _ _
  rcases List.eq_nil_or_concat' kl with rfl | ⟨init, last, rfl⟩
  · trivial
  · have hsome : pieces ((init ++ [last]).map lineText) ns ≠ [] := by
      intro hnil
      rw [hnil] at hcount
      simp [fgetsLines] at hcount
    obtain ⟨ini, p, hini, hcomplete, hp⟩ := hsplit (by omega) hsome
    have hlast : Complete p ∨ 10 ∉ p :=
      hpieces p (hini ▸ List.mem_append_right _ List.mem_cons_self)
    have hlines : fgetsLines (ini ++ [p]).flatten = ini ++ [p] :=
      fgetsLines_concat hcomplete (hlast.imp_right fun hnew => ⟨hnew, hp⟩)
    have hlegible' : ∀ l ∈ init, Legible l.1 := fun l hl =>
      hlegible l (List.mem_append_left _ hl)
    have hlenIni : ini.length = init.length := by
      rw [hini, hlines] at hcount
      rw [hini] at hlen
      simp only [List.length_append, List.length_singleton] at hcount hlen
      omega
    obtain ⟨rfl, hpre, henough⟩ := enough_of_pieces hlegible' hini hlenIni hcomplete
    refine henough ?_
    -- the line of the last entry is the last piece, as the others are those of other keys
    obtain ⟨line, hline, ⟨e, he, hkey⟩, hlong⟩ :=
      exists_line h hzero (List.mem_append_right _ List.mem_cons_self)
    rw [hini, hlines] at hline
    rcases List.mem_append.mp hline with hline | hline
    · obtain ⟨l, hl, rfl⟩ := List.mem_map.mp hline
      rw [parseLine_lineText (hlegible' l hl)] at he
      obtain rfl := Option.some.inj he
      have hlt := (List.pairwise_append.mp hsorted).2.2 l hl last List.mem_cons_self
      exact absurd hlt (hkey ▸ lt_irrefl _)
    · obtain rfl := List.mem_singleton.mp hline
      exact hlong hpre

/-! ## What was written is recovered

The other way there is nothing to count.
-/

/-- The only live line of a pattern is its last. -/
theorem lastLive_of_unique {p : Str} (hline : line ∈ fgetsLines file)
    (hlive : livePattern line = some p)
    (hunique : ∀ l ∈ fgetsLines file, livePattern l = some p → l = line) :
    lastLive file p = some line := by
  obtain ⟨l, hl⟩ := exists_mem_entriesOf hline hlive
  obtain ⟨hmem, hp⟩ := live_of_mem_entriesOf hl
  obtain rfl := hunique l hmem hp
  exact mem_entriesOf.mp hl

/-- `f l` is what is left of the line of `l`: all of it, or as much as is enough. -/
theorem found_of_lines {f : FileLine → List Byte} (hlegible : ∀ l ∈ kl, Legible l.1)
    (hlive : ∀ l ∈ kl, l.2.readPos ≠ unwatchedPosition)
    (hsorted : kl.Pairwise fun l l' => l.1.pathPattern < l'.1.pathPattern)
    (hlines : fgetsLines file = kl.map f)
    (hf : ∀ l ∈ kl, f l <+: lineText l ∧ LastEnough l (f l).length) : Found kl file := by
  have hzero : 0 ∉ file := by
    rw [← flatten_fgetsLines file, hlines]
    intro hmem
    obtain ⟨q, hq, hb⟩ := List.mem_flatten.mp hmem
    obtain ⟨l, hl, rfl⟩ := List.mem_map.mp hq
    exact zero_not_mem_lineText (hlegible l hl) ((hf l hl).1.subset hb)
  have hparse : ∀ l ∈ kl, ∃ inode, parseLine (f l) = some ⟨l.1, l.2.readPos, inode⟩ := by
    intro l hl
    obtain ⟨hpiece, hlong⟩ := hf l hl
    refine parseLine_piece (hlegible l hl) hpiece ?_
    rcases hlong with hlong | ⟨-, hlong⟩ <;> omega
  have hmem : ∀ l ∈ kl, f l ∈ fgetsLines file := fun l hl =>
    hlines ▸ List.mem_map.mpr ⟨l, hl, rfl⟩
  have hpattern : ∀ l ∈ kl, livePattern (f l) = some l.1.pathPattern := by
    intro l hl
    obtain ⟨inode, he⟩ := hparse l hl
    rw [← cString_of_mem hzero (hmem l hl)] at he
    exact livePattern_eq_some.mpr ⟨_, he, hlive l hl, rfl⟩
  have hglued : ¬ Glued file := by
    rintro ⟨last, p, hlast, -, hp, line, hline, q, hq, hlt⟩
    rw [hlines] at hlast hline
    obtain ⟨l, hl, rfl⟩ := List.mem_map.mp hline
    rcases List.eq_nil_or_concat' kl with rfl | ⟨init, l', rfl⟩
    · cases hl
    rw [List.map_append, List.map_singleton, List.getLast?_concat] at hlast
    obtain rfl := Option.some.inj hlast
    obtain rfl := Option.some.inj ((hpattern l' (by simp)).symm.trans hp)
    obtain rfl := Option.some.inj ((hpattern l hl).symm.trans hq)
    rcases List.mem_append.mp hl with hl | hl
    · exact lt_asymm hlt ((List.pairwise_append.mp hsorted).2.2 l hl l' List.mem_cons_self)
    · exact lt_irrefl _ (List.mem_singleton.mp hl ▸ hlt)
  have hnodup : (kl.map fun l => l.1.pathPattern).Nodup :=
    List.pairwise_map.mpr (hsorted.imp fun hlt => ne_of_lt hlt)
  intro l hl
  have hlast : lastLive file l.1.pathPattern = some (f l) := by
    refine lastLive_of_unique (hmem l hl) (hpattern l hl) fun t ht hp => ?_
    rw [hlines] at ht
    obtain ⟨l', hl', rfl⟩ := List.mem_map.mp ht
    have heq := Option.some.inj ((hpattern l' hl').symm.trans hp)
    rw [List.inj_on_of_nodup_map hnodup hl' hl heq]
  obtain ⟨inode, he⟩ := hparse l hl
  obtain ⟨hfile, pe, hpe, m, hm⟩ := entry_of_line hzero hglued hlast he
  obtain ⟨hpiece, hlong⟩ := hf l hl
  obtain ⟨hpos, -, hwhole, hnone⟩ := read_of_piece m (hm.symm ▸ hpiece)
  rw [hm] at hwhole hnone
  refine ⟨pe, hpe, hfile ▸ hpos, hfile ▸ ?_⟩
  by_cases hle : (lineText l).length ≤ (f l).length + 1
  · exact hwhole hle
  · have hinode := (hlong.resolve_left hle).1
    rw [hnone (Nat.lt_of_not_le hle), Slot.readInode, hinode]
    rfl

theorem found_of_enough (hlegible : ∀ l ∈ kl, Legible l.1)
    (hlive : ∀ l ∈ kl, l.2.readPos ≠ unwatchedPosition)
    (hsorted : kl.Pairwise fun l l' => l.1.pathPattern < l'.1.pathPattern)
    (h : Enough kl ns) : Found kl (pieces (kl.map lineText) ns).flatten := by
  rcases List.eq_nil_or_concat' kl with rfl | ⟨init, last, rfl⟩
  · exact fun _ hl => by cases hl
  obtain ⟨n, hn, hpieces⟩ := pieces_of_enough h
  rw [hpieces]
  have hlong : LastEnough last ((lineText last).take n).length := by
    rw [List.length_take]
    exact Or.imp (fun h => by omega) (And.imp_right fun h => by omega) hn
  have hpre : (lineText last).take n <+: lineText last := List.take_prefix _ _
  generalize (lineText last).take n = p at hlong hpre ⊢
  have hnil : p ≠ [] := by
    rintro rfl
    have hlen := length_lineText last
    rcases hlong with hlong | ⟨-, hlong⟩ <;> rw [List.length_nil] at hlong <;> omega
  have hcomplete : ∀ q ∈ init.map lineText, Complete q := by
    intro q hq
    obtain ⟨l, hl, rfl⟩ := List.mem_map.mp hq
    exact ⟨_, rfl, fun h =>
      ((hlegible l (List.mem_append_left _ hl)).body_bytes l.2 10 h).2 rfl⟩
  have hlast := complete_piece (hlegible last (List.mem_append_right _ List.mem_cons_self)) hpre
  have hlines := fgetsLines_concat hcomplete (hlast.imp And.right fun hnew => ⟨hnew, hnil⟩)
  have hnot : ∀ l ∈ init, l ≠ last := by
    rintro l hl rfl
    exact lt_irrefl _ ((List.pairwise_append.mp hsorted).2.2 l hl l List.mem_cons_self)
  -- the last line as it is left, the others as they were given
  have hmap : init.map lineText ++ [p] = (init ++ [last]).map (Function.update lineText last p) := by
    rw [List.map_append, List.map_singleton, Function.update_self]
    congr 1
    exact List.map_congr_left fun l hl => (Function.update_of_ne (hnot l hl) _ _).symm
  refine found_of_lines hlegible hlive hsorted (hlines.trans hmap) fun l hl => ?_
  rcases List.mem_append.mp hl with hl | hl
  · rw [Function.update_of_ne (hnot l hl)]
    exact ⟨List.prefix_refl _, Or.inl (Nat.le_succ _)⟩
  · obtain rfl := List.mem_singleton.mp hl
    rw [Function.update_self]
    exact ⟨hpre, hlong⟩

/-- Of the file as it was everything is found. -/
theorem recovers_self (hls : ∀ l ∈ ls, Legible l.1) : Recovers ls (textOf ls) := by
  rintro ⟨key, s'⟩ hl
  obtain ⟨m, hparse, hm⟩ := parse_textOf hls
  rw [hparse]
  obtain ⟨pe, hpe⟩ := hm.mem _ hl
  obtain ⟨i, s, hi, hseek⟩ := hm.place _ _ hpe
  have hnodup : ((kept ls).map fun l => l.1.pathPattern).Nodup :=
    List.pairwise_map.mpr ((kept_sorted ls).imp fun hlt => ne_of_lt hlt)
  obtain ⟨-, rfl⟩ := Prod.mk.inj
    (List.inj_on_of_nodup_map hnodup (List.mem_of_getElem? hi) hl rfl)
  have hholds := Ledger.holds_of_line hi hseek
  exact ⟨pe, hpe, hholds.readPos, hholds.readInode⟩

/-- **When a compaction that is cut short loses nothing.**  For every file of the
lines of legible keys, and whatever becomes of its compaction: all live entries
can be recovered, or a failure is reported and the file is as it was, if and only
if nothing was written over, or of every line kept all was written; of the last
one at least all but the newline, or, with an inode of zero, one digit of it. -/
theorem safe_iff (ls : List FileLine) (hls : ∀ l ∈ ls, Legible l.1) (o : Outcome) :
    Safe ls o ↔ Whole ls o := by
  cases o with
  | refused => exact iff_of_true (Or.inl (recovers_self hls)) trivial
  | early => exact iff_of_true (Or.inl (recovers_self hls)) trivial
  | cut ns returned =>
      have hlegible : ∀ l ∈ kept ls, Legible l.1 := fun l hl => hls l (live_of_mem_kept hl).1
      have hlive : ∀ l ∈ kept ls, l.2.readPos ≠ unwatchedPosition := fun l hl =>
        (live_of_mem_kept hl).2
      have hleft : Outcome.left (textOf ls) (.cut ns returned)
          = (pieces ((kept ls).map lineText) ns).flatten := by
        rw [Outcome.left, entryTexts_textOf hls]
      have hresult : (Outcome.cut ns returned).result ≠ some false := by
        cases returned <;> exact fun h => by cases h
      unfold Safe
      rw [hleft]
      constructor
      · rintro (hfound | ⟨hfalse, -⟩)
        · exact enough_of_found hlegible (kept_sorted ls) hfound
        · exact absurd hfalse hresult
      · intro henough
        exact Or.inl (found_of_enough hlegible hlive (kept_sorted ls) henough)

/-- Two lines, and the newline of the second is missing: nothing is lost. -/
theorem safe_iff_newline :
    Safe [(Ledger.keyA, ⟨5, 6⟩), (Ledger.keyB, ⟨7, 8⟩)] (.cut [30, 29] true) :=
  (safe_iff _ (by decide) _).mpr ⟨by decide, Or.inl (by decide)⟩

/-- One line, and the process is gone, or the disk full, when the file is empty. -/
theorem safe_fails : (∀ l ∈ [(Ledger.keyA, (⟨5, 6⟩ : Slot))], Legible l.1) ∧
    ¬ Safe [(Ledger.keyA, ⟨5, 6⟩)] (.cut [] false) ∧
    ¬ Safe [(Ledger.keyA, ⟨5, 6⟩)] (.cut [0] true) := by
  have hnot : ¬ Recovers [(Ledger.keyA, ⟨5, 6⟩)] [] := by
    intro h
    obtain ⟨pe, hpe, -⟩ := h (Ledger.keyA, ⟨5, 6⟩) (by decide)
    cases hpe
  refine ⟨by decide, ?_, ?_⟩
  · rintro (h | ⟨h, -⟩)
    · exact hnot h
    · cases h
  · rintro (h | ⟨h, -⟩)
    · exact hnot h
    · cases h

end Logkafka.PositionFile
