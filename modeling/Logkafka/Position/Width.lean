/-
# `Logkafka.Position.Width` — lines of any width, entries of one

`parseLine` takes numbers of any number of digits, and a `FilePositionEntry`
has fixed places for them:

    seek ..        16 digits of offset
    seek + 16      the tab
    seek + 17 ..    8 digits of inode

An entry that `parse` makes reads what `parseLine` decoded and writes nowhere
else if and only if the line is as wide as that; or so wide, and so empty, that
it makes no difference: more than 8 digits of inode, all of them zero where it
matters, or an offset of zero in 25 digits or more, which has room for all an
entry writes (`faithful_iff`).

Which lines there are is up to `compact`, which goes first: a line of its file
that is accepted is one it kept, so its offset is not that of an unwatched one
(`live_of_accepted`).
-/
import Logkafka.Position.Compact

namespace Logkafka.PositionFile

variable {file line : List Byte}

/-! ## The lines of a compacted file

Where the last line had no newline two lines may stand in one; such a line has too
many tabs to be accepted.
-/

/-- What `compact` writes of a line it keeps. -/
def KeptText (file text : List Byte) : Prop :=
  ∃ line ∈ fgetsLines file, text = cString line ∧
    ∃ e, parseLine text = some e ∧ e.pos ≠ unwatchedPosition

theorem keptText_existentEntries {lines : List (List Byte)}
    (hlines : ∀ l ∈ lines, l ∈ fgetsLines file) : ∀ m : OrdMap Str (List Byte),
      (∀ e ∈ m.entries, KeptText file (e.1 ++ e.2)) →
        ∀ e ∈ (existentEntries lines m).entries, KeptText file (e.1 ++ e.2) := by
  induction lines with
  | nil => exact fun _ hm => hm
  | cons line lines ih =>
      intro m hm
      have hrest := fun l hl => hlines l (List.mem_cons_of_mem _ hl)
      simp only [existentEntries]
      split
      · exact hm
      · split
        · exact ih hrest m hm
        · next e he =>
            split
            · exact ih hrest m hm
            · next hlive =>
                refine ih hrest _ fun e' hmem => ?_
                obtain ⟨p, v⟩ := e'
                rcases OrdMap.find?_insert_eq_some.mp (OrdMap.mem_entries.mp hmem) with
                  ⟨rfl, rfl⟩ | ⟨-, hold⟩
                · show KeptText file (_ ++ _)
                  rw [pattern_append_drop he]
                  exact ⟨line, hlines line List.mem_cons_self, rfl, e, he, hlive⟩
                · exact hm (p, v) (OrdMap.mem_entries.mpr hold)

theorem keptText_of_mem {text : List Byte} (h : text ∈ entryTexts file) : KeptText file text := by
  obtain ⟨e, he, rfl⟩ := List.mem_map.mp h
  exact keptText_existentEntries (fun _ hl => hl) OrdMap.empty (fun _ h => by cases h) e he

theorem KeptText.no_zero {text : List Byte} (h : KeptText file text) : 0 ∉ text := by
  obtain ⟨line, -, rfl, -⟩ := h
  intro hmem
  simpa using List.mem_takeWhile_imp hmem

theorem KeptText.count_tab {text : List Byte} (h : KeptText file text) : text.count 9 = 3 := by
  obtain ⟨-, -, -, e, he, -⟩ := h
  exact count_tab_of_parseLine he

/-- It may have lost its newline. -/
theorem KeptText.complete {text : List Byte} (h : KeptText file text) :
    Complete text ∨ 10 ∉ text := by
  obtain ⟨line, hline, rfl, -⟩ := h
  have hpre : cString line <+: line := List.takeWhile_prefix _
  rcases complete_or_last hline with ⟨body, rfl, hbody⟩ | ⟨-, hnew, -⟩
  · by_cases hall : cString (body ++ [10]) = body ++ [10]
    · exact Or.inl ⟨body, hall, hbody⟩
    · refine Or.inr fun hmem => hbody ?_
      have hlt := (List.prefix_concat_iff.mp hpre).resolve_left hall
      exact hlt.subset hmem
  · exact Or.inr fun hmem => hnew (hpre.subset hmem)

/-- No zero byte is left. -/
theorem zero_not_mem_compact (file : List Byte) : 0 ∉ compact file := by
  rw [compact_eq_flatten]
  intro hmem
  obtain ⟨t, ht, hb⟩ := List.mem_flatten.mp hmem
  exact (keptText_of_mem ht).no_zero hb

/-- Texts back to back, some of them without a newline: each line is made of
some of them. -/
theorem exists_groups {ts : List (List Byte)} (hts : ∀ t ∈ ts, Complete t ∨ 10 ∉ t) :
    ∃ (gs : List (List (List Byte))) (r : List (List Byte)), ts = gs.flatten ++ r ∧
      (∀ g ∈ gs, Complete g.flatten) ∧ 10 ∉ r.flatten := by
  induction ts with
  | nil => exact ⟨[], [], rfl, by simp, by simp⟩
  | cons t ts ih =>
      obtain ⟨ht, hrest⟩ := List.forall_mem_cons.mp hts
      obtain ⟨gs, r, rfl, hgs, hr⟩ := ih hrest
      rcases ht with ht | ht
      · exact ⟨[t] :: gs, r, rfl, List.forall_mem_cons.mpr ⟨by simpa using ht, hgs⟩, hr⟩
      · cases gs with
        | nil => exact ⟨[], t :: r, rfl, hgs, by simp [ht, hr]⟩
        | cons g gs =>
            obtain ⟨hg, hgs⟩ := List.forall_mem_cons.mp hgs
            refine ⟨(t :: g) :: gs, r, rfl, List.forall_mem_cons.mpr ⟨?_, hgs⟩, hr⟩
            rw [List.flatten_cons]
            exact hg.append ht

theorem count_flatten {ts : List (List Byte)} (hts : ∀ t ∈ ts, t.count 9 = 3) :
    ts.flatten.count 9 = 3 * ts.length := by
  induction ts with
  | nil => rfl
  | cons t ts ih =>
      obtain ⟨ht, hrest⟩ := List.forall_mem_cons.mp hts
      rw [List.flatten_cons, List.count_append, ht, ih hrest, List.length_cons]
      omega

/-- A line of a compacted file that is accepted is one that was kept. -/
theorem keptText_of_accepted {e : ParsedLine} (hline : line ∈ fgetsLines (compact file))
    (he : parseLine line = some e) : KeptText file line := by
  have hkept : ∀ t ∈ entryTexts file, KeptText file t := fun t ht => keptText_of_mem ht
  obtain ⟨gs, r, hts, hgs, hr⟩ := exists_groups fun t ht => (hkept t ht).complete
  rw [hts] at hkept
  have hflat : (gs.flatten ++ r).flatten = (gs.map List.flatten).flatten ++ r.flatten := by
    rw [List.flatten_append, List.flatten_flatten]
  rw [compact_eq_flatten, hts, hflat, fgetsLines_append (by simpa using hgs) hr] at hline
  -- with two texts in it the line has six tabs
  have hone : ∀ g : List (List Byte), (∀ t ∈ g, t ∈ gs.flatten ++ r) → g.flatten = line →
      KeptText file line := by
    intro g hg hflat
    have hcount := count_flatten fun t ht => (hkept t (hg t ht)).count_tab
    rw [hflat, count_tab_of_parseLine he] at hcount
    obtain ⟨t, rfl⟩ := List.length_eq_one_iff.mp (by omega : g.length = 1)
    rw [List.flatten_singleton] at hflat
    exact hflat ▸ hkept t (hg t List.mem_cons_self)
  rcases List.mem_append.mp hline with hline | hline
  · obtain ⟨g, hg, hflat⟩ := List.mem_map.mp hline
    exact hone g (fun t ht => List.mem_append_left _ (List.mem_flatten.mpr ⟨g, hg, ht⟩)) hflat
  · split at hline
    · cases hline
    · exact hone r (fun t ht => List.mem_append_right _ ht) (List.mem_singleton.mp hline).symm

theorem live_of_accepted {e : ParsedLine} (hline : line ∈ fgetsLines (compact file))
    (he : parseLine line = some e) : e.pos ≠ unwatchedPosition := by
  obtain ⟨-, -, -, e', he', hlive⟩ := keptText_of_accepted hline he
  obtain rfl := Option.some.inj (he.symm.trans he')
  exact hlive

/-! ## The line of an entry

The numbers of the line with what is in front of them and behind, so that a place
in the file is a place in one of the three.
-/

/-- The line an entry was made from: `line` of the file `g`, the two numbers in it,
and the entry's place in front of them. -/
structure EntryLine (g : List Byte) (key : PositionEntryKey) (pe : FilePositionEntry) where
  before : List (List Byte)
  after : List (List Byte)
  posStr : List Byte
  inodeStr : List Byte
  tail : List Byte
  parsed : ParsedLine
  key_eq : parsed.key = key
  lines : fgetsLines g = before ++ (header key ++ posStr ++ [9] ++ inodeStr ++ tail) :: after
  parse_eq : parseLine (header key ++ posStr ++ [9] ++ inodeStr ++ tail) = some parsed
  posDigits : ∀ b ∈ posStr, hex.isDigit b = true
  inodeDigits : ∀ b ∈ inodeStr, hex.isDigit b = true
  pos_ne : posStr ≠ []
  inode_ne : inodeStr ≠ []
  pos_eq : parsed.pos = hexstr2num posStr (-1)
  inode_eq : parsed.inode = (hexstr2num inodeStr 0).toUInt64
  tail_eq : tail = [] ∨ tail = [10]
  seek_eq : pe.seek = before.flatten.length + (header key).length

theorem flatten_fgetsLines (g : List Byte) : (fgetsLines g).flatten = g := by
  obtain ⟨ls, rest, hls, hrest, rfl⟩ := exists_lines g
  rw [fgetsLines_append hls hrest]
  split
  · next hnil => simp [hnil]
  · simp

/-- The loop of `parse`: the lines in front of `tell` are done. -/
theorem entryLine_parseEntries {g : List Byte} (hzero : 0 ∉ g) {lines : List (List Byte)} :
    ∀ {done : List (List Byte)} {m : OrdMap PositionEntryKey FilePositionEntry},
      fgetsLines g = done ++ lines →
      (∀ key pe, m.find? key = some pe → Nonempty (EntryLine g key pe)) →
        (parseEntries g done.flatten.length lines m).file = g ∧
          ∀ key pe, (parseEntries g done.flatten.length lines m).peMap.find? key = some pe →
            Nonempty (EntryLine g key pe) := by
  induction lines with
  | nil => exact fun _ hm => ⟨rfl, hm⟩
  | cons line lines ih =>
      intro done m hlines hm
      have hmem : line ∈ fgetsLines g := hlines ▸ List.mem_append_right _ List.mem_cons_self
      have hstr := cString_of_mem hzero hmem
      have hnext : fgetsLines g = (done ++ [line]) ++ lines := by simpa using hlines
      have htell : (done ++ [line]).flatten.length = done.flatten.length + line.length := by simp
      simp only [parseEntries, hstr, if_neg (fgetsLines_ne_nil hmem), ← htell]
      split
      · exact ih hnext hm
      · next e he =>
          refine ih hnext fun key pe h => ?_
          rcases OrdMap.find?_insert_eq_some.mp h with ⟨rfl, rfl⟩ | ⟨-, h⟩
          · obtain ⟨posStr, inodeStr, tail, hline, -, ⟨hposne, hposd⟩, ⟨hinone, hinod⟩, htail, hpos,
              hino⟩ := parseLine_sound he
            refine ⟨⟨done, lines, posStr, inodeStr, tail, e, rfl, hline ▸ hlines, hline ▸ he, hposd,
              hinod, hposne, hinone, hpos, hino, htail, ?_⟩⟩
            show (done ++ [line]).flatten.length - line.length + e.key.pathPattern.length + 1
              + e.key.path.length + 1 = _
            rw [htell]
            simp only [header, List.length_append, List.length_singleton]
            omega
          · exact hm key pe h

/-- Every entry that `parse` makes has its line. -/
theorem entryLine_of_parse {key : PositionEntryKey} {pe : FilePositionEntry}
    (h : (parse file).peMap.find? key = some pe) :
    (parse file).file = compact file ∧ Nonempty (EntryLine (compact file) key pe) := by
  obtain ⟨hfile, hentries⟩ := @entryLine_parseEntries (compact file) (zero_not_mem_compact file)
    (fgetsLines (compact file)) [] OrdMap.empty rfl fun _ _ h => by cases h
  exact ⟨hfile, hentries key pe h⟩

namespace EntryLine

variable {g : List Byte} {key : PositionEntryKey} {pe : FilePositionEntry}

def lineStr (l : EntryLine g key pe) : List Byte :=
  header key ++ l.posStr ++ [9] ++ l.inodeStr ++ l.tail

theorem mem_lineStr (l : EntryLine g key pe) : l.lineStr ∈ fgetsLines g :=
  l.lines ▸ List.mem_append_right _ List.mem_cons_self

/-- What is in front of the numbers. -/
def front (l : EntryLine g key pe) : List Byte := l.before.flatten ++ header key

/-- What is behind them. -/
def back (l : EntryLine g key pe) : List Byte := l.tail ++ l.after.flatten

theorem length_front (l : EntryLine g key pe) : pe.seek = l.front.length := by
  rw [l.seek_eq, front, List.length_append]

theorem file_eq (l : EntryLine g key pe) :
    g = l.front ++ l.posStr ++ [9] ++ l.inodeStr ++ l.back := by
  have hflat := flatten_fgetsLines g
  rw [l.lines] at hflat
  refine hflat.symm.trans ?_
  rw [front, back]
  simp

/-- A line without a newline is the last one. -/
theorem after_eq_nil (l : EntryLine g key pe) (htail : l.tail = []) : l.after = [] := by
  by_contra hne
  obtain ⟨body, hbody, -⟩ := complete_of_lines l.lines hne
  have hlast := congrArg List.getLast? hbody
  rw [htail, List.append_nil, List.getLast?_append_of_ne_nil _ l.inode_ne,
    List.getLast?_concat] at hlast
  have hdigit := l.inodeDigits 10 (List.mem_of_getLast? hlast)
  exact (hex_digit_ne hdigit).2.2.2.2.2 rfl

/-- What is behind the numbers does not begin with a digit. -/
theorem back_head (l : EntryLine g key pe) : l.back[0]? = none ∨ l.back[0]? = some 10 := by
  rcases l.tail_eq with htail | htail
  · left
    rw [back, htail, l.after_eq_nil htail]
    rfl
  · right
    rw [back, htail]
    rfl

/-- A byte of the two numbers. -/
def Inside (l : EntryLine g key pe) (k : ℕ) : Prop :=
  pe.seek ≤ k ∧ k < pe.seek + l.posStr.length ∨
    pe.seek + l.posStr.length + 1 ≤ k ∧ k < pe.seek + l.posStr.length + 1 + l.inodeStr.length

/-- The entry reads what was decoded of its line, and whatever calls are made on
it, every byte that is not of the two numbers stays. -/
structure Faithful (l : EntryLine g key pe) : Prop where
  readPos : pe.readPos g = l.parsed.pos
  readInode : pe.readInode g = l.parsed.inode
  confined : ∀ (as : List EntryCall) (k : ℕ), ¬ l.Inside k →
    (as.foldl (fun g a => a.file pe g) g)[k]? = g[k]?

/-- The numbers are as wide as an entry has them; or wider, and zero. -/
def Fits (l : EntryLine g key pe) : Prop :=
  l.posStr.length = 16 ∧ (l.inodeStr.length = 8 ∨
      8 < l.inodeStr.length ∧ hex.value (l.inodeStr.take 8) = 0 ∧ l.parsed.inode = 0) ∨
    25 ≤ l.posStr.length ∧ l.parsed.pos = 0 ∧ l.parsed.inode = 0

end EntryLine

/-- What a call writes at the place of its entry. -/
def callText : EntryCall → List Byte
  | .write (.update inode pos) => Slot.text ⟨pos.toUInt64, inode.toUInt32⟩
  | .write (.updatePos pos) => FilePositionEntry.posText pos.toUInt64
  | .unwatch => FilePositionEntry.posText unwatchedPosition.toUInt64

theorem file_eq_overwrite (a : EntryCall) (pe : FilePositionEntry) (g : List Byte) :
    a.file pe g = overwrite 0 g pe.seek (callText a) := by
  cases a with
  | write a =>
      cases a with
      | update inode pos => rfl
      | updatePos pos => rfl
  | unwatch => rfl

/-- No more than 25 bytes are written, and the one behind the offset is a tab. -/
theorem callText_spec (a : EntryCall) :
    (callText a).length ≤ 25 ∧ (16 < (callText a).length → (callText a)[16]? = some 9) := by
  have hpos : ∀ pos : UInt64, (FilePositionEntry.posText pos).length = 16 := fun pos => by
    simp [FilePositionEntry.posText]
  cases a with
  | write a =>
      cases a with
      | update inode pos =>
          refine ⟨Nat.le_of_eq (Slot.length_text _), fun _ => ?_⟩
          show (_ ++ [9] ++ _)[16]? = some 9
          rw [List.append_assoc, List.getElem?_append_right (Nat.le_of_eq (hpos _)), hpos]
          rfl
      | updatePos pos =>
          have hlen : (callText (.write (.updatePos pos))).length = 16 := hpos _
          exact ⟨by omega, by omega⟩
  | unwatch =>
      have hlen : (callText .unwatch).length = 16 := hpos _
      exact ⟨by omega, by omega⟩

/-- `update(0, 0)` -/
def zeroCall : EntryCall := .write (.update 0 0)

theorem callText_zero : ∀ j < 25, j ≠ 16 → (callText zeroCall)[j]? = some 48 := by decide

namespace EntryLine

variable {g : List Byte} {key : PositionEntryKey} {pe : FilePositionEntry}

/-! ## The bytes around the numbers -/

theorem seek_le (l : EntryLine g key pe) :
    pe.seek + l.posStr.length + 1 + l.inodeStr.length ≤ g.length := by
  have hlen := congrArg List.length l.file_eq
  simp only [List.length_append, List.length_singleton] at hlen
  have hseek := l.length_front
  omega

theorem tab_eq (l : EntryLine g key pe) : g[pe.seek + l.posStr.length]? = some 9 := by
  have hget := congrArg (fun f : List Byte => f[pe.seek + l.posStr.length]?) l.file_eq
  refine hget.trans ?_
  have hlen : (l.front ++ l.posStr).length = pe.seek + l.posStr.length := by
    rw [List.length_append, l.length_front]
  rw [List.append_assoc, List.append_assoc, List.getElem?_append_right (Nat.le_of_eq hlen), hlen,
    Nat.sub_self]
  rfl

/-- The first bytes of an entry's place are the digits of the offset. -/
theorem digit_eq (l : EntryLine g key pe) {j : ℕ} (hj : j < l.posStr.length) :
    ∃ b, g[pe.seek + j]? = some b ∧ hex.isDigit b = true := by
  have hget := congrArg (fun f : List Byte => f[pe.seek + j]?) l.file_eq
  refine ⟨l.posStr[j], hget.trans ?_, l.posDigits _ (List.getElem_mem hj)⟩
  rw [List.append_assoc, List.append_assoc, List.append_assoc, l.length_front,
    List.getElem?_append_right (Nat.le_add_right _ _), Nat.add_sub_cancel_left,
    List.getElem?_append_left hj, List.getElem?_eq_getElem hj]

theorem behind_eq (l : EntryLine g key pe) :
    g[pe.seek + l.posStr.length + 1 + l.inodeStr.length]? ≠ some 48 := by
  have hget := congrArg
    (fun f : List Byte => f[pe.seek + l.posStr.length + 1 + l.inodeStr.length]?) l.file_eq
  have hlen : (l.front ++ l.posStr ++ [9] ++ l.inodeStr).length
      = pe.seek + l.posStr.length + 1 + l.inodeStr.length := by
    simp only [List.length_append, List.length_singleton, l.length_front]
  rw [List.getElem?_append_right (Nat.le_of_eq hlen), hlen, Nat.sub_self] at hget
  rw [hget]
  rcases l.back_head with hback | hback
  · rw [hback]
    exact fun h => by cases h
  · rw [hback]
    decide

/-! ## What is written

A write stays within the numbers, but for the tab behind the offset.
-/

/-- A byte written outside the numbers is the tab between them. -/
theorem Fits.call (l : EntryLine g key pe) (hfits : l.Fits) (a : EntryCall) {g' : List Byte}
    (hlen : g'.length = g.length) (hsame : ∀ k, ¬ l.Inside k → g'[k]? = g[k]?) :
    (a.file pe g').length = g.length ∧ ∀ k, ¬ l.Inside k → (a.file pe g')[k]? = g[k]? := by
  obtain ⟨hwidth, htab⟩ := callText_spec a
  have hle := l.seek_le
  have hroom : pe.seek + (callText a).length ≤ g'.length := by
    rcases hfits with ⟨hpos, hino⟩ | ⟨hpos, -⟩
    · rcases hino with hino | ⟨hino, -⟩ <;> omega
    · omega
  rw [file_eq_overwrite]
  refine ⟨(length_overwrite 0 hroom).trans hlen, fun k hk => ?_⟩
  by_cases hin : pe.seek ≤ k ∧ k < pe.seek + (callText a).length
  · obtain ⟨j, rfl⟩ := Nat.exists_eq_add_of_le hin.1
    rw [getElem?_overwrite 0 (by omega) (by omega)]
    have hj : j = 16 ∧ l.posStr.length = 16 := by
      unfold Inside at hk
      rcases hfits with ⟨hpos, hino⟩ | ⟨hpos, -⟩
      · rcases hino with hino | ⟨hino, -⟩ <;> omega
      · omega
    obtain ⟨rfl, hpos⟩ := hj
    rw [htab (by omega), ← hpos]
    exact l.tab_eq.symm
  · rw [getElem?_overwrite_of_not 0 (by omega) (by omega)]
    exact hsame k hk

theorem Fits.confined (l : EntryLine g key pe) (hfits : l.Fits) (as : List EntryCall) :
    ∀ k, ¬ l.Inside k → (as.foldl (fun g a => a.file pe g) g)[k]? = g[k]? := by
  suffices h : ∀ g' : List Byte, g'.length = g.length → (∀ k, ¬ l.Inside k → g'[k]? = g[k]?) →
      ∀ k, ¬ l.Inside k → (as.foldl (fun g a => a.file pe g) g')[k]? = g[k]? from
    h g rfl fun _ _ => rfl
  induction as with
  | nil => exact fun _ _ hsame => hsame
  | cons a as ih =>
      intro g' hlen hsame
      obtain ⟨hlen', hsame'⟩ := Fits.call l hfits a hlen hsame
      exact ih _ hlen' hsame'

/-- Where an entry writes nothing but the numbers there is room for it. -/
theorem Faithful.widths (l : EntryLine g key pe) (hf : l.Faithful) :
    l.posStr.length = 16 ∧ 8 ≤ l.inodeStr.length ∨ 25 ≤ l.posStr.length := by
  have hle := l.seek_le
  have hwritten : ∀ j < 25, j ≠ 16 → ¬ l.Inside (pe.seek + j) → g[pe.seek + j]? = some 48 := by
    intro j hj hne hout
    have hlen : (callText zeroCall).length = 25 := rfl
    have hkeep : (zeroCall.file pe g)[pe.seek + j]? = g[pe.seek + j]? :=
      hf.confined [zeroCall] _ hout
    rw [← hkeep, file_eq_overwrite, getElem?_overwrite 0 (by omega) (by omega)]
    exact callText_zero j hj hne
  by_cases hpos : l.posStr.length = 16
  · left
    refine ⟨hpos, ?_⟩
    by_contra hino
    have hbehind := hwritten (l.posStr.length + 1 + l.inodeStr.length) (by omega) (by omega)
      (by unfold Inside; omega)
    rw [← Nat.add_assoc, ← Nat.add_assoc] at hbehind
    exact l.behind_eq hbehind
  · right
    by_contra hlt
    have htab := hwritten l.posStr.length (by omega) hpos (by unfold Inside; omega)
    rw [l.tab_eq] at htab
    exact absurd htab (by decide)

/-! ## What is read

An entry reads fixed bytes, so of a wide number it reads a part.
-/

theorem hexstr2num_eight {ds : List Byte} (hds : ∀ b ∈ ds, hex.isDigit b = true)
    (hlen : ds.length = 8) (defaultNum : OffT) :
    (hexstr2num ds defaultNum).toUInt64 = UInt64.ofNat (hex.value ds) := by
  have hlt := hex.value_lt hexValue_lt ds
  rw [hlen, show hex.base = 16 from rfl] at hlt
  rw [hexstr2num_digits hds, if_pos (by omega)]
  rfl

theorem read_pos (l : EntryLine g key pe) (hpos : 16 ≤ l.posStr.length) :
    pe.readPos g = hexstr2num (l.posStr.take 16) (-1) := by
  have hread : readAt g pe.seek 16 = some (l.posStr.take 16) := by
    refine (congrArg (readAt · pe.seek 16) l.file_eq).trans ?_
    have hsplit : l.front ++ l.posStr ++ [9] ++ l.inodeStr ++ l.back
        = l.front ++ l.posStr.take 16 ++ (l.posStr.drop 16 ++ [9] ++ l.inodeStr ++ l.back) := by
      conv_lhs => rw [← List.take_append_drop 16 l.posStr]
      simp only [List.append_assoc]
    rw [hsplit]
    exact readAt_mid l.length_front (by rw [List.length_take]; omega)
  unfold FilePositionEntry.readPos
  rw [show FilePositionEntry.posSize = 16 from rfl, hread]

/-- The 8 bytes the inode is read from. -/
theorem read_inode (l : EntryLine g key pe) (pre ds suf : List Byte)
    (hsplit : l.posStr ++ [9] ++ l.inodeStr = pre ++ ds ++ suf) (hpre : pre.length = 17)
    (hlen : ds.length = 8) (hds : ∀ b ∈ ds, hex.isDigit b = true) :
    pe.readInode g = UInt64.ofNat (hex.value ds) := by
  have hread : readAt g (pe.seek + 17) 8 = some ds := by
    refine (congrArg (readAt · (pe.seek + 17) 8) l.file_eq).trans ?_
    have hfile : l.front ++ l.posStr ++ [9] ++ l.inodeStr ++ l.back
        = l.front ++ pre ++ ds ++ (suf ++ l.back) := by
      have hcat := congrArg (fun xs => l.front ++ xs ++ l.back) hsplit
      simpa only [List.append_assoc] using hcat
    rw [hfile]
    exact readAt_mid (by rw [List.length_append, hpre, l.length_front]) hlen.symm
  unfold FilePositionEntry.readInode
  rw [show FilePositionEntry.inoOffset = 17 from rfl, show FilePositionEntry.inoSize = 8 from rfl,
    hread]
  exact hexstr2num_eight hds hlen _

/-- Where the offset has 16 digits. -/
theorem read_inode_behind (l : EntryLine g key pe) (hpos : l.posStr.length = 16)
    (hino : 8 ≤ l.inodeStr.length) :
    pe.readInode g = UInt64.ofNat (hex.value (l.inodeStr.take 8)) := by
  refine l.read_inode (l.posStr ++ [9]) _ (l.inodeStr.drop 8) ?_ ?_ ?_ ?_
  · rw [List.append_assoc (l.posStr ++ [9]), List.take_append_drop]
  · rw [List.length_append, List.length_singleton, hpos]
  · rw [List.length_take, Nat.min_eq_left hino]
  · exact fun b hb => l.inodeDigits b (List.mem_of_mem_take hb)

/-- Where it has 25 or more, the inode is read out of the middle of it. -/
theorem read_inode_within (l : EntryLine g key pe) (hpos : 25 ≤ l.posStr.length) :
    pe.readInode g = UInt64.ofNat (hex.value ((l.posStr.drop 17).take 8)) := by
  refine l.read_inode (l.posStr.take 17) _ ((l.posStr.drop 17).drop 8 ++ [9] ++ l.inodeStr)
    ?_ ?_ ?_ ?_
  · have hsplit : l.posStr = l.posStr.take 17 ++ ((l.posStr.drop 17).take 8
        ++ (l.posStr.drop 17).drop 8) := by
      rw [List.take_append_drop, List.take_append_drop]
    conv_lhs => rw [hsplit]
    simp only [List.append_assoc]
  · rw [List.length_take]
    omega
  · rw [List.length_take, List.length_drop]
    omega
  · exact fun b hb => l.posDigits b (List.mem_of_mem_drop (List.mem_of_mem_take hb))

/-! ## Zeros

The cases in which a wide line does no harm are all of zeros, and here it is shown
that there are no others.
-/

/-- A number that is the same with more digits behind it is zero. -/
theorem value_take_eq {ds : List Byte} {n : ℕ} (hn : n < ds.length)
    (heq : hex.value (ds.take n) = hex.value ds) : hex.value ds = 0 := by
  have hsplit := hex.value_append (ds.take n) (ds.drop n)
  rw [List.take_append_drop, ← heq] at hsplit
  have hpow : 2 ≤ hex.base ^ (ds.drop n).length := by
    rw [List.length_drop]
    exact Nat.le_trans (Nat.le_self_pow (by omega) 2)
      (Nat.pow_le_pow_left (by decide : 2 ≤ hex.base) _)
  have hle := Nat.mul_le_mul_left (hex.value (ds.take n)) hpow
  omega

/-- The digits of zero. -/
theorem value_eq_zero_of_append {xs ys : List Byte} (h : hex.value (xs ++ ys) = 0) :
    hex.value xs = 0 ∧ hex.value ys = 0 := by
  rw [hex.value_append] at h
  obtain ⟨hxs, hys⟩ := Nat.add_eq_zero_iff.mp h
  refine ⟨?_, hys⟩
  rcases Nat.mul_eq_zero.mp hxs with hxs | hpow
  · exact hxs
  · exact absurd hpow (Nat.ne_of_gt (Nat.pow_pos hex.base_pos))

/-- Some of them. -/
theorem value_middle {ds : List Byte} (h : hex.value ds = 0) (m n : ℕ) :
    hex.value ((ds.drop m).take n) = 0 := by
  rw [← List.take_append_drop m ds] at h
  obtain ⟨-, hdrop⟩ := value_eq_zero_of_append h
  rw [← List.take_append_drop n (ds.drop m)] at hdrop
  exact (value_eq_zero_of_append hdrop).1

/-- The offset that was decoded, if it is not that of an unwatched entry. -/
theorem value_posStr_lt (l : EntryLine g key pe) (hlive : l.parsed.pos ≠ unwatchedPosition) :
    hex.value l.posStr < 2 ^ 63 - 1 := by
  by_contra hge
  refine hlive (l.pos_eq.trans ?_)
  rw [hexstr2num_digits l.posDigits, if_neg hge]
  rfl

theorem ofNat_inj {m n : ℕ} (hm : m < 2 ^ 63) (hn : n < 2 ^ 63)
    (h : Int64.ofNat m = Int64.ofNat n) : m = n := by
  have hint := congrArg Int64.toInt h
  rw [Int64.toInt_ofNat_of_lt hm, Int64.toInt_ofNat_of_lt hn] at hint
  exact Int.ofNat_inj.mp hint

theorem parsed_pos_eq_zero_iff (l : EntryLine g key pe) :
    l.parsed.pos = 0 ↔ hex.value l.posStr = 0 := by
  rw [l.pos_eq, hexstr2num_digits l.posDigits]
  split
  · next hlt =>
      constructor
      · exact fun h => ofNat_inj (by omega) (by decide) h
      · intro h
        rw [h]
        rfl
  · next hge =>
      refine iff_of_false (by decide) fun h => hge ?_
      rw [h]
      decide

/-- 8 digits of the inode, where there are more. -/
theorem inode_take_iff (l : EntryLine g key pe) (hino : 8 < l.inodeStr.length) :
    UInt64.ofNat (hex.value (l.inodeStr.take 8)) = l.parsed.inode ↔
      hex.value (l.inodeStr.take 8) = 0 ∧ l.parsed.inode = 0 := by
  have hlt := hex.value_lt hexValue_lt (l.inodeStr.take 8)
  rw [List.length_take, Nat.min_eq_left (by omega), show hex.base = 16 from rfl] at hlt
  have hnat : (UInt64.ofNat (hex.value (l.inodeStr.take 8))).toNat
      = hex.value (l.inodeStr.take 8) := UInt64.toNat_ofNat_of_lt' (by
    show _ < 2 ^ 64
    omega)
  constructor
  · intro heq
    suffices hzero : hex.value (l.inodeStr.take 8) = 0 from
      ⟨hzero, by rw [← heq, hzero]; rfl⟩
    rw [l.inode_eq, hexstr2num_digits l.inodeDigits] at heq
    split at heq
    · next hsmall =>
        have hval := congrArg UInt64.toNat heq
        have hall : (Int64.ofNat (hex.value l.inodeStr)).toUInt64.toNat
            = hex.value l.inodeStr := UInt64.toNat_ofNat_of_lt' (by
          show _ < 2 ^ 64
          omega)
        rw [hnat, hall] at hval
        exact hval.trans (value_take_eq hino hval)
    · rw [← hnat, heq]
      rfl
  · rintro ⟨hzero, hinode⟩
    rw [hzero, hinode]
    rfl

theorem faithful_iff_fits (l : EntryLine g key pe) (hlive : l.parsed.pos ≠ unwatchedPosition) :
    l.Faithful ↔ l.Fits := by
  have hlt := l.value_posStr_lt hlive
  constructor
  · intro hf
    rcases Faithful.widths l hf with ⟨hpos, hino⟩ | hpos
    · refine Or.inl ⟨hpos, ?_⟩
      rcases Nat.eq_or_lt_of_le hino with hino | hino
      · exact Or.inl hino.symm
      · have hread := (l.read_inode_behind hpos (by omega)).symm.trans hf.readInode
        exact Or.inr ⟨hino, (l.inode_take_iff hino).mp hread⟩
    · have hread := (l.read_pos (by omega)).symm.trans hf.readPos
      have hdigits : ∀ b ∈ l.posStr.take 16, hex.isDigit b = true := fun b hb =>
        l.posDigits b (List.mem_of_mem_take hb)
      have hzero : hex.value l.posStr = 0 := by
        refine value_take_eq (n := 16) (by omega) ?_
        rw [l.pos_eq, hexstr2num_digits hdigits, hexstr2num_digits l.posDigits, if_pos hlt] at hread
        split at hread
        · exact ofNat_inj (by omega) (by omega) hread
        · -- the offset that was decoded is not that of an unwatched entry
          refine absurd ?_ hlive
          rw [l.pos_eq, hexstr2num_digits l.posDigits, if_pos hlt]
          exact hread.symm
      refine Or.inr ⟨hpos, l.parsed_pos_eq_zero_iff.mpr hzero, ?_⟩
      rw [← hf.readInode, l.read_inode_within hpos, value_middle hzero]
      rfl
  · intro hfits
    refine ⟨?_, ?_, Fits.confined l hfits⟩
    · rcases hfits with ⟨hpos, -⟩ | ⟨hpos, hzero, -⟩
      · rw [l.read_pos (by omega), List.take_of_length_le (by omega), l.pos_eq]
      · have hval := l.parsed_pos_eq_zero_iff.mp hzero
        rw [← List.take_append_drop 16 l.posStr] at hval
        have hdigits : ∀ b ∈ l.posStr.take 16, hex.isDigit b = true := fun b hb =>
          l.posDigits b (List.mem_of_mem_take hb)
        rw [l.read_pos (by omega), hexstr2num_digits hdigits, (value_eq_zero_of_append hval).1, hzero]
        rfl
    · rcases hfits with ⟨hpos, hino | ⟨hino, hnone⟩⟩ | ⟨hpos, hzero, hinode⟩
      · rw [l.read_inode_behind hpos (by omega), List.take_of_length_le (by omega), l.inode_eq,
          hexstr2num_eight l.inodeDigits hino]
      · rw [l.read_inode_behind hpos (by omega)]
        exact (l.inode_take_iff hino).mpr hnone
      · rw [l.read_inode_within hpos, value_middle (l.parsed_pos_eq_zero_iff.mp hzero), hinode]
        rfl

end EntryLine

/-- **When fixed places address a line.**  For every file and every entry that
`parse` makes of it: the entry has a line, and whichever line that is, the entry
reads what was decoded of it and writes only inside its two numbers if and only
if they have 16 and 8 digits; or the inode has more, the first 8 and the inode
decoded being zero, or the offset has 25 or more, and both are zero. -/
theorem faithful_iff (file : List Byte) (key : PositionEntryKey) (pe : FilePositionEntry)
    (h : (parse file).peMap.find? key = some pe) :
    Nonempty (EntryLine (parse file).file key pe) ∧
      ∀ l : EntryLine (parse file).file key pe, l.Faithful ↔ l.Fits := by
  obtain ⟨hfile, hsome⟩ := entryLine_of_parse h
  rw [hfile]
  exact ⟨hsome, fun l => l.faithful_iff_fits (live_of_accepted l.mem_lineStr l.parse_eq)⟩

/-- A line of "/a" with an offset of one digit, and one of "/b". -/
def narrowFile : List Byte := ascii "/a\t/a\t7\t5\n/b\t/b\t0000000000000007\t00000005\n"

/-- The entry of "/b" addresses its line. -/
theorem faithful_iff_wide : ∃ pe, (parse narrowFile).peMap.find? ⟨ascii "/b", ascii "/b"⟩ = some pe ∧
    ∃ l : EntryLine (parse narrowFile).file ⟨ascii "/b", ascii "/b"⟩ pe, l.Faithful := by
  have hfind : (parse narrowFile).peMap.find? ⟨ascii "/b", ascii "/b"⟩ = some ⟨16⟩ := by
    decide +kernel
  let l : EntryLine (parse narrowFile).file ⟨ascii "/b", ascii "/b"⟩ ⟨16⟩ :=
    { before := [ascii "/a\t/a\t7\t5\n"], after := [], posStr := ascii "0000000000000007"
      inodeStr := ascii "00000005", tail := [10], parsed := ⟨⟨ascii "/b", ascii "/b"⟩, 7, 5⟩
      key_eq := rfl
      lines := by decide +kernel
      parse_eq := by decide +kernel
      posDigits := by decide +kernel
      inodeDigits := by decide +kernel
      pos_ne := by decide +kernel
      inode_ne := by decide +kernel
      pos_eq := by decide +kernel
      inode_eq := by decide +kernel
      tail_eq := Or.inr rfl
      seek_eq := by decide +kernel }
  have hfits : l.Fits := Or.inl ⟨by decide +kernel, Or.inl (by decide +kernel)⟩
  exact ⟨_, hfind, l, ((faithful_iff narrowFile _ _ hfind).2 l).mpr hfits⟩

/-- The entry of "/a" does not: with `update(0, 0)` it writes over the line of "/b",
whose offset is then 0 and not 7. -/
theorem faithful_fails : ∃ pe, (parse narrowFile).peMap.find? ⟨ascii "/a", ascii "/a"⟩ = some pe ∧
    (∃ pe', (parse narrowFile).peMap.find? ⟨ascii "/b", ascii "/b"⟩ = some pe' ∧
      pe'.readPos (parse narrowFile).file = 7 ∧
      pe'.readPos (zeroCall.file pe (parse narrowFile).file) = 0) ∧
    Nonempty (EntryLine (parse narrowFile).file ⟨ascii "/a", ascii "/a"⟩ pe) ∧
    ∀ l : EntryLine (parse narrowFile).file ⟨ascii "/a", ascii "/a"⟩ pe, ¬ l.Faithful := by
  have hfind : (parse narrowFile).peMap.find? ⟨ascii "/a", ascii "/a"⟩ = some ⟨6⟩ := by
    decide +kernel
  obtain ⟨hfile, hsome⟩ := entryLine_of_parse hfind
  refine ⟨_, hfind, ⟨⟨16⟩, by decide +kernel, by decide +kernel, by decide +kernel⟩,
    hfile ▸ hsome, fun l hf => ?_⟩
  -- behind the 7 there is a tab
  have hlong : 1 < l.posStr.length := by
    rcases EntryLine.Faithful.widths l hf with ⟨hpos, -⟩ | hpos <;> omega
  obtain ⟨b, hb, hdigit⟩ := l.digit_eq hlong
  have htab : (parse narrowFile).file[6 + 1]? = some 9 := by decide +kernel
  obtain rfl := Option.some.inj (htab.symm.trans hb)
  exact absurd hdigit (by decide)

end Logkafka.PositionFile
