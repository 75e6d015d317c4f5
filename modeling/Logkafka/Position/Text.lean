/-
# `Logkafka.Position.Text` — what `parse` finds in the lines entries write

The text of a position file is the lines of its entries, one after the other.
If the keys are `Legible`, `fgets` returns just these lines, `compact` leaves
the last live line of each pattern (`kept`), and `parse` finds the entry of
each line that is left at its place (`Placed`).

What `parse` takes from any file at all has legible keys (`legible_parse`).
-/
import Logkafka.Position.File
import Logkafka.Records

namespace Logkafka.PositionFile

open Records (text offset)

/-- A key and what its line says. -/
abbrev FileLine := PositionEntryKey × Slot

def lineText (l : FileLine) : List Byte := lineOf l.1 l.2

abbrev textOf (ls : List FileLine) : List Byte := text lineText ls

abbrev offsetOf (ls : List FileLine) (i : ℕ) : ℕ := offset lineText ls i

/-- A key that `fgets`, a C string and the regular expression leave whole. -/
structure Legible (key : PositionEntryKey) : Prop where
  plain : Plain key
  pathPattern_zero : 0 ∉ key.pathPattern
  pathPattern_newline : 10 ∉ key.pathPattern
  path_zero : 0 ∉ key.path
  path_newline : 10 ∉ key.path

theorem legible_iff (key : PositionEntryKey) :
    (Plain key ∧ 0 ∉ key.pathPattern ∧ 10 ∉ key.pathPattern ∧ 0 ∉ key.path ∧ 10 ∉ key.path) ↔
      Legible key :=
  ⟨fun h => ⟨h.1, h.2.1, h.2.2.1, h.2.2.2.1, h.2.2.2.2⟩, fun h =>
    ⟨h.plain, h.pathPattern_zero, h.pathPattern_newline, h.path_zero, h.path_newline⟩⟩

instance (key : PositionEntryKey) : Decidable (Legible key) := decidable_of_iff _ (legible_iff key)

variable {key : PositionEntryKey} {s : Slot} {ls : List FileLine} {file line : List Byte}

/-! ## One line -/

theorem ne_zero_of_isDigit {b : Byte} (h : hex.isDigit b = true) : b ≠ 0 := by
  rintro rfl
  revert h
  decide

theorem text_bytes (s : Slot) : ∀ b ∈ s.text, b ≠ 0 ∧ b ≠ 10 := by
  intro b hb
  simp only [Slot.text, List.mem_append, List.mem_singleton] at hb
  rcases hb with (hb | rfl) | hb
  · have hd := Slot.isDigit_posText _ b hb
    exact ⟨ne_zero_of_isDigit hd, (hex_digit_ne hd).2.2.2.2.2⟩
  · decide
  · have hd := Slot.isDigit_inodeText _ b hb
    exact ⟨ne_zero_of_isDigit hd, (hex_digit_ne hd).2.2.2.2.2⟩

theorem Legible.body_bytes (hk : Legible key) (s : Slot) :
    ∀ b ∈ header key ++ s.text, b ≠ 0 ∧ b ≠ 10 := by
  intro b hb
  simp only [header, List.mem_append, List.mem_singleton] at hb
  have hbytes : ∀ bs : List Byte, 0 ∉ bs → 10 ∉ bs → b ∈ bs → b ≠ 0 ∧ b ≠ 10 := by
    intro bs hzero hnewline hmem
    exact ⟨fun h => hzero (h ▸ hmem), fun h => hnewline (h ▸ hmem)⟩
  rcases hb with (((hb | rfl) | hb) | rfl) | hb
  · exact hbytes _ hk.pathPattern_zero hk.pathPattern_newline hb
  · decide
  · exact hbytes _ hk.path_zero hk.path_newline hb
  · decide
  · exact text_bytes s b hb

variable {l : FileLine}

theorem cString_lineText (hl : Legible l.1) : cString (lineText l) = lineText l := by
  refine List.takeWhile_eq_self_iff.mpr fun b hb => decide_eq_true ?_
  rcases List.mem_append.mp hb with hb | hb
  · exact (hl.body_bytes l.2 b hb).1
  · obtain rfl := List.mem_singleton.mp hb
    decide

theorem parseLine_lineText (hl : Legible l.1) :
    parseLine (lineText l) = some ⟨l.1, l.2.readPos, l.2.readInode⟩ :=
  parseLine_lineOf hl.plain l.2

theorem lineText_ne_nil (l : FileLine) : lineText l ≠ [] :=
  List.append_ne_nil_of_right_ne_nil _ (List.cons_ne_nil _ _)

theorem length_lineText (l : FileLine) :
    (lineText l).length = l.1.pathPattern.length + 1 + l.1.path.length + 1 + 26 := by
  simp only [lineText, lineOf, header, List.length_append, List.length_singleton,
    Slot.length_text]

/-! ## The lines of a file

How a text comes apart into lines, and how lines written back to back come apart
again.
-/

def Complete (line : List Byte) : Prop := ∃ body, line = body ++ [10] ∧ 10 ∉ body

theorem Complete.mem (h : Complete line) : 10 ∈ line := by
  obtain ⟨body, rfl, -⟩ := h
  simp

theorem Complete.append {l : List Byte} (hl : 10 ∉ l) (h : Complete line) :
    Complete (l ++ line) := by
  obtain ⟨body, rfl, hbody⟩ := h
  exact ⟨l ++ body, (List.append_assoc _ _ _).symm, fun hmem =>
    (List.mem_append.mp hmem).elim hl hbody⟩

theorem fgetsLines_append {ls : List (List Byte)} (hls : ∀ l ∈ ls, Complete l)
    {rest : List Byte} (hrest : 10 ∉ rest) :
    fgetsLines (ls.flatten ++ rest) = ls ++ if rest = [] then [] else [rest] := by
  have hdrop : ∀ l ∈ ls, l.dropLast ++ [10] = l ∧ 10 ∉ l.dropLast := by
    intro l hl
    obtain ⟨body, rfl, hbody⟩ := hls l hl
    rw [List.dropLast_concat]
    exact ⟨rfl, hbody⟩
  have hflat : (ls.flatMap fun l => l.dropLast ++ [10]) = ls.flatten := by
    rw [List.flatMap_congr fun l hl => (hdrop l hl).1]
    exact List.flatMap_id'
  have hmap : (ls.map fun l => l.dropLast ++ [10]) = ls := by
    rw [List.map_congr_left fun l hl => (hdrop l hl).1]
    exact List.map_id' ls
  have hcuts : Framing.cuts (fun b : Byte => decide (b = 10)) (ls.flatten ++ rest).length []
      ls.flatten = (ls, []) := by
    have hplain : ∀ l ∈ ls, ∀ b ∈ l.dropLast, decide (b = 10) = false := fun l hl b hb =>
      decide_eq_false fun h => (hdrop l hl).2 (h ▸ hb)
    have hlen : ∀ l ∈ ls, l.dropLast.length < (ls.flatten ++ rest).length := by
      intro l hl
      have hlength := (List.sublist_flatten_of_mem hl).length_le
      have hbody := congrArg List.length (hdrop l hl).1
      simp only [List.length_append, List.length_singleton] at hbody ⊢
      omega
    have hframes := @Framing.cuts_flatMap Byte (fun b => decide (b = 10)) _ (List Byte)
      List.dropLast 10 (decide_eq_true rfl) ls hplain hlen
    rwa [hflat, hmap] at hframes
  have hplain : ∀ b ∈ rest, decide (b = 10) = false := fun b hb =>
    decide_eq_false fun h => hrest (h ▸ hb)
  unfold fgetsLines
  rw [Framing.cuts_append, hcuts]
  by_cases hnil : rest = []
  · subst hnil
    rfl
  · rw [if_neg hnil]
    by_cases hlt : rest.length < (ls.flatten ++ rest).length
    · rw [Framing.cuts_short rest [] hplain (by simpa using hlt)]
      simp [hnil]
    · rw [Framing.cuts_full hnil hplain (by simp at hlt ⊢; omega)]
      rfl

theorem exists_lines (file : List Byte) : ∃ (ls : List (List Byte)) (rest : List Byte),
    (∀ l ∈ ls, Complete l) ∧ 10 ∉ rest ∧ file = ls.flatten ++ rest := by
  induction file with
  | nil => exact ⟨[], [], by simp, by simp, rfl⟩
  | cons b file ih =>
      obtain ⟨ls, rest, hls, hrest, rfl⟩ := ih
      by_cases hb : b = 10
      · subst hb
        exact ⟨[10] :: ls, rest, List.forall_mem_cons.mpr ⟨⟨[], rfl, by simp⟩, hls⟩, hrest, rfl⟩
      · cases ls with
        | nil => exact ⟨[], b :: rest, hls, by simp [Ne.symm hb, hrest], rfl⟩
        | cons l ls =>
            obtain ⟨hl, hls⟩ := List.forall_mem_cons.mp hls
            refine ⟨(b :: l) :: ls, rest, List.forall_mem_cons.mpr ⟨?_, hls⟩, hrest, rfl⟩
            exact hl.append (l := [b]) (by simp [Ne.symm hb])

/-- A line is complete, or it is the last one. -/
theorem complete_or_last (h : line ∈ fgetsLines file) :
    Complete line ∨ (fgetsLines file).getLast? = some line ∧ 10 ∉ line ∧ line ≠ [] := by
  obtain ⟨ls, rest, hls, hrest, rfl⟩ := exists_lines file
  rw [fgetsLines_append hls hrest] at h ⊢
  by_cases hnil : rest = []
  · rw [if_pos hnil, List.append_nil] at h
    exact Or.inl (hls line h)
  · rw [if_neg hnil] at h ⊢
    rcases List.mem_append.mp h with h | h
    · exact Or.inl (hls line h)
    · obtain rfl := List.mem_singleton.mp h
      exact Or.inr ⟨List.getLast?_concat, hrest, hnil⟩

/-- A line with another behind it is complete. -/
theorem complete_of_lines {before after : List (List Byte)}
    (h : fgetsLines file = before ++ line :: after) (hafter : after ≠ []) : Complete line := by
  obtain ⟨ls, rest, hls, hrest, rfl⟩ := exists_lines file
  rw [fgetsLines_append hls hrest] at h
  have hmem : line ∈ (before ++ line :: after).dropLast := by
    rw [List.dropLast_append_of_ne_nil (List.cons_ne_nil _ _), List.dropLast_cons_of_ne_nil hafter]
    exact List.mem_append_right _ List.mem_cons_self
  rw [← h] at hmem
  split at hmem
  · rw [List.append_nil] at hmem
    exact hls line (List.dropLast_subset _ hmem)
  · rw [List.dropLast_concat] at hmem
    exact hls line hmem

theorem mem_of_mem_fgetsLines (h : line ∈ fgetsLines file) {b : Byte} (hb : b ∈ line) :
    b ∈ file := by
  obtain ⟨ls, rest, hls, hrest, rfl⟩ := exists_lines file
  rw [fgetsLines_append hls hrest] at h
  rcases List.mem_append.mp h with h | h
  · exact List.mem_append_left _ (List.mem_flatten.mpr ⟨line, h, hb⟩)
  · split at h
    · cases h
    · obtain rfl := List.mem_singleton.mp h
      exact List.mem_append_right _ hb

theorem fgetsLines_ne_nil (h : line ∈ fgetsLines file) : line ≠ [] := by
  rcases complete_or_last h with hline | ⟨-, -, hne⟩
  · exact List.ne_nil_of_mem hline.mem
  · exact hne

/-- The lines of lines that are written back to back. -/
theorem fgetsLines_concat {ls : List (List Byte)} (hls : ∀ l ∈ ls, Complete l)
    (hline : Complete line ∨ 10 ∉ line ∧ line ≠ []) :
    fgetsLines (ls ++ [line]).flatten = ls ++ [line] := by
  rcases hline with hline | ⟨hnew, hne⟩
  · have hall : ∀ l ∈ ls ++ [line], Complete l := fun l hl =>
      (List.mem_append.mp hl).elim (hls l) fun hl => List.mem_singleton.mp hl ▸ hline
    have hlines := @fgetsLines_append _ hall [] List.not_mem_nil
    rwa [List.append_nil, if_pos rfl, List.append_nil] at hlines
  · have hlines := fgetsLines_append hls hnew
    rw [if_neg hne] at hlines
    rwa [List.flatten_append, List.flatten_singleton]

/-- A complete line is got before what follows it. -/
theorem head?_fgetsLines (hline : Complete line) {rest : List Byte} :
    (fgetsLines (line ++ rest)).head? = some line := by
  obtain ⟨ls, last, hls, hlast, rfl⟩ := exists_lines rest
  have hall : ∀ l ∈ line :: ls, Complete l := List.forall_mem_cons.mpr ⟨hline, hls⟩
  have hlines := fgetsLines_append hall hlast
  rw [List.flatten_cons, List.append_assoc] at hlines
  rw [hlines]
  rfl

theorem complete_lineText (hl : Legible l.1) : Complete (lineText l) :=
  ⟨header l.1 ++ l.2.text, rfl, fun h => (hl.body_bytes l.2 10 h).2 rfl⟩

/-- The lines entries write. -/
theorem fgetsLines_textOf (hls : ∀ l ∈ ls, Legible l.1) :
    fgetsLines (textOf ls) = ls.map lineText := by
  have hall : ∀ line ∈ ls.map lineText, Complete line := by
    intro line hline
    obtain ⟨l, hl, rfl⟩ := List.mem_map.mp hline
    exact complete_lineText (hls l hl)
  have hlines := @fgetsLines_append _ hall [] List.not_mem_nil
  rwa [List.append_nil, if_pos rfl, List.append_nil, ← List.flatMap_def] at hlines

/-! ## What `compact` keeps

The map of `compact` over lines whose patterns and offsets are known.
-/

/-- The last live line of each pattern, after those in `m`. -/
def survivors : List FileLine → OrdMap Str FileLine → OrdMap Str FileLine
  | [], m => m
  | l :: ls, m =>
      if l.2.readPos = unwatchedPosition then survivors ls m
      else survivors ls (m.insert l.1.pathPattern l)

/-- The lines `compact` leaves. -/
def kept (ls : List FileLine) : List FileLine := (survivors ls OrdMap.empty).entries.map Prod.snd

/-- The live lines of a pattern. -/
def liveLines (pathPattern : Str) (ls : List FileLine) : List FileLine :=
  ls.filter fun l => l.1.pathPattern = pathPattern ∧ l.2.readPos ≠ unwatchedPosition

theorem mem_liveLines {p : Str} :
    l ∈ liveLines p ls ↔ l ∈ ls ∧ l.1.pathPattern = p ∧ l.2.readPos ≠ unwatchedPosition := by
  simp [liveLines]

theorem find?_survivors (p : Str) (ls : List FileLine) :
    ∀ m : OrdMap Str FileLine,
      (survivors ls m).find? p = (liveLines p ls).getLast?.or (m.find? p) := by
  induction ls with
  | nil => exact fun _ => rfl
  | cons l ls ih =>
      intro m
      simp only [survivors]
      split
      · next hdead => rw [ih, liveLines, liveLines, List.filter_cons_of_neg (by simp [hdead])]
      · next hlive =>
          rw [ih, OrdMap.find?_insert]
          by_cases hp : l.1.pathPattern = p
          · rw [if_pos hp.symm, liveLines, liveLines, List.filter_cons_of_pos (by simp [hp, hlive]),
              List.getLast?_cons]
            cases (List.filter _ ls).getLast? <;> rfl
          · rw [if_neg (Ne.symm hp), liveLines, liveLines, List.filter_cons_of_neg (by simp [hp])]

theorem mem_kept : l ∈ kept ls ↔ (liveLines l.1.pathPattern ls).getLast? = some l := by
  have hfind : ∀ p, (survivors ls OrdMap.empty).find? p = (liveLines p ls).getLast? := by
    intro p
    rw [find?_survivors, OrdMap.find?_empty, Option.or_none]
  constructor
  · intro h
    obtain ⟨⟨p, l'⟩, hl, rfl⟩ := List.mem_map.mp h
    have hl := (hfind p).symm.trans (OrdMap.mem_entries.mp hl)
    obtain ⟨-, rfl, -⟩ := mem_liveLines.mp (List.mem_of_getLast? hl)
    exact hl
  · intro h
    exact List.mem_map.mpr ⟨(_, l), OrdMap.mem_entries.mpr ((hfind _).trans h), rfl⟩

/-- What is kept was there, and is live. -/
theorem live_of_mem_kept (h : l ∈ kept ls) : l ∈ ls ∧ l.2.readPos ≠ unwatchedPosition := by
  obtain ⟨hmem, -, hlive⟩ := mem_liveLines.mp (List.mem_of_getLast? (mem_kept.mp h))
  exact ⟨hmem, hlive⟩

/-- The only line of a pattern is kept if it is live. -/
theorem mem_kept_of_unique (hmem : l ∈ ls) (hlive : l.2.readPos ≠ unwatchedPosition)
    (hunique : ∀ l' ∈ ls, l'.1.pathPattern = l.1.pathPattern → l' = l) : l ∈ kept ls := by
  have hin : l ∈ liveLines l.1.pathPattern ls := mem_liveLines.mpr ⟨hmem, rfl, hlive⟩
  rw [mem_kept]
  cases hlast : (liveLines l.1.pathPattern ls).getLast? with
  | none =>
      rw [List.getLast?_eq_none_iff.mp hlast] at hin
      cases hin
  | some l' =>
      obtain ⟨hmem', hp, -⟩ := mem_liveLines.mp (List.mem_of_getLast? hlast)
      rw [hunique l' hmem' hp]

/-- What is written behind the pattern. -/
def restOf (pathPattern : Str) (l : FileLine) : List Byte :=
  (lineText l).drop pathPattern.length

theorem existentEntries_textOf (hls : ∀ l ∈ ls, Legible l.1) :
    ∀ m : OrdMap Str FileLine,
      existentEntries (ls.map lineText) (m.mapWithKey restOf)
        = (survivors ls m).mapWithKey restOf := by
  induction ls with
  | nil => exact fun _ => rfl
  | cons l ls ih =>
      intro m
      have hl := hls l List.mem_cons_self
      have hrest := ih fun l' hl' => hls l' (List.mem_cons_of_mem _ hl')
      simp only [List.map_cons, existentEntries, cString_lineText hl, if_neg (lineText_ne_nil l),
        parseLine_lineText hl, survivors]
      split
      · exact hrest m
      · rw [← hrest, OrdMap.mapWithKey_insert]
        rfl

/-- What `compact` gives to `fwrite`, call after call. -/
def entryTexts (file : List Byte) : List (List Byte) :=
  (existentEntries (fgetsLines file) OrdMap.empty).entries.map fun e => e.1 ++ e.2

theorem compact_eq_flatten (file : List Byte) : compact file = (entryTexts file).flatten :=
  List.flatMap_def

/-- The lines that are kept stand under their patterns. -/
theorem pattern_survivors {p : Str} (h : (p, l) ∈ (survivors ls OrdMap.empty).entries) :
    l.1.pathPattern = p := by
  have hfind := (find?_survivors p ls OrdMap.empty).symm.trans (OrdMap.mem_entries.mp h)
  rw [OrdMap.find?_empty, Option.or_none] at hfind
  exact (mem_liveLines.mp (List.mem_of_getLast? hfind)).2.1

/-- They are in the order of their patterns, one of each. -/
theorem kept_sorted (ls : List FileLine) :
    (kept ls).Pairwise fun l l' => l.1.pathPattern < l'.1.pathPattern := by
  refine List.pairwise_map.mpr ((survivors ls OrdMap.empty).sorted.imp_of_mem fun he he' hlt => ?_)
  rwa [pattern_survivors he, pattern_survivors he']

theorem entryTexts_textOf (hls : ∀ l ∈ ls, Legible l.1) :
    entryTexts (textOf ls) = (kept ls).map lineText := by
  have hentries : existentEntries (ls.map lineText) OrdMap.empty
      = (survivors ls OrdMap.empty).mapWithKey restOf := existentEntries_textOf hls OrdMap.empty
  rw [entryTexts, fgetsLines_textOf hls, hentries, kept, List.map_map]
  show List.map _ (List.map _ _) = _
  rw [List.map_map]
  refine List.map_congr_left fun e he => ?_
  obtain ⟨p, l⟩ := e
  obtain rfl := pattern_survivors he
  show l.1.pathPattern ++ (lineText l).drop l.1.pathPattern.length = _
  simp [lineText, lineOf, header]

theorem compact_textOf (hls : ∀ l ∈ ls, Legible l.1) : compact (textOf ls) = textOf (kept ls) := by
  rw [compact_eq_flatten, entryTexts_textOf hls, ← List.flatMap_def]
  rfl

/-! ## Where `parse` finds the entries

The place of a line is counted, from the length of those in front of it.
-/

/-- The entries of the lines, each at the place of its slot. -/
structure Placed (ls : List FileLine) (m : OrdMap PositionEntryKey FilePositionEntry) : Prop where
  place : ∀ key pe, m.find? key = some pe →
    ∃ i s, ls[i]? = some (key, s) ∧ pe.seek = offsetOf ls i + (header key).length
  mem : ∀ l ∈ ls, ∃ pe, m.find? l.1 = some pe

theorem placed_append {m : OrdMap PositionEntryKey FilePositionEntry} (hm : Placed ls m)
    (l : FileLine) :
    Placed (ls ++ [l]) (m.insert l.1 ⟨(textOf ls).length + (header l.1).length⟩) where
  place key pe h := by
    rcases OrdMap.find?_insert_eq_some.mp h with ⟨rfl, rfl⟩ | ⟨-, h⟩
    · refine ⟨ls.length, l.2, List.getElem?_concat_length, ?_⟩
      rw [offsetOf, Records.offset_append (Nat.le_refl _), Records.offset_length]
    · obtain ⟨i, s, hi, hseek⟩ := hm.place key pe h
      have hlt := (List.getElem?_eq_some_iff.mp hi).1
      refine ⟨i, s, (List.getElem?_append_left hlt).trans hi, ?_⟩
      rw [offsetOf, Records.offset_append (Nat.le_of_lt hlt)]
      exact hseek
  mem l' hl' := by
    rw [OrdMap.find?_insert]
    split
    · exact ⟨_, rfl⟩
    · next hne =>
        rcases List.mem_append.mp hl' with hl' | hl'
        · exact hm.mem l' hl'
        · exact absurd (congrArg Prod.fst (List.mem_singleton.mp hl')) hne

theorem parseEntries_textOf {done : List FileLine} (hls : ∀ l ∈ ls, Legible l.1) :
    ∀ {m : OrdMap PositionEntryKey FilePositionEntry}, Placed done m →
      ∃ m', parseEntries file (textOf done).length (ls.map lineText) m
          = ⟨file, (textOf (done ++ ls)).length, m'⟩ ∧ Placed (done ++ ls) m' := by
  induction ls generalizing done with
  | nil =>
      intro m hm
      rw [List.append_nil]
      exact ⟨m, rfl, hm⟩
  | cons l ls ih =>
      intro m hm
      have hl := hls l List.mem_cons_self
      obtain ⟨m', hparse, hm'⟩ := ih (fun l' hl' => hls l' (List.mem_cons_of_mem _ hl'))
        (placed_append hm l)
      have htell : (textOf (done ++ [l])).length
          = (textOf done).length + (lineText l).length := by
        simp [textOf]
      have hseek : (textOf done).length + (lineText l).length - (lineText l).length
            + l.1.pathPattern.length + 1 + l.1.path.length + 1
          = (textOf done).length + (header l.1).length := by
        simp only [header, List.length_append, List.length_singleton]
        omega
      refine ⟨m', ?_, by simpa using hm'⟩
      rw [List.append_assoc, htell] at hparse
      simp only [List.map_cons, parseEntries, cString_lineText hl, if_neg (lineText_ne_nil l),
        parseLine_lineText hl, hseek]
      exact hparse

/-- What `parse` makes of the lines entries write. -/
theorem parse_textOf (hls : ∀ l ∈ ls, Legible l.1) :
    ∃ m, parse (textOf ls) = ⟨textOf (kept ls), (textOf (kept ls)).length, m⟩ ∧
      Placed (kept ls) m := by
  have hkept : ∀ l ∈ kept ls, Legible l.1 := fun l hl => hls l (live_of_mem_kept hl).1
  rw [parse, compact_textOf hls, fgetsLines_textOf hkept]
  have hnone : Placed [] (OrdMap.empty : OrdMap PositionEntryKey FilePositionEntry) :=
    ⟨fun _ _ h => (by cases h), fun _ h => (by cases h)⟩
  exact parseEntries_textOf hkept hnone

/-! ## What `parse` takes from any file

Nothing is assumed of the file here.
-/

/-- A newline is the last byte of its line. -/
theorem body_of_mem_fgetsLines (h : line ∈ fgetsLines file) :
    ∃ body, (line = body ∨ ∃ b, line = body ++ [b]) ∧ ∀ b ∈ body, b ≠ 10 := by
  rcases complete_or_last h with ⟨body, hline, hbody⟩ | ⟨-, hnew, -⟩
  · exact ⟨body, Or.inr ⟨10, hline⟩, fun b hb heq => hbody (heq ▸ hb)⟩
  · exact ⟨line, Or.inl rfl, fun b hb heq => hnew (heq ▸ hb)⟩

theorem legible_of_parseLine {line : List Byte} {e : ParsedLine} (hline : line ∈ fgetsLines file)
    (h : parseLine (cString line) = some e) : Legible e.key := by
  obtain ⟨posStr, inodeStr, tail, hstr, hplain, -, ⟨hinode, -⟩, -⟩ := parseLine_sound h
  obtain ⟨body, hbody, hnewline⟩ := body_of_mem_fgetsLines hline
  have hzero : ∀ b ∈ cString line, b ≠ 0 := fun b hb => by
    simpa using List.mem_takeWhile_imp hb
  -- the number behind the key is not empty, so the key is in front of the last byte
  have hkey : ∀ b ∈ header e.key, b ≠ 0 ∧ b ≠ 10 := by
    intro b hb
    refine ⟨hzero b (by rw [hstr]; simp [hb]), hnewline b ?_⟩
    have hpre : cString line <+: line := List.takeWhile_prefix _
    have hin : header e.key ++ (posStr ++ [9]) <+: body := by
      rcases hbody with rfl | ⟨x, rfl⟩
      · exact (List.prefix_append _ (inodeStr ++ tail)).trans (by simpa [hstr] using hpre)
      · refine List.prefix_of_prefix_length_le ?_ (List.prefix_append body [x]) ?_
        · exact (List.prefix_append _ (inodeStr ++ tail)).trans (by simpa [hstr] using hpre)
        · have hlen := hpre.length_le
          have hpos := List.length_pos_of_ne_nil hinode
          rw [hstr] at hlen
          simp only [List.length_append, List.length_singleton] at hlen ⊢
          omega
    exact hin.subset (List.mem_append_left _ hb)
  have hname : ∀ b, b ∈ e.key.pathPattern ∨ b ∈ e.key.path → b ≠ 0 ∧ b ≠ 10 := by
    intro b hb
    refine hkey b ?_
    rcases hb with hb | hb <;> simp [header, hb]
  exact ⟨hplain, fun h => (hname 0 (Or.inl h)).1 rfl, fun h => (hname 10 (Or.inl h)).2 rfl,
    fun h => (hname 0 (Or.inr h)).1 rfl, fun h => (hname 10 (Or.inr h)).2 rfl⟩

theorem legible_parseEntries {lines : List (List Byte)} (hlines : ∀ l ∈ lines, l ∈ fgetsLines file)
    {file' : List Byte} :
    ∀ {tell : ℕ} {m : OrdMap PositionEntryKey FilePositionEntry},
      (∀ key pe, m.find? key = some pe → Legible key) →
        ∀ key pe, (parseEntries file' tell lines m).peMap.find? key = some pe → Legible key := by
  induction lines with
  | nil => exact fun hm => hm
  | cons line lines ih =>
      intro tell m hm
      have hrest := fun l hl => hlines l (List.mem_cons_of_mem _ hl)
      simp only [parseEntries]
      split
      · exact hm
      · split
        · exact ih hrest hm
        · next e he =>
            refine ih hrest fun key pe h => ?_
            rcases OrdMap.find?_insert_eq_some.mp h with ⟨rfl, -⟩ | ⟨-, h⟩
            · exact legible_of_parseLine (hlines line List.mem_cons_self) he
            · exact hm key pe h

theorem legible_parse (file : List Byte) :
    ∀ key pe, (parse file).peMap.find? key = some pe → Legible key :=
  @legible_parseEntries (compact file) _ (fun _ hl => hl) _ _ _ fun _ _ h => (by cases h)

end Logkafka.PositionFile
