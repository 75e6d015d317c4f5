/-
# `Logkafka.Position.Line` — the lines of the position file

A line of the position file is a key and a slot:

    path_pattern TAB path TAB 16 digits TAB 8 digits LF

`parseLine` (position_file.cc) reads one with the regular expression

    ^([^\t]+)\t([^\t]+)\t([0-9a-fA-F]+)\t([0-9a-fA-F]+)$

No class of it matches a tab, so a match is found from left to right without
going back; `$` also matches before a final newline.  `parseLine_sound` and
`parseLine_complete` say what the accepted lines are.  An entry's own line is
one of them if its key is `Plain`, whatever the slot holds, and decodes to what
the entry reads.
-/
import Logkafka.Position.Entry
import Mathlib.Data.List.Lex
import Mathlib.Data.Prod.Lex

namespace Logkafka

/-- `PositionEntryKey`; both strings come from C. -/
structure PositionEntryKey where
  pathPattern : Str
  path : Str
deriving DecidableEq

/-- `operator<`: by the pattern, then by the path. -/
instance : LinearOrder PositionEntryKey :=
  LinearOrder.lift' (fun k => toLex (k.pathPattern, k.path)) fun a b h => by
    cases a
    cases b
    cases h
    rfl

/-- What `parseLine` decodes of a line. -/
structure ParsedLine where
  key : PositionEntryKey
  pos : OffT
  inode : InoT
deriving DecidableEq

namespace PositionFile

/-- `UNWATCHED_POSITION` -/
def unwatchedPosition : OffT := -1

/-- `([^\t]+)\t` -/
def matchName (s : List Byte) : Option (List Byte × List Byte) :=
  match s.takeWhile (· ≠ 9), s.dropWhile (· ≠ 9) with
  | b :: name, _ :: rest => some (b :: name, rest)
  | _, _ => none

/-- `([0-9a-fA-F]+)` -/
def matchHex (s : List Byte) : Option (List Byte × List Byte) :=
  match s.takeWhile hex.isDigit with
  | [] => none
  | d :: ds => some (d :: ds, s.dropWhile hex.isDigit)

/-- `\t` -/
def matchTab : List Byte → Option (List Byte)
  | 9 :: rest => some rest
  | _ => none

/-- `parseLine`; `none` where it returns `false`. -/
def parseLine (line : List Byte) : Option ParsedLine := do
  let (pathPattern, s) ← matchName line
  let (path, s) ← matchName s
  let (posStr, s) ← matchHex s
  let s ← matchTab s
  let (inodeStr, s) ← matchHex s
  if s = [] ∨ s = [10] then
    some ⟨⟨pathPattern, path⟩, hexstr2num posStr (-1), (hexstr2num inodeStr 0).toUInt64⟩
  else none

/-- What stands before an entry's slot. -/
def header (key : PositionEntryKey) : List Byte := key.pathPattern ++ [9] ++ key.path ++ [9]

/-- The line of an entry. -/
def lineOf (key : PositionEntryKey) (s : Slot) : List Byte := header key ++ s.text ++ [10]

/-- A key whose line can be read back. -/
structure Plain (key : PositionEntryKey) : Prop where
  pathPattern_ne : key.pathPattern ≠ []
  pathPattern_tab : 9 ∉ key.pathPattern
  path_ne : key.path ≠ []
  path_tab : 9 ∉ key.path

instance (key : PositionEntryKey) : Decidable (Plain key) :=
  decidable_of_iff (key.pathPattern ≠ [] ∧ 9 ∉ key.pathPattern ∧ key.path ≠ [] ∧ 9 ∉ key.path)
    ⟨fun ⟨h1, h2, h3, h4⟩ => ⟨h1, h2, h3, h4⟩, fun ⟨h1, h2, h3, h4⟩ => ⟨h1, h2, h3, h4⟩⟩

/-! ## What the pieces match -/

theorem takeWhile_append_stop {p : Byte → Bool} {xs : List Byte} {y : Byte} (rest : List Byte)
    (hxs : ∀ x ∈ xs, p x = true) (hy : p y = false) :
    (xs ++ y :: rest).takeWhile p = xs ∧ (xs ++ y :: rest).dropWhile p = y :: rest := by
  constructor
  · rw [List.takeWhile_append_of_pos hxs, List.takeWhile_cons_of_neg (by simp [hy])]
    exact List.append_nil xs
  · rw [List.dropWhile_append_of_pos hxs, List.dropWhile_cons_of_neg (by simp [hy])]

theorem matchName_eq_some {s name rest : List Byte} :
    matchName s = some (name, rest) ↔ s = name ++ 9 :: rest ∧ name ≠ [] ∧ 9 ∉ name := by
  constructor
  · intro h
    unfold matchName at h
    split at h
    · next b xs y ys htake hdrop =>
        obtain ⟨rfl, rfl⟩ := Prod.mk.inj (Option.some.inj h)
        have hs := List.takeWhile_append_dropWhile (p := fun x => decide (x ≠ 9)) (l := s)
        have hy : y = 9 := by
          have hhead := List.head?_dropWhile_not (fun x => decide (x ≠ 9)) s
          rw [hdrop] at hhead
          simpa using hhead
        have hname : (9 : Byte) ∉ b :: xs := by
          intro hmem
          rw [← htake] at hmem
          simpa using List.mem_takeWhile_imp hmem
        rw [htake, hdrop, hy] at hs
        exact ⟨hs.symm, List.cons_ne_nil _ _, hname⟩
    · cases h
  · rintro ⟨rfl, hne, htab⟩
    have hxs : ∀ x ∈ name, decide (x ≠ 9) = true := by
      intro x hx
      simp only [ne_eq, decide_eq_true_eq]
      rintro rfl
      exact htab hx
    obtain ⟨ht, hd⟩ := takeWhile_append_stop (y := 9) rest hxs (by simp)
    unfold matchName
    rw [ht, hd]
    cases name with
    | nil => exact absurd rfl hne
    | cons b name => rfl

theorem matchHex_sound {s digits rest : List Byte} (h : matchHex s = some (digits, rest)) :
    s = digits ++ rest ∧ digits ≠ [] ∧ ∀ b ∈ digits, hex.isDigit b = true := by
  unfold matchHex at h
  split at h
  · cases h
  · next d ds htake =>
      obtain ⟨rfl, rfl⟩ := Prod.mk.inj (Option.some.inj h)
      have hs := List.takeWhile_append_dropWhile (p := hex.isDigit) (l := s)
      rw [htake] at hs
      refine ⟨hs.symm, List.cons_ne_nil _ _, fun b hb => ?_⟩
      rw [← htake] at hb
      exact List.mem_takeWhile_imp hb

theorem matchHex_complete {digits rest : List Byte} {b : Byte} (hne : digits ≠ [])
    (hdigits : ∀ x ∈ digits, hex.isDigit x = true) (hb : hex.isDigit b = false) :
    matchHex (digits ++ b :: rest) = some (digits, b :: rest) := by
  obtain ⟨ht, hd⟩ := takeWhile_append_stop rest hdigits hb
  unfold matchHex
  rw [ht, hd]
  cases digits with
  | nil => exact absurd rfl hne
  | cons d ds => rfl

theorem matchHex_all {digits : List Byte} (hne : digits ≠ [])
    (hdigits : ∀ x ∈ digits, hex.isDigit x = true) : matchHex digits = some (digits, []) := by
  unfold matchHex
  rw [List.takeWhile_eq_self_iff.mpr hdigits, List.dropWhile_eq_nil_iff.mpr hdigits]
  cases digits with
  | nil => exact absurd rfl hne
  | cons d ds => rfl

theorem matchTab_sound {s rest : List Byte} (h : matchTab s = some rest) : s = 9 :: rest := by
  unfold matchTab at h
  split at h
  · rw [Option.some.inj h]
  · cases h

/-! ## The lines accepted -/

/-- An accepted line is made of two names and two numbers. -/
theorem parseLine_sound {line : List Byte} {e : ParsedLine} (h : parseLine line = some e) :
    ∃ posStr inodeStr tail, line = header e.key ++ posStr ++ [9] ++ inodeStr ++ tail ∧
      Plain e.key ∧
      (posStr ≠ [] ∧ ∀ b ∈ posStr, hex.isDigit b = true) ∧
      (inodeStr ≠ [] ∧ ∀ b ∈ inodeStr, hex.isDigit b = true) ∧
      (tail = [] ∨ tail = [10]) ∧
      e.pos = hexstr2num posStr (-1) ∧ e.inode = (hexstr2num inodeStr 0).toUInt64 := by
  unfold parseLine at h
  simp only [Option.bind_eq_bind, Option.bind_eq_some_iff, Prod.exists] at h
  obtain ⟨pattern, s1, hpattern, path, s2, hpath, posStr, s3, hpos, s4, htab, inodeStr, s5, hino,
    h⟩ := h
  split at h
  · next htail =>
      obtain rfl := Option.some.inj h
      obtain ⟨rfl, hp1, hp2⟩ := matchName_eq_some.mp hpattern
      obtain ⟨rfl, hq1, hq2⟩ := matchName_eq_some.mp hpath
      obtain ⟨rfl, hposne, hposd⟩ := matchHex_sound hpos
      obtain rfl := matchTab_sound htab
      obtain ⟨rfl, hinone, hinod⟩ := matchHex_sound hino
      refine ⟨posStr, inodeStr, s5, ?_, ⟨hp1, hp2, hq1, hq2⟩, ⟨hposne, hposd⟩,
        ⟨hinone, hinod⟩, htail, rfl, rfl⟩
      simp [header]
  · cases h

/-- And what is made so is accepted. -/
theorem parseLine_complete {key : PositionEntryKey} {posStr inodeStr tail : List Byte}
    (hk : Plain key) (hposne : posStr ≠ []) (hpos : ∀ b ∈ posStr, hex.isDigit b = true)
    (hinone : inodeStr ≠ []) (hino : ∀ b ∈ inodeStr, hex.isDigit b = true)
    (htail : tail = [] ∨ tail = [10]) :
    parseLine (header key ++ posStr ++ [9] ++ inodeStr ++ tail)
      = some ⟨key, hexstr2num posStr (-1), (hexstr2num inodeStr 0).toUInt64⟩ := by
  have hline : header key ++ posStr ++ [9] ++ inodeStr ++ tail
      = key.pathPattern ++ 9 :: (key.path ++ 9 :: (posStr ++ 9 :: (inodeStr ++ tail))) := by
    simp [header]
  have hend : matchHex (inodeStr ++ tail) = some (inodeStr, tail) := by
    rcases htail with rfl | rfl
    · rw [List.append_nil]
      exact matchHex_all hinone hino
    · exact matchHex_complete hinone hino (by decide)
  unfold parseLine
  rw [hline, matchName_eq_some.mpr ⟨rfl, hk.pathPattern_ne, hk.pathPattern_tab⟩]
  simp only [Option.bind_eq_bind, Option.bind_some]
  rw [matchName_eq_some.mpr ⟨rfl, hk.path_ne, hk.path_tab⟩]
  simp only [Option.bind_some]
  rw [matchHex_complete hposne hpos (by decide)]
  simp only [Option.bind_some, matchTab]
  rw [hend]
  simp only [Option.bind_some, if_pos htail]

theorem parseLine_lineOf {key : PositionEntryKey} (hk : Plain key) (s : Slot) :
    parseLine (lineOf key s) = some ⟨key, s.readPos, s.readInode⟩ := by
  have hposne : FilePositionEntry.posText s.pos ≠ [] :=
    List.ne_nil_of_length_pos (by simp [FilePositionEntry.posText])
  have hinone : FilePositionEntry.inodeText s.inode ≠ [] :=
    List.ne_nil_of_length_pos (by simp [FilePositionEntry.inodeText])
  have hline : lineOf key s = header key ++ FilePositionEntry.posText s.pos ++ [9]
      ++ FilePositionEntry.inodeText s.inode ++ [10] := by
    simp [lineOf, Slot.text]
  rw [hline, parseLine_complete hk hposne (Slot.isDigit_posText _) hinone
    (Slot.isDigit_inodeText _) (Or.inr rfl), s.hexstr2num_posText, s.hexstr2num_inodeText]

theorem count_tab_digits {ds : List Byte} (hds : ∀ b ∈ ds, hex.isDigit b = true) :
    ds.count 9 = 0 := by
  refine List.count_eq_zero.mpr fun hmem => ?_
  exact (hex_digit_ne (hds 9 hmem)).2.2.2.2.1 rfl

/-- An accepted line has three tabs. -/
theorem count_tab_of_parseLine {line : List Byte} {e : ParsedLine} (h : parseLine line = some e) :
    line.count 9 = 3 := by
  obtain ⟨posStr, inodeStr, tail, rfl, hk, ⟨-, hpos⟩, ⟨-, hino⟩, htail, -⟩ := parseLine_sound h
  have htailcount : tail.count 9 = 0 := by
    rcases htail with rfl | rfl <;> decide
  simp only [header, List.count_append, count_tab_digits hpos, count_tab_digits hino, htailcount,
    List.count_eq_zero.mpr hk.pathPattern_tab, List.count_eq_zero.mpr hk.path_tab,
    List.count_singleton_self]

end PositionFile

end Logkafka
