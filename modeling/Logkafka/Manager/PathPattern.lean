/-
# `Logkafka.Manager.PathPattern` — from a path pattern to a glob expression

`getPathPatternGlobed` replaces each run of conversions of the time format
(`%` and a letter or `+`) by one `*`, a run a turn, until there is no `%` left:

    globTurn s     the string after one turn, or `none` where the loop is left
    pieces s       the literal characters and the conversions of a pattern
    toGlob s       the pattern with each run of conversions as a `*`

A turn takes the first `%` of the string, and leaves the string as it is if
that is not the `%` of a conversion.  So the loop comes to an end just for the
patterns in which every `%` begins a conversion (`loopEnds_iff`), and then with
`toGlob` (`globLoop_eq_some`).
-/
import Logkafka.Ends
import Logkafka.Glob
import Logkafka.OrdMap
import Logkafka.TaskConf

namespace Logkafka

/-- `isTimeFormatConversionSpecifier`: all of `[a-zA-Z+]`. -/
def isTimeFormatConversionSpecifier (c : Byte) : Bool :=
  (97 ≤ c && c ≤ 122) || (65 ≤ c && c ≤ 90) || c = 43

namespace PathPattern

/-- The inner loop, which skips conversions: what begins at `i`. -/
def skipConversions : Str → Str
  | [] => []
  | [c] => [c]
  | cp :: cn :: rest =>
      if cp = 37 && isTimeFormatConversionSpecifier cn then skipConversions rest
      else cp :: cn :: rest

/-- One turn of the outer loop. -/
def globTurn (s : Str) : Option Str :=
  if 37 ∈ s then
    let found := s.dropWhile (· ≠ 37)
    let rest := skipConversions found
    some (if rest = found then s else s.takeWhile (· ≠ 37) ++ 42 :: rest)
  else none

/-- The loop comes to its `break`. -/
def LoopEnds : Str → Prop :=
  Ends (fun _ : Unit => globTurn) (fun _ => True) fun s => globTurn s = none

/-- Every `%` is directly followed by a conversion specifier. -/
def convertible : Str → Bool
  | [] => true
  | c :: rest =>
      (c ≠ 37 || rest.head?.any isTimeFormatConversionSpecifier) && convertible rest

/-! ## A turn of the loop

A turn that finds a conversion makes the string shorter in what is to be done,
and one that finds none leaves it as it is for ever.
-/

theorem length_skipConversions_le (s : Str) : (skipConversions s).length ≤ s.length := by
  induction s using skipConversions.induct with
  | case1 => exact Nat.le_refl _
  | case2 c => exact Nat.le_refl _
  | case3 cp cn rest h ih =>
      rw [skipConversions, if_pos h, List.length_cons, List.length_cons]
      omega
  | case4 cp cn rest h => rw [skipConversions, if_neg h]

theorem specifier_ne_percent {c : Byte} (h : isTimeFormatConversionSpecifier c = true) :
    c ≠ 37 := by
  rintro rfl
  revert h
  decide

theorem convertible_skipConversions (s : Str) :
    convertible (skipConversions s) = convertible s := by
  induction s using skipConversions.induct with
  | case1 => rfl
  | case2 c => rfl
  | case3 cp cn rest h ih =>
      rw [skipConversions, if_pos h, ih]
      simp only [Bool.and_eq_true, decide_eq_true_eq] at h
      simp [convertible, h.2, specifier_ne_percent h.2]
  | case4 cp cn rest h => rw [skipConversions, if_neg h]

theorem convertible_append {before : Str} (h : 37 ∉ before) (rest : Str) :
    convertible (before ++ rest) = convertible rest := by
  induction before with
  | nil => rfl
  | cons c before ih =>
      obtain ⟨hc, hbefore⟩ := not_or.mp (mt List.mem_cons.mpr h)
      rw [List.cons_append, convertible, ih hbefore]
      simp [Ne.symm hc]

/-- The string around its first `%`. -/
theorem split_at_percent {s : Str} (h : 37 ∈ s) : ∃ rest,
    s.dropWhile (· ≠ 37) = 37 :: rest ∧ s = s.takeWhile (· ≠ 37) ++ 37 :: rest ∧
      37 ∉ s.takeWhile (· ≠ 37) := by
  have hne : s.dropWhile (· ≠ 37) ≠ [] := by
    rw [Ne, List.dropWhile_eq_nil_iff]
    intro hall
    simpa using hall 37 h
  obtain ⟨c, rest, hdrop⟩ := List.exists_cons_of_ne_nil hne
  have hhead : (s.dropWhile (· ≠ 37)).head? = some c := by rw [hdrop]; rfl
  have hc : c = 37 := by
    have := List.head?_dropWhile_not (· ≠ 37) s
    rw [hhead] at this
    simpa using this
  subst hc
  refine ⟨rest, hdrop, ?_, fun hmem => ?_⟩
  · rw [← hdrop, List.takeWhile_append_dropWhile]
  · simpa using List.mem_takeWhile_imp hmem

theorem globTurn_eq_none {s : Str} : globTurn s = none ↔ 37 ∉ s := by
  unfold globTurn
  split <;> simp_all

/-- What a turn does: the conversions at the first `%`, if it begins one. -/
theorem globTurn_cases {s t : Str} (h : globTurn s = some t) : ∃ before rest,
    37 ∉ before ∧ s = before ++ 37 :: rest ∧
      (skipConversions (37 :: rest) = 37 :: rest ∧ t = s ∨
        skipConversions (37 :: rest) ≠ 37 :: rest ∧
          t = before ++ 42 :: skipConversions (37 :: rest)) := by
  unfold globTurn at h
  split at h
  · next hmem =>
      obtain ⟨rest, hdrop, hsplit, hbefore⟩ := split_at_percent hmem
      refine ⟨s.takeWhile (· ≠ 37), rest, hbefore, hsplit, ?_⟩
      simp only [hdrop, Option.some.injEq] at h
      by_cases hskip : skipConversions (37 :: rest) = 37 :: rest
      · rw [if_pos hskip] at h
        exact Or.inl ⟨hskip, h.symm⟩
      · rw [if_neg hskip] at h
        exact Or.inr ⟨hskip, h.symm⟩
  · cases h

theorem convertible_globTurn {s t : Str} (h : globTurn s = some t) :
    convertible t = convertible s := by
  obtain ⟨before, rest, hbefore, rfl, ⟨-, rfl⟩ | ⟨-, rfl⟩⟩ := globTurn_cases h
  · rfl
  · rw [convertible_append hbefore, convertible_append hbefore,
      ← convertible_skipConversions (37 :: rest)]
    simp [convertible]

/-- The first `%` of a convertible string begins a conversion. -/
theorem length_skipConversions_lt {rest : Str} (h : convertible (37 :: rest) = true) :
    (skipConversions (37 :: rest)).length < rest.length := by
  cases rest with
  | nil => simp [convertible] at h
  | cons cn rest =>
      have hcn : isTimeFormatConversionSpecifier cn = true := by
        simp only [convertible, Bool.and_eq_true] at h
        simpa using h.1
      rw [skipConversions, if_pos (by simpa using hcn), List.length_cons]
      exact Nat.lt_succ_of_le (length_skipConversions_le rest)

theorem globTurn_lt {s t : Str} (hs : convertible s = true) (h : globTurn s = some t) :
    t.length < s.length := by
  obtain ⟨before, rest, hbefore, rfl, hturn⟩ := globTurn_cases h
  rw [convertible_append hbefore] at hs
  have hlt := length_skipConversions_lt hs
  rcases hturn with ⟨hskip, -⟩ | ⟨-, rfl⟩
  · rw [hskip, List.length_cons] at hlt
    omega
  · simp only [List.length_append, List.length_cons]
    omega

theorem convertible_of_no_percent {s : Str} (h : 37 ∉ s) : convertible s = true := by
  have hconv := convertible_append h []
  rwa [List.append_nil] at hconv

theorem convertible_of_loopEnds {pathPattern : Str} (h : LoopEnds pathPattern) :
    convertible pathPattern = true := by
  by_contra hnot
  -- a turn keeps a `%` that begins no conversion
  refine not_ends_of_trap (I := fun s => convertible s = false) (fun s hs => ?_)
    (by simpa using hnot) h
  cases hturn : globTurn s with
  | none =>
      rw [convertible_of_no_percent (globTurn_eq_none.mp hturn)] at hs
      cases hs
  | some t => exact ⟨by simp, (), t, trivial, rfl, (convertible_globTurn hturn).trans hs⟩

theorem loopEnds_of_convertible {pathPattern : Str} (h : convertible pathPattern = true) :
    LoopEnds pathPattern := by
  refine ends_of_measure (I := fun s => convertible s = true) List.length
    (fun s _ hs => ?_) (fun _ s t hs _ _ h => ?_) pathPattern h
  · obtain ⟨t, ht⟩ := Option.ne_none_iff_exists'.mp hs
    exact ⟨(), t, trivial, ht⟩
  · exact Or.inr ⟨(convertible_globTurn h).trans hs, globTurn_lt hs h⟩

/-- **Whether `getPathPatternGlobed` comes to an end.**  Its loop does, for a
path pattern, if and only if every `%` of the pattern is directly followed by a
letter or a `+`. -/
theorem loopEnds_iff (pathPattern : Str) :
    LoopEnds pathPattern ↔ convertible pathPattern = true :=
  ⟨convertible_of_loopEnds, loopEnds_of_convertible⟩

/-- The pattern "/a%%" is legal, and the loop does not end. -/
theorem loopEnds_fails :
    ∃ conf : LogConf, conf.logPath = ascii "/a%%" ∧ conf.isLegal = true ∧
      ¬ LoopEnds conf.logPath := by
  refine ⟨⟨ascii "/a%%", true, 200, true, 10, true⟩, rfl, by decide, fun h => ?_⟩
  exact absurd (convertible_of_loopEnds h) (by decide)

/-! ## What the loop ends with

The same string in one pass over the pattern, which is what later modules use.
-/

/-- The string after the loop, if it is left within `turns` turns. -/
def globLoop : ℕ → Str → Option Str
  | 0, s => if globTurn s = none then some s else none
  | turns + 1, s =>
      match globTurn s with
      | none => some s
      | some t => globLoop turns t

inductive Piece
  | literal (c : Byte)
  | conversion (c : Byte)
deriving DecidableEq

def pieces : Str → List Piece
  | [] => []
  | [c] => [.literal c]
  | cp :: cn :: rest =>
      if cp = 37 && isTimeFormatConversionSpecifier cn then .conversion cn :: pieces rest
      else .literal cp :: pieces (cn :: rest)

/-- The expression of some pieces; `inRun` says that a conversion is before them. -/
def starred (inRun : Bool) : List Piece → Str
  | [] => []
  | .literal c :: ps => c :: starred false ps
  | .conversion _ :: ps => if inRun then starred true ps else 42 :: starred true ps

/-- The pattern with each run of conversions as a `*`. -/
def toGlob (pathPattern : Str) : Str := starred false (pieces pathPattern)

theorem pieces_literal {c : Byte} (hc : c ≠ 37) (s : Str) :
    pieces (c :: s) = .literal c :: pieces s := by
  cases s with
  | nil => rfl
  | cons d s => rw [pieces, if_neg (by simp [hc])]

theorem pieces_conversion {c : Byte} (hc : isTimeFormatConversionSpecifier c = true) (s : Str) :
    pieces (37 :: c :: s) = .conversion c :: pieces s := by
  rw [pieces, if_pos (by simpa using hc)]

theorem pieces_append {before : Str} (h : 37 ∉ before) (s : Str) :
    pieces (before ++ s) = before.map Piece.literal ++ pieces s := by
  induction before with
  | nil => rfl
  | cons c before ih =>
      obtain ⟨hc, hbefore⟩ := not_or.mp (mt List.mem_cons.mpr h)
      rw [List.cons_append, pieces_literal (Ne.symm hc), ih hbefore]
      rfl

theorem starred_literals (before : Str) (ps : List Piece) :
    starred false (before.map Piece.literal ++ ps) = before ++ starred false ps := by
  induction before with
  | nil => rfl
  | cons c before ih => exact congrArg (c :: ·) ih

theorem toGlob_append {before : Str} (h : 37 ∉ before) (s : Str) :
    toGlob (before ++ s) = before ++ toGlob s := by
  rw [toGlob, pieces_append h, starred_literals]
  rfl

theorem toGlob_of_no_percent {s : Str} (h : 37 ∉ s) : toGlob s = s := by
  have happ := toGlob_append h []
  rwa [List.append_nil, show toGlob [] = [] from rfl, List.append_nil] at happ

/-- The inner loop goes to the end of the run. -/
theorem starred_skipConversions (s : Str) :
    starred true (pieces s) = toGlob (skipConversions s) := by
  induction s using skipConversions.induct with
  | case1 => rfl
  | case2 c => rfl
  | case3 cp cn rest h ih =>
      rw [skipConversions, if_pos h, pieces, if_pos h]
      exact ih
  | case4 cp cn rest h =>
      rw [skipConversions, if_neg h, toGlob, pieces, if_neg h]
      rfl

/-- A turn leaves what the loop ends with. -/
theorem toGlob_globTurn {s t : Str} (h : globTurn s = some t) : toGlob t = toGlob s := by
  obtain ⟨before, rest, hbefore, rfl, ⟨-, rfl⟩ | ⟨hskip, rfl⟩⟩ := globTurn_cases h
  · rfl
  · rw [toGlob_append hbefore, toGlob_append hbefore]
    congr 1
    cases rest with
    | nil => exact absurd rfl hskip
    | cons cn rest =>
        by_cases hcn : isTimeFormatConversionSpecifier cn = true
        · have hskips : skipConversions (37 :: cn :: rest) = skipConversions rest := by
            rw [skipConversions, if_pos (by simpa using hcn)]
          rw [hskips, toGlob, toGlob, pieces_literal (by decide), pieces_conversion hcn]
          exact congrArg (42 :: ·) (starred_skipConversions rest).symm
        · exact absurd (by rw [skipConversions, if_neg (by simpa using hcn)]) hskip

/-- The loop is left with a string that is its own expression. -/
theorem toGlob_of_left {s : Str} (h : globTurn s = none) :
    convertible s = true ∧ s = toGlob s :=
  ⟨convertible_of_no_percent (globTurn_eq_none.mp h),
    (toGlob_of_no_percent (globTurn_eq_none.mp h)).symm⟩

/-- **What the loop ends with**, if it ends. -/
theorem globLoop_eq_some {turns : ℕ} {s expr : Str} (h : globLoop turns s = some expr) :
    convertible s = true ∧ expr = toGlob s := by
  induction turns generalizing s with
  | zero =>
      rw [globLoop] at h
      split at h
      · next hnone =>
          obtain rfl := Option.some.inj h
          exact toGlob_of_left hnone
      · cases h
  | succ turns ih =>
      rw [globLoop] at h
      split at h
      · next hnone =>
          obtain rfl := Option.some.inj h
          exact toGlob_of_left hnone
      · next t ht =>
          obtain ⟨hconv, hexpr⟩ := ih h
          rw [← convertible_globTurn ht, hexpr, toGlob_globTurn ht]
          exact ⟨hconv, rfl⟩

variable {c : Byte}

/-- A character that is in no conversion. -/
def Apart (c : Byte) : Prop := c ≠ 37 ∧ isTimeFormatConversionSpecifier c = false

end PathPattern

end Logkafka
