/-
# `Logkafka.FilterRegex` — the lines that a filter drops

`FilterRegex::filter` hands each line to `pcre2_match` as a C string, with room
for 20 pairs in the match data, and erases the line when the return code is
positive.

    search s = some k    the first match in `s`; `k` is its highest set group
    pcre2Match s n       the return code, with room for `n` pairs

A match whose groups do not fit has the code 0, and a text ends at its first
zero byte: a line is erased when its text has a match that fits (`Dropped`).
-/
import Logkafka.Output

namespace Logkafka

/-- `pcre2_code`, as far as `pcre2_match` tells. -/
structure Pcre2Code where
  search : Str → Option ℕ
  pcre2Match : Str → ℕ → ℤ
  match_fits : ∀ {s k n}, search s = some k → k < n → pcre2Match s n = k + 1
  match_exceeds : ∀ {s k n}, search s = some k → n ≤ k → pcre2Match s n = 0
  no_match : ∀ {s n}, search s = none → pcre2Match s n < 0

namespace FilterRegex

/-- `pcre2_match_data_create(20, NULL)` -/
def matchData : ℕ := 20

/-- The loop of `FilterRegex::filter`, at the line behind `before`.  `erase`
leaves the iterator where it is, which is at the next line then. -/
def eraseMatches (re : Pcre2Code) : List Str → List Str → List Str
  | before, [] => before
  | before, line :: after =>
      if 0 < re.pcre2Match (cstr line) matchData then eraseMatches re before after
      else eraseMatches re (before ++ [line]) after

/-- `FilterRegex::filter`: what it returns, and the lines after it. -/
def filter : Option Pcre2Code → List Str → Bool × List Str
  | none, lines => (false, lines)
  | some re, lines => (true, eraseMatches re [] lines)

end FilterRegex

/-- `Manager::receiveLines`: what it returns, and `unsent_lines`.  What the filter
returns is not looked at. -/
def Manager.receiveLines (filter : Option Pcre2Code) (output : Option (List Str → Bool × List Str))
    (lines : List Str) : Bool × List Str :=
  match output with
  | none => (false, [])
  | some output =>
      let validLines := if filter.isSome then (FilterRegex.filter filter lines).2 else lines
      if validLines = [] then (true, []) else output validLines

namespace FilterRegex

variable {re : Pcre2Code} {line : Str} {lines : List Str}

/-- The text of the line has a match, and its groups fit the match data. -/
def Dropped (re : Pcre2Code) (line : Str) : Prop := ∃ k < matchData, re.search (cstr line) = some k

instance : DecidablePred (Dropped re) := fun line =>
  decidable_of_iff (∃ k ∈ re.search (cstr line), k < matchData) <| by
    simp only [Dropped, Option.mem_def]
    exact exists_congr fun _ => and_comm

theorem match_pos_iff : 0 < re.pcre2Match (cstr line) matchData ↔ Dropped re line := by
  cases hsearch : re.search (cstr line) with
  | none =>
      have hneg := re.no_match hsearch (n := matchData)
      exact iff_of_false hneg.not_gt fun ⟨k, _, hk⟩ => by simp [hsearch] at hk
  | some k =>
      rcases lt_or_ge k matchData with hfits | hexceeds
      · refine iff_of_true ?_ ⟨k, hfits, hsearch⟩
        rw [re.match_fits hsearch hfits]
        omega
      · refine iff_of_false ?_ fun ⟨j, hj, hk⟩ => ?_
        · rw [re.match_exceeds hsearch hexceeds]
          exact lt_irrefl 0
        · obtain rfl : k = j := Option.some.inj (hsearch.symm.trans hk)
          exact absurd hj hexceeds.not_gt

theorem eraseMatches_eq (re : Pcre2Code) (lines : List Str) :
    ∀ before, eraseMatches re before lines = before ++ lines.filter (¬ Dropped re ·) := by
  induction lines with
  | nil => simp [eraseMatches]
  | cons line lines ih =>
      intro before
      by_cases hdropped : Dropped re line
      · rw [eraseMatches, if_pos (match_pos_iff.mpr hdropped), ih]
        simp [hdropped]
      · rw [eraseMatches, if_neg (match_pos_iff.not.mpr hdropped), ih]
        simp [hdropped]

/-- What the filter leaves. -/
theorem filter_eq (re : Pcre2Code) (lines : List Str) :
    filter (some re) lines = (true, lines.filter (¬ Dropped re ·)) := by
  rw [filter, eraseMatches_eq, List.nil_append]

/-- Lines that come back unsent are filtered again, and none is lost by that. -/
theorem filter_filter (re : Pcre2Code) (lines : List Str) :
    filter (some re) (filter (some re) lines).2 = filter (some re) lines := by
  simp [filter_eq]

/-- No match anywhere in the line, the zero bytes and what is behind them included. -/
def Clean (re : Pcre2Code) (line : Str) : Prop := re.search line = none

instance : DecidablePred (Clean re) := fun _ => inferInstanceAs (Decidable (_ = none))

theorem filter_eq_filter_iff {α : Type*} {p q : α → Bool} {xs : List α} :
    xs.filter p = xs.filter q ↔ ∀ x ∈ xs, p x = q x := by
  refine ⟨fun h x hx => ?_, List.filter_congr⟩
  have hmem : x ∈ xs.filter p ↔ x ∈ xs.filter q := by rw [h]
  rw [List.mem_filter, List.mem_filter, and_iff_right hx, and_iff_right hx] at hmem
  exact Bool.eq_iff_iff.mpr hmem

/-- **When the filter drops exactly the lines that match.**  For any pattern and
any lines: if and only if, in each of them, there is a match in the whole line
just when there is one in its text, and then one with less than 20 groups. -/
theorem filter_exact_iff (re : Pcre2Code) (lines : List Str) :
    filter (some re) lines = (true, lines.filter (Clean re ·)) ↔
      ∀ line ∈ lines, (re.search line).isSome ↔ ∃ k < 20, re.search (cstr line) = some k := by
  rw [filter_eq, Prod.mk.injEq, eq_self, true_and, filter_eq_filter_iff]
  refine forall₂_congr fun line _ => ?_
  rw [Bool.eq_iff_iff, decide_eq_true_iff, decide_eq_true_iff, Clean, ← Option.not_isSome_iff_eq_none,
    not_iff_not]
  exact ⟨Iff.symm, Iff.symm⟩

end FilterRegex

/-- A pattern that matches where `p` holds, and sets its group `k` there. -/
def Pcre2Code.ofPred (p : Str → Bool) (k : ℕ) : Pcre2Code where
  search s := if p s then some k else none
  pcre2Match s n := if p s then (if k < n then k + 1 else 0) else -1
  match_fits {s} _ _ h hlt := by
    cases hp : p s <;> simp_all
  match_exceeds {s} _ _ h hle := by
    cases hp : p s <;> simp_all
  no_match {s} _ h := by
    cases hp : p s <;> simp_all

/-- The pattern "b" leaves the line "a", zero, "b"; twenty empty groups, which
match everywhere, leave every line. -/
theorem FilterRegex.filter_exact_fails :
    filter (some (.ofPred (98 ∈ ·) 0)) [[97, 0, 98]] = (true, [[97, 0, 98]]) ∧
      ¬ filter (some (.ofPred (98 ∈ ·) 0)) [[97, 0, 98]] =
        (true, [[97, 0, 98]].filter (Clean (.ofPred (98 ∈ ·) 0) ·)) ∧
      filter (some (.ofPred (fun _ => true) 20)) [[97]] = (true, [[97]]) ∧
      ¬ filter (some (.ofPred (fun _ => true) 20)) [[97]] =
        (true, [[97]].filter (Clean (.ofPred (fun _ => true) 20) ·)) := by
  decide +kernel

end Logkafka
