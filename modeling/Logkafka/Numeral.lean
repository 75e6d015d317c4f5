/-
# `Logkafka.Numeral` — positional numerals of fixed width

A `Numeral` is an alphabet of digits with their values: `digit` is what a
printer writes, `value?` what a reader accepts, and a reader may accept more
than the printer writes (upper and lower case, say).

    fixed w n     `n` in `w` digits, the leading ones cut off
    value xs      the number a list of digits denotes

The round trip is `value_fixed`: printing in `w` digits keeps a number modulo
`base ^ w`, and so keeps it when it is below (`value_fixed_of_lt`).
-/
import Mathlib.Data.List.Induction
import Mathlib.Data.Nat.Basic
import Mathlib.Tactic.Common
import Mathlib.Tactic.Ring

namespace Logkafka

variable {α : Type*}

structure Numeral (α : Type*) where
  base : ℕ
  digit : ℕ → α
  value? : α → Option ℕ
  value?_digit : ∀ d < base, value? (digit d) = some d
  base_pos : 0 < base

namespace Numeral

variable (N : Numeral α)

def isDigit (a : α) : Bool := (N.value? a).isSome

/-- The number a list of digits denotes. -/
def value (xs : List α) : ℕ :=
  xs.foldl (fun n a => n * N.base + (N.value? a).getD 0) 0

/-- `n` in `w` digits. -/
def fixed : ℕ → ℕ → List α
  | 0, _ => []
  | w + 1, n => fixed w (n / N.base) ++ [N.digit (n % N.base)]

@[simp] theorem value_nil : N.value [] = 0 := rfl

theorem value_append_singleton (xs : List α) (a : α) :
    N.value (xs ++ [a]) = N.value xs * N.base + (N.value? a).getD 0 := by
  simp [value]

/-- A number in two pieces. -/
theorem value_append (xs ys : List α) :
    N.value (xs ++ ys) = N.value xs * N.base ^ ys.length + N.value ys := by
  induction ys using List.reverseRecOn with
  | nil => simp
  | append_singleton ys a ih =>
      rw [← List.append_assoc, value_append_singleton, ih, value_append_singleton,
        List.length_append, List.length_singleton, Nat.pow_succ]
      ring

/-- A number has no more than its digits allow. -/
theorem value_lt (hlt : ∀ a, (N.value? a).getD 0 < N.base) (xs : List α) :
    N.value xs < N.base ^ xs.length := by
  induction xs using List.reverseRecOn with
  | nil => exact Nat.one_pos
  | append_singleton xs a ih =>
      have hmul : (N.value xs + 1) * N.base ≤ N.base ^ xs.length * N.base :=
        Nat.mul_le_mul_right _ ih
      have ha := hlt a
      rw [value_append_singleton, List.length_append, List.length_singleton, Nat.pow_succ]
      rw [Nat.add_mul, Nat.one_mul] at hmul
      omega

@[simp] theorem length_fixed (w n : ℕ) : (N.fixed w n).length = w := by
  induction w generalizing n with
  | zero => rfl
  | succ w ih => simp [fixed, ih]

theorem isDigit_digit {d : ℕ} (h : d < N.base) : N.isDigit (N.digit d) = true := by
  rw [isDigit, N.value?_digit d h]
  rfl

theorem isDigit_of_mem_fixed {w n : ℕ} {a : α} (h : a ∈ N.fixed w n) : N.isDigit a = true := by
  induction w generalizing n with
  | zero => simp [fixed] at h
  | succ w ih =>
      rcases List.mem_append.mp h with h | h
      · exact ih h
      · obtain rfl := List.mem_singleton.mp h
        exact N.isDigit_digit (Nat.mod_lt _ N.base_pos)

/-- What `w` digits keep of a number. -/
theorem value_fixed (w n : ℕ) : N.value (N.fixed w n) = n % N.base ^ w := by
  induction w generalizing n with
  | zero => simp [fixed, Nat.mod_one]
  | succ w ih =>
      have hlast : N.value? (N.digit (n % N.base)) = some (n % N.base) :=
        N.value?_digit _ (Nat.mod_lt _ N.base_pos)
      rw [fixed, value_append_singleton, ih, hlast]
      show n / N.base % N.base ^ w * N.base + n % N.base = n % N.base ^ (w + 1)
      rw [Nat.pow_succ', Nat.mod_mul, Nat.mul_comm]
      exact Nat.add_comm _ _

theorem value_fixed_of_lt {w n : ℕ} (h : n < N.base ^ w) : N.value (N.fixed w n) = n := by
  rw [value_fixed, Nat.mod_eq_of_lt h]

end Numeral

end Logkafka
