/-
# `Logkafka.Splice` — reading and overwriting in place

A random-access file is the list of its elements.  `overwrite` writes a block
at an offset: what stood there is replaced, a block that reaches past the end
makes the file longer, and a gap before it is filled.  `readAt` reads a block,
if the file has it.

The rules are about a file given as `pre ++ old ++ suf`: writing a block of
`old`'s length at the end of `pre` changes `old` and nothing else
(`overwrite_mid`), and reading there gives `old` (`readAt_mid`).
-/
import Mathlib.Data.List.Basic
import Mathlib.Tactic.Common

namespace Logkafka

variable {α : Type*}

/-- `bs` written at offset `k`; a gap is filled with `z`. -/
def overwrite (z : α) (xs : List α) (k : ℕ) (bs : List α) : List α :=
  xs.take k ++ List.replicate (k - xs.length) z ++ bs ++ xs.drop (k + bs.length)

/-- The `n` elements from offset `k`, if there are that many. -/
def readAt (xs : List α) (k n : ℕ) : Option (List α) :=
  if k + n ≤ xs.length then some ((xs.drop k).take n) else none

theorem overwrite_mid (z : α) {pre old suf bs : List α} {k : ℕ} (hk : k = pre.length)
    (hlen : bs.length = old.length) :
    overwrite z (pre ++ old ++ suf) k bs = pre ++ bs ++ suf := by
  subst hk
  have htake : (pre ++ old ++ suf).take pre.length = pre := by
    rw [List.append_assoc, List.take_left]
  have hdrop : (pre ++ old ++ suf).drop (pre.length + bs.length) = suf := by
    rw [hlen, ← List.length_append, List.drop_left]
  have hgap : pre.length - (pre ++ old ++ suf).length = 0 := by
    simp only [List.length_append]
    omega
  rw [overwrite, htake, hdrop, hgap]
  simp

theorem overwrite_end (z : α) (xs bs : List α) : overwrite z xs xs.length bs = xs ++ bs := by
  rw [overwrite, List.take_length, Nat.sub_self, List.drop_eq_nil_of_le (Nat.le_add_right _ _)]
  simp

/-- Before the block and behind it the file stays as it is. -/
theorem getElem?_overwrite_of_not (z : α) {xs bs : List α} {k i : ℕ} (hk : k ≤ xs.length)
    (hi : i < k ∨ k + bs.length ≤ i) : (overwrite z xs k bs)[i]? = xs[i]? := by
  have hlen : (xs.take k).length = k := by
    rw [List.length_take, Nat.min_eq_left hk]
  rw [overwrite, Nat.sub_eq_zero_of_le hk, List.replicate_zero, List.append_nil]
  rcases hi with hi | hi
  · rw [List.append_assoc, List.getElem?_append_left (by omega), List.getElem?_take_of_lt hi]
  · have hsum : k + bs.length + (i - (k + bs.length)) = i := by omega
    rw [List.getElem?_append_right (by rw [List.length_append]; omega), List.length_append, hlen,
      List.getElem?_drop, hsum]

/-- In the block there is what was written. -/
theorem getElem?_overwrite (z : α) {xs bs : List α} {k i : ℕ} (hk : k ≤ xs.length)
    (hi : i < bs.length) : (overwrite z xs k bs)[k + i]? = bs[i]? := by
  have hlen : (xs.take k).length = k := by
    rw [List.length_take, Nat.min_eq_left hk]
  rw [overwrite, Nat.sub_eq_zero_of_le hk, List.replicate_zero, List.append_nil,
    List.getElem?_append_left (by rw [List.length_append]; omega),
    List.getElem?_append_right (by omega), hlen, Nat.add_sub_cancel_left]

theorem length_overwrite (z : α) {xs bs : List α} {k : ℕ} (hk : k + bs.length ≤ xs.length) :
    (overwrite z xs k bs).length = xs.length := by
  rw [overwrite, Nat.sub_eq_zero_of_le (by omega), List.replicate_zero, List.append_nil]
  simp only [List.length_append, List.length_take, List.length_drop]
  omega

/-- What is outside the block stays. -/
theorem getElem?_mid {pre mid mid' suf : List α} (hlen : mid'.length = mid.length) {k : ℕ}
    (hk : k < pre.length ∨ pre.length + mid.length ≤ k) :
    (pre ++ mid' ++ suf)[k]? = (pre ++ mid ++ suf)[k]? := by
  rcases hk with hk | hk
  · rw [List.append_assoc, List.append_assoc, List.getElem?_append_left hk,
      List.getElem?_append_left hk]
  · have hlen' : (pre ++ mid').length = (pre ++ mid).length := by
      rw [List.length_append, List.length_append, hlen]
    have hle : (pre ++ mid).length ≤ k := by rwa [List.length_append]
    rw [List.getElem?_append_right (Nat.le_trans (Nat.le_of_eq hlen') hle),
      List.getElem?_append_right hle, hlen']

theorem readAt_mid {pre mid suf : List α} {k n : ℕ} (hk : k = pre.length) (hn : n = mid.length) :
    readAt (pre ++ mid ++ suf) k n = some mid := by
  subst hk hn
  have hle : pre.length + mid.length ≤ (pre ++ mid ++ suf).length := by
    simp only [List.length_append]
    omega
  rw [readAt, if_pos hle, List.append_assoc, List.drop_left, List.take_left]

end Logkafka
