/-
# `Logkafka.Records` — a file of records, and where they stand

A file of records is the concatenation of their encodings; record `i` stands
at `offset i`, behind the ones before it.  Replacing a record by one of the
same length moves no record (`offset_set`), appending moves none
(`offset_append`), and two records do not overlap (`offset_add_le`).

`text_getElem?` splits the file at a record: what it reads and what a write
into it changes are then facts about `pre ++ mid ++ suf` (`Splice`).
-/
import Mathlib.Data.List.Basic
import Mathlib.Tactic.Common

namespace Logkafka.Records

variable {ρ α : Type*} (enc : ρ → List α)

def text (rs : List ρ) : List α := rs.flatMap enc

/-- Where record `i` begins. -/
def offset (rs : List ρ) (i : ℕ) : ℕ := (text enc (rs.take i)).length

variable {enc} {rs : List ρ} {r r' : ρ} {i j : ℕ}

@[simp] theorem text_nil : text enc [] = [] := rfl

@[simp] theorem text_cons (r : ρ) (rs : List ρ) : text enc (r :: rs) = enc r ++ text enc rs :=
  List.flatMap_cons

@[simp] theorem text_append (rs rs' : List ρ) :
    text enc (rs ++ rs') = text enc rs ++ text enc rs' :=
  List.flatMap_append

theorem offset_length (rs : List ρ) : offset enc rs rs.length = (text enc rs).length := by
  rw [offset, List.take_length]

/-- The file around a record. -/
theorem text_getElem? (h : rs[i]? = some r) :
    text enc rs = text enc (rs.take i) ++ enc r ++ text enc (rs.drop (i + 1)) := by
  obtain ⟨hi, rfl⟩ := List.getElem?_eq_some_iff.mp h
  have hsplit : rs = rs.take i ++ rs[i] :: rs.drop (i + 1) := by simp
  calc text enc rs = text enc (rs.take i ++ rs[i] :: rs.drop (i + 1)) := congrArg _ hsplit
    _ = text enc (rs.take i) ++ enc rs[i] ++ text enc (rs.drop (i + 1)) := by
        rw [text_append, text_cons, List.append_assoc]

/-- The file after a record is replaced. -/
theorem text_set (h : rs[i]? = some r) (r' : ρ) :
    text enc (rs.set i r') = text enc (rs.take i) ++ enc r' ++ text enc (rs.drop (i + 1)) := by
  obtain ⟨hi, -⟩ := List.getElem?_eq_some_iff.mp h
  rw [List.set_eq_take_append_cons_drop, if_pos hi]
  simp

theorem length_text_set (h : rs[i]? = some r) (hlen : (enc r').length = (enc r).length) :
    (text enc (rs.set i r')).length = (text enc rs).length := by
  rw [text_set h, text_getElem? h]
  simp only [List.length_append, hlen]

/-- Replacing a record by one as long moves no record. -/
theorem offset_set (h : rs[i]? = some r) (hlen : (enc r').length = (enc r).length) (j : ℕ) :
    offset enc (rs.set i r') j = offset enc rs j := by
  simp only [offset, List.take_set]
  rcases Nat.lt_or_ge i j with hlt | hge
  · exact length_text_set ((List.getElem?_take_of_lt hlt).trans h) hlen
  · rw [List.set_eq_of_length_le (Nat.le_trans (List.length_take_le _ _) hge)]

theorem offset_append (hi : i ≤ rs.length) (rs' : List ρ) :
    offset enc (rs ++ rs') i = offset enc rs i := by
  rw [offset, List.take_append_of_le_length hi, offset]

/-- A record ends before the next one begins. -/
theorem offset_add_le (h : rs[i]? = some r) (hij : i < j) :
    offset enc rs i + (enc r).length ≤ offset enc rs j := by
  have hr : (rs.take j)[i]? = some r := (List.getElem?_take_of_lt hij).trans h
  have htake : (rs.take j).take i = rs.take i := by
    rw [List.take_take, Nat.min_eq_left (Nat.le_of_lt hij)]
  simp only [offset, text_getElem? hr, htake, List.length_append]
  omega

end Logkafka.Records
