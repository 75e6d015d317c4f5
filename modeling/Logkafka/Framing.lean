/-
# `Logkafka.Framing` — cutting a stream into frames, in one pass

A stream is cut after every terminator, and after `limit` elements since the
last cut.  `cuts` is the one-pass splitter: it carries the elements since the
last cut and returns the frames in order with what is left over.

The facts a chunked reader needs are about composition.  Reading a stream in
two pieces is cutting the first and then cutting the second after the
remainder of the first (`cuts_append`); a remainder may be kept and scanned
again from its head, because scanning it cuts nothing (`Uncut`,
`cuts_append_of_uncut`); and what was cut can be forgotten, because the frames
alone are cut at the same places (`cuts_flatten_frames`).
-/
import Mathlib.Data.List.Induction
import Mathlib.Tactic.Common

namespace Logkafka.Framing

variable {α : Type*} (isEnd : α → Bool) (limit : ℕ)

/-- The one-pass splitter: `cur` is what was read since the last cut. -/
def cuts : List α → List α → List (List α) × List α
  | cur, [] => ([], cur)
  | cur, x :: xs =>
      if isEnd x ∨ limit ≤ cur.length + 1 then
        ((cur ++ [x]) :: (cuts [] xs).1, (cuts [] xs).2)
      else
        cuts (cur ++ [x]) xs

/-- Scanning `cur` from its head cuts nothing. -/
def Uncut (cur : List α) : Prop := cuts isEnd limit [] cur = ([], cur)

variable {isEnd limit}

@[simp] theorem cuts_nil (cur : List α) : cuts isEnd limit cur [] = ([], cur) := rfl

theorem cuts_cons_end {cur : List α} {x : α} (h : isEnd x ∨ limit ≤ cur.length + 1)
    (xs : List α) :
    cuts isEnd limit cur (x :: xs)
      = ((cur ++ [x]) :: (cuts isEnd limit [] xs).1, (cuts isEnd limit [] xs).2) := by
  rw [cuts, if_pos h]

theorem cuts_cons_mid {cur : List α} {x : α} (h : ¬ (isEnd x ∨ limit ≤ cur.length + 1))
    (xs : List α) :
    cuts isEnd limit cur (x :: xs) = cuts isEnd limit (cur ++ [x]) xs := by
  rw [cuts, if_neg h]

/-- Nothing is lost, repeated or moved: the frames and the remainder are the
stream. -/
theorem flatten_cuts (cur xs : List α) :
    (cuts isEnd limit cur xs).1.flatten ++ (cuts isEnd limit cur xs).2 = cur ++ xs := by
  induction xs generalizing cur with
  | nil => simp
  | cons x xs ih =>
      by_cases h : isEnd x ∨ limit ≤ cur.length + 1
      · have hx := ih []
        rw [cuts_cons_end h]
        simp only [List.flatten_cons, List.append_assoc, List.nil_append] at hx ⊢
        rw [hx]
        simp
      · rw [cuts_cons_mid h, ih]
        simp

/-- Two pieces are cut one after the other. -/
theorem cuts_append (cur xs ys : List α) :
    cuts isEnd limit cur (xs ++ ys)
      = ((cuts isEnd limit cur xs).1
            ++ (cuts isEnd limit (cuts isEnd limit cur xs).2 ys).1,
         (cuts isEnd limit (cuts isEnd limit cur xs).2 ys).2) := by
  induction xs generalizing cur with
  | nil => rfl
  | cons x xs ih =>
      rw [List.cons_append]
      by_cases h : isEnd x ∨ limit ≤ cur.length + 1
      · rw [cuts_cons_end h, cuts_cons_end h, ih]
        rfl
      · rw [cuts_cons_mid h, cuts_cons_mid h, ih]

/-! ## Remainders

What is left over is kept and scanned again with what comes after it, which
cuts it nowhere: it has no terminator and is short of the limit.
-/

theorem uncut_nil : Uncut isEnd limit ([] : List α) := rfl

/-- A remainder may be scanned again together with what follows it. -/
theorem cuts_append_of_uncut {cur : List α} (h : Uncut isEnd limit cur) (xs : List α) :
    cuts isEnd limit [] (cur ++ xs) = cuts isEnd limit cur xs := by
  rw [cuts_append, h]
  rfl

theorem uncut_append_singleton {cur : List α} {x : α} (hc : Uncut isEnd limit cur)
    (h : ¬ (isEnd x ∨ limit ≤ cur.length + 1)) : Uncut isEnd limit (cur ++ [x]) := by
  rw [Uncut, cuts_append_of_uncut hc, cuts_cons_mid h]
  rfl

/-- The frames alone are cut at the same places, with nothing left over. -/
theorem cuts_flatten_frames {cur : List α} (hc : Uncut isEnd limit cur) (xs : List α) :
    cuts isEnd limit [] (cuts isEnd limit cur xs).1.flatten
      = ((cuts isEnd limit cur xs).1, []) := by
  induction xs generalizing cur with
  | nil => rfl
  | cons x xs ih =>
      by_cases h : isEnd x ∨ limit ≤ cur.length + 1
      · rw [cuts_cons_end h]
        simp only [List.flatten_cons, List.append_assoc, List.singleton_append]
        rw [cuts_append_of_uncut hc, cuts_cons_end h, ih uncut_nil]
      · rw [cuts_cons_mid h]
        exact ih (uncut_append_singleton hc h)

/-- A remainder holds no terminator and is shorter than the limit. -/
theorem uncut_spec {cur : List α} (h : Uncut isEnd limit cur) :
    (∀ x ∈ cur, isEnd x = false) ∧ (cur = [] ∨ cur.length < limit) := by
  -- the longest prefixes decide: induct on the remainder from its end
  induction cur using List.reverseRecOn with
  | nil => simp
  | append_singleton cur x ih =>
      have hcat : (cuts isEnd limit [] cur).1.flatten ++ (cuts isEnd limit [] cur).2 = [] ++ cur :=
        flatten_cuts [] cur
      rw [Uncut, cuts_append] at h
      obtain ⟨h1, h2⟩ := Prod.ext_iff.mp h
      obtain ⟨h3, h4⟩ := List.append_eq_nil_iff.mp h1
      have hcur : (cuts isEnd limit [] cur).2 = cur := by simpa [h3] using hcat
      have hu : Uncut isEnd limit cur := Prod.ext h3 hcur
      rw [hcur] at h4
      by_cases hx : isEnd x ∨ limit ≤ cur.length + 1
      · rw [cuts_cons_end hx] at h4
        exact absurd h4 (List.cons_ne_nil _ _)
      · simp only [not_or, Bool.not_eq_true, Nat.not_le] at hx
        refine ⟨fun y hy => ?_, Or.inr (by simpa using hx.2)⟩
        rcases List.mem_append.mp hy with hy | hy
        · exact (ih hu).1 y hy
        · obtain rfl : y = x := by simpa using hy
          exact hx.1

/-- A remainder leaves room: it is shorter than any bound the limit respects. -/
theorem Uncut.length_lt {cur : List α} (h : Uncut isEnd limit cur) {room : ℕ}
    (h1 : 1 ≤ limit) (h2 : limit ≤ room) : cur.length < room := by
  rcases (uncut_spec h).2 with rfl | h
  · simpa using Nat.lt_of_lt_of_le h1 h2
  · exact Nat.lt_of_lt_of_le h h2

/-! ## Frames -/

/-- No frame is longer than the limit. -/
theorem length_le_of_mem_cuts (hlimit : 1 ≤ limit) (xs : List α) :
    ∀ cur : List α, cur = [] ∨ cur.length < limit →
      ∀ fr ∈ (cuts isEnd limit cur xs).1, fr.length ≤ limit := by
  induction xs with
  | nil =>
      intro cur _ fr hfr
      cases hfr
  | cons x xs ih =>
      intro cur hcur fr hfr
      have hlen : cur.length < limit := by
        rcases hcur with rfl | hcur
        · exact hlimit
        · exact hcur
      by_cases hend : isEnd x ∨ limit ≤ cur.length + 1
      · rw [cuts_cons_end hend] at hfr
        rcases List.mem_cons.mp hfr with rfl | hfr
        · rw [List.length_append, List.length_singleton]
          omega
        · exact ih [] (Or.inl rfl) fr hfr
      · rw [cuts_cons_mid hend] at hfr
        refine ih (cur ++ [x]) (Or.inr ?_) fr hfr
        rw [List.length_append, List.length_singleton]
        omega

/-- What a frame is: a remainder, and the element it is cut at. -/
theorem mem_cuts_cases (xs : List α) :
    ∀ cur : List α, Uncut isEnd limit cur → ∀ fr ∈ (cuts isEnd limit cur xs).1,
      ∃ w x, fr = w ++ [x] ∧ Uncut isEnd limit w ∧ (isEnd x ∨ limit ≤ w.length + 1) := by
  induction xs with
  | nil =>
      intro cur _ fr hfr
      cases hfr
  | cons x xs ih =>
      intro cur hcur fr hfr
      by_cases hend : isEnd x ∨ limit ≤ cur.length + 1
      · rw [cuts_cons_end hend] at hfr
        rcases List.mem_cons.mp hfr with rfl | hfr
        · exact ⟨cur, x, rfl, hcur, hend⟩
        · exact ih [] uncut_nil fr hfr
      · rw [cuts_cons_mid hend] at hfr
        exact ih (cur ++ [x]) (uncut_append_singleton hcur hend) fr hfr

/-- Up to a terminator that is within the limit. -/
theorem cuts_terminated {x : α} (hx : isEnd x = true) (ys : List α) :
    ∀ xs cur : List α, (∀ y ∈ xs, isEnd y = false) → cur.length + xs.length < limit →
      cuts isEnd limit cur (xs ++ x :: ys)
        = ((cur ++ xs ++ [x]) :: (cuts isEnd limit [] ys).1, (cuts isEnd limit [] ys).2) := by
  intro xs
  induction xs with
  | nil =>
      intro cur _ _
      rw [List.nil_append, cuts_cons_end (Or.inl hx), List.append_nil]
  | cons y xs ih =>
      intro cur hxs hlen
      rw [List.length_cons] at hlen
      have hmid : ¬ (isEnd y ∨ limit ≤ cur.length + 1) := by
        rw [hxs y List.mem_cons_self]
        simp only [Bool.false_eq_true, false_or]
        omega
      rw [List.cons_append, cuts_cons_mid hmid,
        ih (cur ++ [y]) (fun z hz => hxs z (List.mem_cons_of_mem _ hz))
          (by rw [List.length_append, List.length_singleton]; omega)]
      simp

/-- A stream of terminated frames within the limit is cut into them. -/
theorem cuts_flatMap {ρ : Type*} {body : ρ → List α} {x : α} (hx : isEnd x = true) :
    ∀ rs : List ρ, (∀ r ∈ rs, ∀ y ∈ body r, isEnd y = false) →
      (∀ r ∈ rs, (body r).length < limit) →
        cuts isEnd limit [] (rs.flatMap fun r => body r ++ [x])
          = (rs.map fun r => body r ++ [x], []) := by
  intro rs
  induction rs with
  | nil => exact fun _ _ => rfl
  | cons r rs ih =>
      intro hbody hlen
      have hrest := ih (fun r' hr' => hbody r' (List.mem_cons_of_mem _ hr'))
        fun r' hr' => hlen r' (List.mem_cons_of_mem _ hr')
      rw [List.flatMap_cons, List.append_assoc, List.singleton_append,
        cuts_terminated hx _ (body r) [] (hbody r List.mem_cons_self)
          (by simpa using hlen r List.mem_cons_self), hrest]
      rfl

/-- Nothing is cut where there is no terminator and room is left. -/
theorem cuts_short (xs : List α) : ∀ cur : List α, (∀ y ∈ xs, isEnd y = false) →
    cur.length + xs.length < limit → cuts isEnd limit cur xs = ([], cur ++ xs) := by
  induction xs with
  | nil => intro cur _ _; rw [List.append_nil]; rfl
  | cons x xs ih =>
      intro cur hxs hlen
      rw [List.length_cons] at hlen
      have hmid : ¬ (isEnd x ∨ limit ≤ cur.length + 1) := by
        rw [hxs x List.mem_cons_self]
        rintro (hend | hge)
        · cases hend
        · omega
      rw [cuts_cons_mid hmid, ih (cur ++ [x]) (fun y hy => hxs y (List.mem_cons_of_mem _ hy))
        (by rw [List.length_append, List.length_singleton]; omega), List.append_assoc,
        List.singleton_append]

/-- As many elements as the limit allows, none of them a terminator, are one
frame. -/
theorem cuts_full {xs : List α} (hne : xs ≠ []) (hxs : ∀ y ∈ xs, isEnd y = false)
    (hlen : xs.length = limit) : cuts isEnd limit [] xs = ([xs], []) := by
  rcases List.eq_nil_or_concat xs with rfl | ⟨ys, x, rfl⟩
  · exact absurd rfl hne
  · rw [List.concat_eq_append] at hxs hlen ⊢
    rw [List.length_append, List.length_singleton] at hlen
    rw [cuts_append, cuts_short ys [] (fun y hy => hxs y (List.mem_append_left _ hy))
      (by rw [List.length_nil]; omega), cuts_cons_end (Or.inr (by simp [hlen]))]
    rfl

theorem cuts_replicate {x : α} (hx : isEnd x = false) :
    ∀ n, 1 ≤ n → cuts isEnd n [] (List.replicate n x) = ([List.replicate n x], []) := by
  intro n hn
  refine cuts_full ?_ (fun y hy => ?_) List.length_replicate
  · exact List.ne_nil_of_length_pos (by rw [List.length_replicate]; exact hn)
  · obtain rfl := List.eq_of_mem_replicate hy
    exact hx

end Logkafka.Framing
