/-
# `Logkafka.Collation` — texts that sort as what they are written from

A thing `t` has a key, a list of values of which the earlier one is the more
significant one, and its text is blocks, one behind another.  A block is the same
for every `t`, or it shows one value of the key in a fixed width (`Block.Shows`):

    reach n bs    how many values of the key the blocks `bs` show behind blocks
                  that show the first `n`, `none` where a block shows a value
                  before all those are shown that are more significant

Where `reach` is `some k` the texts sort as the first `k` values do, and are the
same where these are (`text_lt_iff`, `text_eq_iff`).  That the texts sort as the
keys do at all takes no less (`collates_iff_reach`), if two values of a key can
go apart.  Numerals of a fixed width are such blocks, where the digits sort as
their values do (`fixed_lt_fixed_iff`).
-/
import Logkafka.Numeral
import Mathlib.Data.List.Lex

namespace Logkafka.Collation

/-! ## Lists of one length in front

Of two texts that begin with blocks of one length the first ones that differ
decide, and a number in a fixed width is such a block.
-/

section Append

variable {α : Type*} [LinearOrder α] {a b s t : List α}

/-- The fronts decide, if they have one length and are not the same. -/
theorem append_lt_append_iff (h : a.length = b.length) :
    a ++ s < b ++ t ↔ a < b ∨ a = b ∧ s < t := by
  induction a generalizing b with
  | nil =>
      obtain rfl := List.length_eq_zero_iff.mp h.symm
      simp
  | cons x a ih =>
      cases b with
      | nil => cases h
      | cons y b =>
          have ih := ih (b := b) (Nat.succ.inj h)
          simp only [List.cons_append, List.cons_lt_cons_iff, ih, List.cons.injEq]
          tauto

theorem append_lt_append_left_iff : a ++ s < a ++ t ↔ s < t := by
  simp [append_lt_append_iff]

/-- The quotients decide, if they are not the same. -/
theorem div_mod_lt_iff {m n b : ℕ} : m / b < n / b ∨ m / b = n / b ∧ m % b < n % b ↔ m < n := by
  have hm := Nat.div_add_mod m b
  have hn := Nat.div_add_mod n b
  constructor
  · rintro (h | ⟨h, hmod⟩)
    · exact not_le.mp fun hle => absurd (Nat.div_le_div_right hle) (not_le.mpr h)
    · rw [h] at hm
      omega
  · intro h
    refine (Nat.div_le_div_right h.le).lt_or_eq.imp_right fun heq => ⟨heq, ?_⟩
    rw [heq] at hm
    omega

/-- Numbers in a fixed width sort as they are. -/
theorem fixed_lt_fixed_iff (N : Numeral α)
    (hmono : ∀ d e, d < e → e < N.base → N.digit d < N.digit e) {w m n : ℕ}
    (hm : m < N.base ^ w) (hn : n < N.base ^ w) : N.fixed w m < N.fixed w n ↔ m < n := by
  induction w generalizing m n with
  | zero =>
      obtain rfl : m = 0 := by simpa using hm
      obtain rfl : n = 0 := by simpa using hn
      simp
  | succ w ih =>
      have hbase := N.base_pos
      have hdiv {k : ℕ} (hk : k < N.base ^ (w + 1)) : k / N.base < N.base ^ w :=
        Nat.div_lt_of_lt_mul (by rwa [pow_succ, Nat.mul_comm] at hk)
      have hfront : N.fixed w (m / N.base) = N.fixed w (n / N.base) ↔ m / N.base = n / N.base := by
        refine ⟨fun h => ?_, fun h => by rw [h]⟩
        rw [← N.value_fixed_of_lt (hdiv hm), h, N.value_fixed_of_lt (hdiv hn)]
      have hlast : [N.digit (m % N.base)] < [N.digit (n % N.base)] ↔ m % N.base < n % N.base := by
        have hm' := Nat.mod_lt m hbase
        have hn' := Nat.mod_lt n hbase
        rcases lt_trichotomy (m % N.base) (n % N.base) with h | h | h
        · exact iff_of_true (List.Lex.rel (hmono _ _ h hn')) h
        · simp [h]
        · refine iff_of_false (fun hlt => ?_) h.asymm
          exact hlt.asymm (List.Lex.rel (hmono _ _ h hm'))
      rw [Numeral.fixed, Numeral.fixed,
        append_lt_append_iff (by rw [N.length_fixed, N.length_fixed]), ih (hdiv hm) (hdiv hn),
        hfront, hlast, div_mod_lt_iff]

end Append

/-! ## Blocks -/

variable {τ α β : Type*}

/-- What a block of the text shows: the value of the key at a place, or nothing. -/
structure Block (τ α : Type*) where
  text : τ → List α
  place : Option ℕ

/-- The text of some blocks. -/
def text (bs : List (Block τ α)) (t : τ) : List α := bs.flatMap fun b => b.text t

/-- The blocks `bs`, behind blocks that show the first `n` values. -/
def reach : ℕ → List (Block τ α) → Option ℕ
  | n, [] => some n
  | n, b :: bs =>
      match b.place with
      | none => reach n bs
      | some i => if i ≤ n then reach (max n (i + 1)) bs else none

variable {D : τ → Prop} {key : τ → List β} {bs : List (Block τ α)} {b : Block τ α} {t t' : τ}
  {x x' : β} {i n k size : ℕ}

@[simp] theorem text_nil (t : τ) : text ([] : List (Block τ α)) t = [] := rfl

@[simp] theorem text_cons (b : Block τ α) (bs : List (Block τ α)) (t : τ) :
    text (b :: bs) t = b.text t ++ text bs t := rfl

theorem text_append (bs bs' : List (Block τ α)) (t : τ) :
    text (bs ++ bs') t = text bs t ++ text bs' t := List.flatMap_append

theorem reach_none (h : b.place = none) : reach n (b :: bs) = reach n bs := by
  rw [reach, h]

theorem reach_some (h : b.place = some i) :
    reach n (b :: bs) = if i ≤ n then reach (max n (i + 1)) bs else none := by
  rw [reach, h]

/-- What was shown stays shown. -/
theorem le_reach (h : reach n bs = some k) : n ≤ k := by
  induction bs generalizing n with
  | nil => exact le_of_eq (Option.some.inj h)
  | cons b bs ih =>
      cases hplace : b.place with
      | none => exact ih ((reach_none hplace).symm.trans h)
      | some i =>
          rw [reach_some hplace] at h
          split at h
          · exact le_trans (le_max_left _ _) (ih h)
          · cases h

/-- The block that shows a value too early. -/
theorem exists_early (h : reach n bs = none) : ∃ before b after m i, bs = before ++ b :: after ∧
    reach n before = some m ∧ b.place = some i ∧ m < i := by
  induction bs generalizing n with
  | nil => cases h
  | cons b bs ih =>
      cases hplace : b.place with
      | none =>
          obtain ⟨before, c, after, m, i, rfl, hreach, hc, hm⟩ :=
            ih ((reach_none hplace).symm.trans h)
          exact ⟨b :: before, c, after, m, i, rfl, (reach_none hplace).trans hreach, hc, hm⟩
      | some j =>
          rw [reach_some hplace] at h
          by_cases hj : j ≤ n
          · rw [if_pos hj] at h
            obtain ⟨before, c, after, m, i, rfl, hreach, hc, hm⟩ := ih h
            refine ⟨b :: before, c, after, m, i, rfl, ?_, hc, hm⟩
            rw [reach_some hplace, if_pos hj, hreach]
          · exact ⟨[], b, bs, n, j, rfl, rfl, hplace, Nat.lt_of_not_le hj⟩

/-! ## One value more

What it takes to go from the first `n` values of two keys to the first `n + 1`.
-/

theorem take_succ_eq (h : (key t)[n]? = some x) :
    (key t).take (n + 1) = (key t).take n ++ [x] := by
  rw [List.take_add_one, h]
  rfl

theorem value_eq_of_take (hsame : (key t).take n = (key t').take n) (hi : i < n)
    (hx : (key t)[i]? = some x) (hx' : (key t')[i]? = some x') : x = x' := by
  rw [← List.getElem?_take_of_lt hi, hsame, List.getElem?_take_of_lt hi, hx'] at hx
  exact (Option.some.inj hx).symm

variable [LinearOrder β]

/-- A value that is larger where the ones before it are the same. -/
theorem take_lt_of_value (hsame : (key t).take n = (key t').take n) (hx : (key t)[n]? = some x)
    (hx' : (key t')[n]? = some x') (hlt : x < x') (hk : n < k) :
    (key t).take k < (key t').take k := by
  have hsplit {u : τ} {y : β} (hy : (key u)[n]? = some y) : (key u).take k =
      (key u).take n ++ ([y] ++ ((key u).drop (n + 1)).take (k - (n + 1))) := by
    rw [← List.append_assoc, ← take_succ_eq hy, ← List.take_add]
    congr 1
    omega
  rw [hsplit hx, hsplit hx', hsame, append_lt_append_left_iff]
  exact List.Lex.rel hlt

theorem lt_of_take_lt {l l' : List β} (h : l.take k < l'.take k) : l < l' := by
  induction k generalizing l l' with
  | zero => simp at h
  | succ k ih =>
      cases l' with
      | nil => simp at h
      | cons y l' =>
          cases l with
          | nil => exact List.nil_lt_cons y l'
          | cons x l =>
              rw [List.take_succ_cons, List.take_succ_cons, List.cons_lt_cons_iff] at h
              exact List.cons_lt_cons_iff.mpr (h.imp_right fun ⟨heq, hlt⟩ => ⟨heq, ih hlt⟩)

/-! ## Blocks that sort -/

variable [LinearOrder α]

/-- The block has a fixed width, and sorts as what it shows. -/
structure Block.Shows (D : τ → Prop) (key : τ → List β) (b : Block τ α) : Prop where
  length : ∀ t t', D t → D t' → (b.text t).length = (b.text t').length
  fixed : b.place = none → ∀ t t', D t → D t' → b.text t = b.text t'
  value : ∀ i, b.place = some i → ∀ t, D t → ∃ x, (key t)[i]? = some x
  sorts : ∀ i, b.place = some i → ∀ t t' x x', D t → D t' → (key t)[i]? = some x →
    (key t')[i]? = some x' → (b.text t < b.text t' ↔ x < x')

/-- Two values of a key can go apart, while those before them stay. -/
def Varied (D : τ → Prop) (key : τ → List β) (size : ℕ) : Prop :=
  ∀ i j, i < j → j < size → ∃ t t', D t ∧ D t' ∧ (key t).take i = (key t').take i ∧
    (∃ x x', (key t)[i]? = some x ∧ (key t')[i]? = some x' ∧ x < x') ∧
    ∃ y y', (key t)[j]? = some y ∧ (key t')[j]? = some y' ∧ y' < y

/-- A smaller key has a text that is not larger. -/
def Collates (D : τ → Prop) (key : τ → List β) (text : τ → List α) : Prop :=
  ∀ t t', D t → D t' → key t ≤ key t' → text t ≤ text t'

theorem length_text (hbs : ∀ b ∈ bs, b.Shows D key) (ht : D t) (ht' : D t') :
    (text bs t).length = (text bs t').length := by
  induction bs with
  | nil => rfl
  | cons b bs ih =>
      obtain ⟨hb, hbs⟩ := List.forall_mem_cons.mp hbs
      rw [text_cons, text_cons, List.length_append, List.length_append, hb.length t t' ht ht',
        ih hbs]

/-- A block of the same value has the same text. -/
theorem Block.Shows.text_eq (hb : b.Shows D key) (hplace : b.place = some i) (ht : D t)
    (ht' : D t') (hx : (key t)[i]? = some x) (hx' : (key t')[i]? = some x) :
    b.text t = b.text t' :=
  le_antisymm
    (le_of_not_gt fun h => lt_irrefl x ((hb.sorts i hplace t' t x x ht' ht hx' hx).mp h))
    (le_of_not_gt fun h => lt_irrefl x ((hb.sorts i hplace t t' x x ht ht' hx hx').mp h))

/-- A block whose value is not shown yet, and larger. -/
theorem Block.Shows.text_lt (hb : b.Shows D key) (hplace : b.place = some i) (hi : i ≤ n)
    (hreach : reach (max n (i + 1)) bs = some k) (ht : D t) (ht' : D t')
    (hsame : (key t).take n = (key t').take n) (hx : (key t)[i]? = some x)
    (hx' : (key t')[i]? = some x') (hlt : x < x') :
    b.text t < b.text t' ∧ (key t).take k < (key t').take k := by
  obtain rfl : n = i := by
    refine le_antisymm (not_lt.mp fun hin => ?_) hi
    exact absurd (value_eq_of_take hsame hin hx hx') hlt.ne
  have hk : n < k := lt_of_lt_of_le (by simp) (le_reach hreach)
  exact ⟨(hb.sorts n hplace t t' x x' ht ht' hx hx').mpr hlt,
    take_lt_of_value hsame hx hx' hlt hk⟩

/-! ## The order of the texts

By induction on the blocks, from the left: blocks that show nothing new are the
same in both texts, and the first one that differs decides.
-/

/-- Behind blocks that show the first `n` values, in two texts that are the same
up to there. -/
theorem text_lt_iff_from (hbs : ∀ b ∈ bs, b.Shows D key) (hreach : reach n bs = some k)
    (ht : D t) (ht' : D t') (hsame : (key t).take n = (key t').take n) :
    text bs t < text bs t' ↔ (key t).take k < (key t').take k := by
  induction bs generalizing n with
  | nil =>
      obtain rfl : n = k := Option.some.inj hreach
      simp [hsame]
  | cons b bs ih =>
      obtain ⟨hb, hbs⟩ := List.forall_mem_cons.mp hbs
      rw [text_cons, text_cons, append_lt_append_iff (hb.length t t' ht ht')]
      cases hplace : b.place with
      | none =>
          have htext := hb.fixed hplace t t' ht ht'
          rw [← ih hbs ((reach_none hplace).symm.trans hreach) hsame]
          simp [htext]
      | some i =>
          rw [reach_some hplace] at hreach
          split at hreach
          · next hi =>
              obtain ⟨x, hx⟩ := hb.value i hplace t ht
              obtain ⟨x', hx'⟩ := hb.value i hplace t' ht'
              rcases lt_trichotomy x x' with hlt | rfl | hgt
              · obtain ⟨htext, hkey⟩ := hb.text_lt hplace hi hreach ht ht' hsame hx hx' hlt
                exact iff_of_true (Or.inl htext) hkey
              · have htext := hb.text_eq hplace ht ht' hx hx'
                have hnext : (key t).take (max n (i + 1)) = (key t').take (max n (i + 1)) := by
                  rcases Nat.lt_or_ge i n with hin | hin
                  · rwa [max_eq_left hin]
                  · obtain rfl : n = i := le_antisymm hin hi
                    rw [max_eq_right (Nat.le_succ n), take_succ_eq hx, take_succ_eq hx', hsame]
                rw [← ih hbs hreach hnext]
                simp [htext]
              · obtain ⟨htext, hkey⟩ := hb.text_lt hplace hi hreach ht' ht hsame.symm hx' hx hgt
                refine iff_of_false ?_ hkey.asymm
                rintro (h | ⟨h, -⟩)
                · exact htext.asymm h
                · exact htext.ne h.symm
          · cases hreach

/-- **Texts sort as the values they show**, where these are shown in order. -/
theorem text_lt_iff (hbs : ∀ b ∈ bs, b.Shows D key) (hreach : reach 0 bs = some k) (ht : D t)
    (ht' : D t') : text bs t < text bs t' ↔ (key t).take k < (key t').take k :=
  text_lt_iff_from hbs hreach ht ht' rfl

theorem text_eq_iff (hbs : ∀ b ∈ bs, b.Shows D key) (hreach : reach 0 bs = some k) (ht : D t)
    (ht' : D t') : text bs t = text bs t' ↔ (key t).take k = (key t').take k := by
  have hlt := text_lt_iff hbs hreach ht ht'
  have hgt := text_lt_iff hbs hreach ht' ht
  constructor
  · intro h
    refine le_antisymm (le_of_not_gt fun hkey => ?_) (le_of_not_gt fun hkey => ?_)
    · exact absurd (hgt.mpr hkey) (h ▸ lt_irrefl _)
    · exact absurd (hlt.mpr hkey) (h ▸ lt_irrefl _)
  · intro h
    refine le_antisymm (le_of_not_gt fun htext => ?_) (le_of_not_gt fun htext => ?_)
    · exact absurd (hgt.mp htext) (h ▸ lt_irrefl _)
    · exact absurd (hlt.mp htext) (h ▸ lt_irrefl _)

/-! ## Why the order is needed

Where a value is shown too early, a key can be smaller in a value that comes
first and larger in that one, and the text is the larger one.
-/

/-- **When the texts sort as the keys do**: just when every value is shown behind
those that are more significant. -/
theorem collates_iff_reach (hbs : ∀ b ∈ bs, b.Shows D key) (hvaried : Varied D key size)
    (hplace : ∀ b ∈ bs, ∀ i, b.place = some i → i < size) :
    Collates D key (text bs) ↔ (reach 0 bs).isSome := by
  constructor
  · intro hsorts
    by_contra hnone
    obtain ⟨before, b, after, m, i, rfl, hreach, hb, hm⟩ :=
      exists_early (Option.not_isSome_iff_eq_none.mp hnone)
    have hshows := hbs b (by simp)
    obtain ⟨t, t', ht, ht', hsame, ⟨x, x', hx, hx', hlt⟩, y, y', hy, hy', hgt⟩ :=
      hvaried m i hm (hplace b (by simp) i hb)
    have hkey : key t ≤ key t' := by
      have htake := take_lt_of_value (k := max (key t).length (key t').length + (m + 1)) hsame hx
        hx' hlt (by omega)
      rw [List.take_of_length_le (by omega), List.take_of_length_le (by omega)] at htake
      exact le_of_lt htake
    -- up to the block the texts are the same, and the block is larger
    have hfront : text before t' = text before t :=
      (text_eq_iff (fun c hc => hbs c (by simp [hc])) hreach ht' ht).mpr hsame.symm
    have htext : text (before ++ b :: after) t' < text (before ++ b :: after) t := by
      rw [text_append, text_append, hfront, append_lt_append_left_iff, text_cons, text_cons,
        append_lt_append_iff (hshows.length t' t ht' ht)]
      exact Or.inl ((hshows.sorts i hb t' t y' y ht' ht hy' hy).mpr hgt)
    exact absurd (hsorts t t' ht ht' hkey) (not_le.mpr htext)
  · intro h t t' ht ht' hkey
    obtain ⟨k, hk⟩ := Option.isSome_iff_exists.mp h
    exact not_lt.mp fun htext =>
      absurd hkey (not_le.mpr (lt_of_take_lt ((text_lt_iff hbs hk ht' ht).mp htext)))

end Logkafka.Collation
