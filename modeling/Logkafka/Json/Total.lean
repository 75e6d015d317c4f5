/-
# `Logkafka.Json.Total` — the count of calls never runs out

    parse text  ≠  .error .termination

Every call of `ParseValue` takes a byte at least, so that what it leaves is
shorter.  `Leaves` says how much a part of the parser leaves at most, and that
it does not run out; each part has a lemma for it, and `Enough` puts those of
values, elements and members together, by induction on the count.
-/
import Logkafka.Json.Reader

namespace Logkafka

namespace GenericReader

variable {α β : Type} {p : Parsed α} {k k' : ℕ}

/-- It does not run out, and leaves no more than `k` bytes. -/
structure Leaves (p : Parsed α) (k : ℕ) : Prop where
  ne_termination : p ≠ .error .termination
  length_le : ∀ a s, p = .ok (a, s) → s.length ≤ k

theorem leaves_ok {a : α} {s : Str} (h : s.length ≤ k) : Leaves (.ok (a, s)) k :=
  ⟨nofun, by rintro _ _ ⟨⟩; exact h⟩

theorem leaves_error {e : ParseErrorCode} (he : e ≠ .termination) :
    Leaves (.error e : Parsed α) k :=
  ⟨fun h => he (Except.error.inj h), nofun⟩

theorem Leaves.mono (h : Leaves p k) (hk : k ≤ k') : Leaves p k' :=
  ⟨h.ne_termination, fun a s heq => (h.length_le a s heq).trans hk⟩

theorem Leaves.andThen {f : α → Str → Parsed β} (h : Leaves p k)
    (hf : ∀ a s, s.length ≤ k → Leaves (f a s) k') : Leaves (andThen p f) k' := by
  cases hp : p with
  | ok q => exact hf q.1 q.2 (h.length_le q.1 q.2 hp)
  | error e => exact leaves_error fun he => h.ne_termination (he ▸ hp)

/-! ## Strings

Each part of the reader leaves no more than it found, and less where it takes a
character.
-/

theorem length_skipWhitespace (s : Str) : (skipWhitespace s).length ≤ s.length :=
  (List.dropWhile_sublist _).length_le

theorem leaves_parseHex4 (s : Str) : Leaves (parseHex4 s) s.length := by
  match s with
  | [] | [_] | [_, _] | [_, _, _] => exact leaves_error (by decide)
  | a :: b :: c :: d :: s =>
      rw [parseHex4]
      split
      · exact leaves_ok (by simp only [List.length_cons]; omega)
      · exact leaves_error (by decide)

theorem leaves_parseUnicode (s : Str) : Leaves (parseUnicode s) s.length := by
  refine (leaves_parseHex4 s).andThen fun codepoint s₁ hs₁ => ?_
  split
  · split
    · next s₂ =>
        simp only [List.length_cons] at hs₁
        refine (leaves_parseHex4 s₂).andThen fun codepoint2 s₃ hs₃ => ?_
        split
        · exact leaves_error (by decide)
        · exact leaves_ok (by omega)
    · exact leaves_error (by decide)
  · exact leaves_ok hs₁

theorem leaves_parseChar (c : Byte) (s : Str) : Leaves (parseChar (c :: s)) s.length := by
  rw [parseChar]
  split
  · cases s with
    | nil => exact leaves_error (by decide)
    | cons e s =>
        have hescape : Leaves (parseEscape (e :: s)) s.length := by
          rw [parseEscape]
          split
          · exact leaves_ok (Nat.le_refl _)
          · split
            · exact leaves_parseUnicode s
            · exact leaves_error (by decide)
        exact hescape.andThen fun out s₁ hs₁ => leaves_ok (hs₁.trans (Nat.le_succ _))
  · split
    · exact leaves_ok (Nat.le_refl _)
    · split
      · exact leaves_error (by decide)
      · split
        · exact leaves_error (by decide)
        · exact leaves_ok (Nat.le_refl _)

theorem leaves_parseChars {n : ℕ} {s : Str} (hn : s.length < n) :
    Leaves (parseChars n s) (s.length - 1) := by
  induction n generalizing s with
  | zero => exact absurd hn (Nat.not_lt_zero _)
  | succ n ih =>
      cases s with
      | nil => exact leaves_error (by decide)
      | cons c s =>
          rw [List.length_cons] at hn
          refine (leaves_parseChar c s).andThen fun out s₁ hs₁ => ?_
          cases out with
          | none => exact leaves_ok (by simpa using hs₁)
          | some out =>
              refine (ih (by omega)).andThen fun str s₂ hs₂ => leaves_ok ?_
              rw [List.length_cons]
              omega

theorem leaves_parseString (s : Str) : Leaves (parseString s) (s.length - 1) :=
  leaves_parseChars (Nat.lt_succ_self _)

/-! ## Numbers -/

/-- A round that does not run out. -/
def Goes (round : Num → ℕ → Except ParseErrorCode (Num × Bool)) : Prop :=
  ∀ num digit, round num digit ≠ .error .termination

theorem leaves_whileDigit {round : Num → ℕ → Except ParseErrorCode (Num × Bool)}
    (hround : Goes round) (num : Num) (s : Str) :
    Leaves (whileDigit round num s) s.length := by
  induction s generalizing num with
  | nil => exact leaves_ok (Nat.le_refl _)
  | cons c s ih =>
      rw [whileDigit]
      split
      · exact leaves_ok (Nat.le_refl _)
      · next digit _ =>
          split
          · next e he => exact leaves_error fun h => hround num digit (h ▸ he)
          · exact leaves_ok (Nat.le_refl _)
          · exact (ih _).mono (Nat.le_succ _)

theorem ite_ne_termination {c : Prop} [Decidable c] {a : Num × Bool}
    {q : Except ParseErrorCode (Num × Bool)} (hq : q ≠ .error .termination) :
    (if c then q else .ok a) ≠ .error .termination := by
  split
  · exact hq
  · exact nofun

theorem goes_int32 : Goes Num.int32 := fun _ _ => ite_ne_termination nofun

theorem goes_int64 : Goes Num.int64 := fun _ _ => ite_ne_termination nofun

theorem goes_big : Goes Num.big := fun _ _ => ite_ne_termination nofun

theorem goes_fraction53 : Goes Num.fraction53 := fun _ _ => ite_ne_termination nofun

theorem goes_fraction : Goes Num.fraction := fun _ _ => ite_ne_termination nofun

theorem goes_expMinus : Goes Num.expMinus := fun _ _ => ite_ne_termination nofun

theorem goes_expPlus : Goes Num.expPlus := fun _ _ => ite_ne_termination nofun

theorem leaves_parseInt (minus : Bool) (s : Str) :
    Leaves (parseInt minus s) (s.length - 1) := by
  cases s with
  | nil => exact leaves_error (by decide)
  | cons c s =>
      rw [parseInt]
      split
      · exact leaves_error (by decide)
      · simp only [List.length_cons, Nat.add_sub_cancel]
        split
        · exact leaves_ok (Nat.le_refl _)
        · refine (leaves_whileDigit goes_int32 _ s).andThen fun num₁ s₁ hs₁ => ?_
          split
          · refine (leaves_whileDigit goes_int64 num₁ s₁).andThen fun num₂ s₂ hs₂ => ?_
            split
            · exact (leaves_whileDigit goes_big num₂ s₂).mono (by omega)
            · exact leaves_ok (by omega)
          · exact leaves_ok hs₁

theorem leaves_parseFrac (num : Num) (s : Str) : Leaves (parseFrac num s) s.length := by
  cases s with
  | nil => exact leaves_ok (Nat.le_refl _)
  | cons c s =>
      rw [parseFrac]
      split
      · split
        · have hfirst : Leaves (if num.useDouble then .ok (num, s)
              else whileDigit Num.fraction53 num s) s.length := by
            split
            · exact leaves_ok (Nat.le_refl _)
            · exact leaves_whileDigit goes_fraction53 num s
          refine hfirst.andThen fun num₁ s₁ hs₁ => ?_
          exact (leaves_whileDigit goes_fraction _ s₁).mono (hs₁.trans (Nat.le_succ _))
        · exact leaves_error (by decide)
      · exact leaves_ok (Nat.le_refl _)

theorem leaves_parseExp (num : Num) (s : Str) : Leaves (parseExp num s) s.length := by
  cases s with
  | nil => exact leaves_ok (Nat.le_refl _)
  | cons c s =>
      rw [parseExp]
      split
      · have hdigits : ∀ (round : Num → ℕ → Except ParseErrorCode (Num × Bool)) (num : Num)
            (s : Str), Goes round → Leaves (parseExpDigits round num s) s.length := by
          intro round num s hround
          cases s with
          | nil => exact leaves_error (by decide)
          | cons c s =>
              rw [parseExpDigits]
              split
              · exact leaves_error (by decide)
              · exact (leaves_whileDigit hround _ s).mono (Nat.le_succ _)
        have hround : ∀ b : Bool, Goes (if b then Num.expMinus else Num.expPlus) := by
          rintro (- | -)
          · exact goes_expPlus
          · exact goes_expMinus
        have htail : (if s.head? = some 43 ∨ s.head? = some 45 then s.tail else s).length ≤
            s.length := by
          split
          · exact List.length_tail.trans_le (Nat.sub_le _ _)
          · exact Nat.le_refl _
        refine (hdigits _ _ _ (hround _)).andThen fun num₁ s₁ hs₁ => leaves_ok ?_
        exact (hs₁.trans htail).trans (Nat.le_succ _)
      · exact leaves_ok (Nat.le_refl _)

theorem leaves_parseNumber (s : Str) : Leaves (parseNumber s) (s.length - 1) := by
  have hint : ∀ minus : Bool, Leaves (parseInt minus (if minus then s.tail else s))
      (s.length - 1) := by
    rintro (- | -)
    · exact leaves_parseInt false s
    · refine (leaves_parseInt true s.tail).mono ?_
      rw [List.length_tail]
      exact Nat.sub_le _ _
  refine (hint _).andThen fun num₁ s₁ hs₁ => ?_
  refine ((leaves_parseFrac num₁ s₁).mono hs₁).andThen fun num₂ s₂ hs₂ => ?_
  exact ((leaves_parseExp num₂ s₂).mono hs₂).andThen fun num₃ s₃ hs₃ => leaves_ok hs₃

/-! ## Values

A value takes a character before it calls for another one, so the fuel does not
run out.
-/

theorem leaves_parseLiteral (word s : Str) (v : Value) :
    Leaves (parseLiteral word v s) s.length := by
  rw [parseLiteral]
  split
  · exact leaves_ok (List.length_drop.trans_le (Nat.sub_le _ _))
  · exact leaves_error (by decide)

/-- `n` calls in each other are enough for a text of which three times the length
is less. -/
structure Enough (n : ℕ) : Prop where
  value : ∀ s, 3 * s.length < n → Leaves (parseValue n s) (s.length - 1)
  elements : ∀ s, 3 * s.length + 1 < n → Leaves (parseElements n s) s.length
  members : ∀ s, 3 * s.length + 1 < n → Leaves (parseMembers n s) s.length

theorem leaves_parseArray {n : ℕ} (ih : Enough n) {s : Str} (hn : 3 * s.length + 1 < n) :
    Leaves (parseArray (n + 1) s) s.length := by
  rw [parseArray]
  split
  · exact leaves_ok (List.length_tail.trans_le (Nat.sub_le _ _))
  · exact (ih.elements s hn).andThen fun elems s₁ hs₁ => leaves_ok hs₁

theorem leaves_parseObject {n : ℕ} (ih : Enough n) {s : Str} (hn : 3 * s.length + 1 < n) :
    Leaves (parseObject (n + 1) s) s.length := by
  rw [parseObject]
  split
  · exact leaves_ok (List.length_tail.trans_le (Nat.sub_le _ _))
  · exact (ih.members s hn).andThen fun members s₁ hs₁ => leaves_ok hs₁

theorem leaves_parseValue {n : ℕ} (ih : ∀ m < n, Enough m) (s : Str) (hn : 3 * s.length < n) :
    Leaves (parseValue n s) (s.length - 1) := by
  match n, s with
  | n + 1, [] => exact leaves_parseNumber []
  | n + 1, c :: s =>
      rw [List.length_cons] at hn ⊢
      rw [parseValue, Nat.add_sub_cancel]
      have hskip := length_skipWhitespace s
      obtain ⟨m, rfl⟩ : ∃ m, n = m + 1 := ⟨n - 1, by omega⟩
      have hm := ih m (by omega)
      split
      · exact leaves_parseLiteral _ s _
      split
      · exact leaves_parseLiteral _ s _
      split
      · exact leaves_parseLiteral _ s _
      split
      · exact (leaves_parseString s).andThen fun str s₁ hs₁ =>
          leaves_ok (hs₁.trans (Nat.sub_le _ _))
      split
      · exact (leaves_parseObject hm (by omega)).mono hskip
      split
      · exact (leaves_parseArray hm (by omega)).mono hskip
      exact leaves_parseNumber (c :: s)

theorem leaves_parseElements {n : ℕ} (ih : ∀ m < n, Enough m) (s : Str)
    (hn : 3 * s.length + 1 < n) : Leaves (parseElements n s) s.length := by
  obtain ⟨n, rfl⟩ : ∃ m, n = m + 1 := ⟨n - 1, by omega⟩
  have hm := ih n (Nat.lt_succ_self n)
  refine (hm.value s (by omega)).andThen fun v s₁ hs₁ => ?_
  have hskip := length_skipWhitespace s₁
  split
  · next s₂ hcomma =>
      rw [hcomma, List.length_cons] at hskip
      have hskip' := length_skipWhitespace s₂
      refine (hm.elements _ (by omega)).andThen fun elems s₃ hs₃ => leaves_ok (by omega)
  · next s₂ hclose =>
      rw [hclose, List.length_cons] at hskip
      exact leaves_ok (by omega)
  · exact leaves_error (by decide)

theorem leaves_parseMembers {n : ℕ} (ih : ∀ m < n, Enough m) (s : Str)
    (hn : 3 * s.length + 1 < n) : Leaves (parseMembers n s) s.length := by
  obtain ⟨n, rfl⟩ : ∃ m, n = m + 1 := ⟨n - 1, by omega⟩
  have hm := ih n (Nat.lt_succ_self n)
  rw [parseMembers]
  split
  · have htail : s.tail.length ≤ s.length := List.length_tail.trans_le (Nat.sub_le _ _)
    refine (leaves_parseString s.tail).andThen fun key s₁ hs₁ => ?_
    have hskip₁ := length_skipWhitespace s₁
    split
    · next s₂ hcolon =>
        rw [hcolon, List.length_cons] at hskip₁
        have hskip₂ := length_skipWhitespace s₂
        refine (hm.value _ (by omega)).andThen fun v s₃ hs₃ => ?_
        have hskip₃ := length_skipWhitespace s₃
        split
        · next s₄ hcomma =>
            rw [hcomma, List.length_cons] at hskip₃
            have hskip₄ := length_skipWhitespace s₄
            refine (hm.members _ (by omega)).andThen fun members s₅ hs₅ => leaves_ok (by omega)
        · next s₄ hclose =>
            rw [hclose, List.length_cons] at hskip₃
            exact leaves_ok (by omega)
        · exact leaves_error (by decide)
    · exact leaves_error (by decide)
  · exact leaves_error (by decide)

theorem enough (n : ℕ) : Enough n := by
  induction n using Nat.strong_induction_on with
  | _ n ih => exact ⟨leaves_parseValue ih, leaves_parseElements ih, leaves_parseMembers ih⟩

/-- `parse` allows enough calls. -/
theorem parse_ne_termination (text : Str) : parse text ≠ .error .termination := by
  have hvalue := (enough (3 * (skipWhitespace (cstr text)).length + 1)).value
    (skipWhitespace (cstr text)) (Nat.lt_succ_self _)
  simp only [parse]
  split
  · exact fun h => by cases h
  · split
    · next e he => exact fun h => hvalue.ne_termination (Except.error.inj h ▸ he)
    · split <;> exact fun h => by cases h

end GenericReader

end Logkafka
