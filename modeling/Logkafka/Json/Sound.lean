/-
# `Logkafka.Json.Sound` — what is parsed is a text

A parse that succeeds, without a double, took a text of the grammar
(`text_of_parse`).  With `Logkafka.Json.Complete` the two say the same
(`parse_eq_ok_iff`): nothing else is accepted, and no text has two meanings.
-/
import Logkafka.Json.Complete
import Logkafka.Json.Total

namespace Logkafka

namespace GenericReader

open Grammar

/-! ## Blanks and strings

What the reader has taken is a text of the grammar, from the smallest part up.
-/

theorem exists_blanks (s : Str) : ∃ w, s = w ++ skipWhitespace s ∧ Blanks w :=
  ⟨s.takeWhile isBlank, List.takeWhile_append_dropWhile.symm,
    fun _ hb => List.mem_takeWhile_imp hb⟩

theorem parseHex4_eq_ok {s s' : Str} {n : ℕ} (h : parseHex4 s = .ok (n, s')) :
    ∃ d, s = d ++ s' ∧ Hex4 d n := by
  match s with
  | [] | [_] | [_, _] | [_, _, _] => cases h
  | a :: b :: c :: d :: s =>
      rw [parseHex4] at h
      split at h
      · next ha hb hc hd =>
          cases h
          refine ⟨[a, b, c, d], rfl, rfl, ?_, ?_⟩
          · simp [Numeral.isDigit, ha, hb, hc, hd]
          · simp [Numeral.value, ha, hb, hc, hd]
            rfl
      · cases h

theorem hex4_lt {d : Str} {n : ℕ} (h : Hex4 d n) : n < 0x10000 := by
  have hlt := hex.value_lt hexValue_lt d
  rw [h.length, h.value] at hlt
  exact hlt

theorem exists_char {n : ℕ} (hn : n < 0x110000) (h : n < 0xD800 ∨ 0xDFFF < n) :
    ∃ c : Char, c.toNat = n := by
  have hvalid : n.isValidChar := by
    simp only [Nat.isValidChar]
    omega
  exact ⟨Char.ofNatAux n hvalid, rfl⟩

theorem parseUnicode_eq_ok {s s' out : Str} (h : parseUnicode s = .ok (out, s')) :
    ∃ d, s = d ++ s' ∧ ∀ {str t}, Chars str t → Chars (out ++ str) (92 :: 117 :: (d ++ t)) := by
  obtain ⟨n, s₁, hhex, hrest⟩ := andThen_eq_ok.mp h
  obtain ⟨d, rfl, hd⟩ := parseHex4_eq_ok hhex
  clear h
  split at hrest
  · next hhigh =>
      split at hrest
      · next s₂ =>
          obtain ⟨n', s₃, hhex', hcode⟩ := andThen_eq_ok.mp hrest
          obtain ⟨d', rfl, hd'⟩ := parseHex4_eq_ok hhex'
          split at hcode
          · cases hcode
          · next hlow =>
              obtain ⟨rfl, rfl⟩ := Prod.mk.inj (Except.ok.inj hcode)
              obtain ⟨high, rfl⟩ := Nat.exists_eq_add_of_le hhigh.1
              obtain ⟨low, rfl⟩ := Nat.exists_eq_add_of_le (show 0xDC00 ≤ n' by omega)
              obtain ⟨c, hc⟩ := exists_char (n := 0x10000 + high * 0x400 + low) (by omega)
                (by omega)
              refine ⟨d ++ 92 :: 117 :: d', by simp, fun {str t} hstr => ?_⟩
              have hpoint : (0xD800 + high - 0xD800) * 0x400 + (0xDC00 + low - 0xDC00) + 0x10000 =
                  c.toNat := by omega
              rw [hpoint, utf8Encode_toNat]
              simpa using Chars.surrogates hd hd' (by omega) (by omega) hc hstr
      · cases hrest
  · next hhigh =>
      cases hrest
      refine ⟨d, rfl, fun hstr => ?_⟩
      by_cases hlow : 0xDC00 ≤ n ∧ n ≤ 0xDFFF
      · obtain ⟨low, rfl⟩ := Nat.exists_eq_add_of_le hlow.1
        exact .lone hd (by omega) hstr
      · have hn := hex4_lt hd
        obtain ⟨c, rfl⟩ := exists_char (n := n) (by omega) (by omega)
        rw [utf8Encode_toNat]
        exact .unicode hd hstr

theorem parseChar_eq_ok {s s' out : Str} (h : parseChar s = .ok (some out, s')) :
    ∃ d, s = d ++ s' ∧ ∀ {str t}, Chars str t → Chars (out ++ str) (d ++ t) := by
  cases s with
  | nil => cases h
  | cons c s =>
      rw [parseChar] at h
      split at h
      · next hc =>
          subst hc
          obtain ⟨out', s₁, hescape, h⟩ := andThen_eq_ok.mp h
          cases h
          cases s with
          | nil => cases hescape
          | cons e s =>
              rw [parseEscape] at hescape
              split at hescape
              · next c he =>
                  cases hescape
                  exact ⟨[92, e], rfl, fun hstr => .escaped he hstr⟩
              · split at hescape
                · next hu =>
                    subst hu
                    obtain ⟨d, rfl, hd⟩ := parseUnicode_eq_ok hescape
                    exact ⟨92 :: 117 :: d, rfl, hd⟩
                · cases hescape
      · next hslash =>
          split at h
          · cases h
          · next hquote =>
              split at h
              · cases h
              · split at h
                · cases h
                · next hlow =>
                    cases h
                    exact ⟨[c], rfl, fun hstr =>
                      .plain (UInt8.not_lt.mp hlow) hquote hslash hstr⟩

theorem parseChar_close {s s' : Str} (h : parseChar s = .ok (none, s')) : s = 34 :: s' := by
  cases s with
  | nil => cases h
  | cons c s =>
      rw [parseChar] at h
      split at h
      · obtain ⟨out', s₁, -, h⟩ := andThen_eq_ok.mp h
        cases h
      · split at h
        · next hquote =>
            cases h
            rw [hquote]
        · split at h
          · cases h
          · split at h <;> cases h

theorem chars_of_parseChars {n : ℕ} {s str s' : Str} (h : parseChars n s = .ok (str, s')) :
    ∃ t, s = t ++ s' ∧ Chars str t := by
  induction n generalizing s str with
  | zero => cases h
  | succ n ih =>
      obtain ⟨out, s₁, hchar, h⟩ := andThen_eq_ok.mp h
      cases out with
      | none =>
          cases h
          exact ⟨[34], parseChar_close hchar, .close⟩
      | some out =>
          obtain ⟨str', s₂, hrest, h⟩ := andThen_eq_ok.mp h
          cases h
          obtain ⟨d, rfl, hd⟩ := parseChar_eq_ok hchar
          obtain ⟨t, rfl, ht⟩ := ih hrest
          exact ⟨d ++ t, (List.append_assoc ..).symm, hd ht⟩

/-! ## Numbers -/

theorem value?_lt {b : Byte} {digit : ℕ} (h : dec.value? b = some digit) : digit < 10 := by
  have h : decValue? b = some digit := h
  rw [decValue?] at h
  split at h
  · next hb =>
      have hle : b.toNat ≤ 57 := UInt8.le_iff_toNat_le.mp hb.2
      cases h
      omega
  · cases h

namespace Num

variable {num num' : Num} {minus : Bool} {n digit : ℕ} {s s' : Str}
  {round : Num → ℕ → Except ParseErrorCode (Num × Bool)}

/-- A round that takes the digit of an integer, or leaves it. -/
def TakesDigit (round : Num → ℕ → Except ParseErrorCode (Num × Bool)) : Prop :=
  ∀ (num num' : Num) (digit : ℕ) (go : Bool), digit < 10 →
    round num digit = .ok (num', go) →
    if go then num' = num.push digit ∧ num.i64 * 10 + digit ≤ intMax num.minus
    else num'.useDouble = false → num'.minus = num.minus ∧ num'.i64 = num.i64

/-- What is not over the limits of a loop is an integer of 64 bits. -/
theorem le_intMax_of_not_over {limit last limit' last' : ℕ} (hdigit : digit < 10)
    (hover : ¬ if num.minus then Over limit last num digit else Over limit' last' num digit)
    (hneg : limit * 10 + last ≤ 2 ^ 63) (hpos : limit' * 10 + last' ≤ 2 ^ 64 - 1) :
    num.i64 * 10 + digit ≤ intMax num.minus := by
  cases hminus : num.minus with
  | false =>
      simp only [hminus, Bool.false_eq_true, if_false, Over] at hover
      rw [intMax, if_neg (by decide)]
      omega
  | true =>
      simp only [hminus, if_true, Over] at hover
      rw [intMax, if_pos rfl]
      omega

theorem takesDigit_int32 : TakesDigit int32 := by
  intro num num' digit go hdigit hround
  rw [int32] at hround
  by_cases hover : if num.minus then Over 214748364 8 num digit else Over 429496729 5 num digit
  · rw [if_pos hover] at hround
    cases hround
    exact fun _ => ⟨rfl, rfl⟩
  · rw [if_neg hover] at hround
    cases hround
    exact ⟨rfl, le_intMax_of_not_over hdigit hover (by decide) (by decide)⟩

theorem takesDigit_int64 : TakesDigit int64 := by
  intro num num' digit go hdigit hround
  rw [int64] at hround
  by_cases hover : if num.minus then Over 0x0CCCCCCCCCCCCCCC 8 num digit
      else Over 0x1999999999999999 5 num digit
  · rw [if_pos hover] at hround
    cases hround
    exact fun hnot => by cases hnot
  · rw [if_neg hover] at hround
    cases hround
    exact ⟨rfl, le_intMax_of_not_over hdigit hover (by decide) (by decide)⟩

theorem digits_of_whileDigit (hround : TakesDigit round) (h : num.IsInt minus n)
    (hmax : n ≤ intMax minus) (hrun : whileDigit round num s = .ok (num', s'))
    (hnum' : num'.useDouble = false) :
    ∃ ds, s = ds ++ s' ∧ (∀ b ∈ ds, dec.isDigit b = true) ∧ num'.IsInt minus (after n ds) ∧
      after n ds ≤ intMax minus := by
  induction s generalizing num n with
  | nil =>
      cases hrun
      exact ⟨[], rfl, by simp, h, hmax⟩
  | cons c s ih =>
      rw [whileDigit] at hrun
      split at hrun
      · cases hrun
        exact ⟨[], rfl, by simp, h, hmax⟩
      · next digit hdigit =>
          split at hrun
          · cases hrun
          · next num₁ hgo =>
              cases hrun
              obtain ⟨hminus, hi64⟩ := hround _ _ _ _ (value?_lt hdigit) hgo hnum'
              exact ⟨[], rfl, by simp,
                ⟨hminus.trans h.minus_eq, hi64.trans h.i64_eq, hnum'⟩, hmax⟩
          · next num₁ hgo =>
              obtain ⟨rfl, hfits⟩ := hround _ _ _ _ (value?_lt hdigit) hgo
              rw [h.minus_eq, h.i64_eq] at hfits
              obtain ⟨ds, rfl, hds, hint, hafter⟩ := ih (h.push digit) hfits hrun
              rw [← after_cons hdigit] at hint hafter
              exact ⟨c :: ds, rfl, List.forall_mem_cons.mpr ⟨by rw [Numeral.isDigit, hdigit]; rfl,
                hds⟩, hint, hafter⟩

/-- A round that leaves `useDouble` as it is. -/
def KeepsDouble (round : Num → ℕ → Except ParseErrorCode (Num × Bool)) : Prop :=
  ∀ (num num' : Num) (digit : ℕ) (go : Bool), round num digit = .ok (num', go) →
    num'.useDouble = num.useDouble

theorem useDouble_of_whileDigit (hround : KeepsDouble round)
    (hrun : whileDigit round num s = .ok (num', s')) : num'.useDouble = num.useDouble := by
  induction s generalizing num with
  | nil =>
      cases hrun
      rfl
  | cons c s ih =>
      rw [whileDigit] at hrun
      split at hrun
      · cases hrun
        rfl
      · split at hrun
        · cases hrun
        · next hgo =>
            cases hrun
            exact hround _ _ _ _ hgo
        · next hgo => exact (ih hrun).trans (hround _ _ _ _ hgo)

theorem keepsDouble_int32 : KeepsDouble int32 := by
  intro num num' digit go h
  rw [int32] at h
  by_cases hover : if num.minus then Over 214748364 8 num digit else Over 429496729 5 num digit
  · rw [if_pos hover] at h
    cases h
    rfl
  · rw [if_neg hover] at h
    cases h
    rfl

theorem keepsDouble_big : KeepsDouble big := by
  intro num num' digit go h
  rw [big] at h
  split at h <;> cases h
  rfl

theorem keepsDouble_fraction : KeepsDouble fraction := by
  intro num num' digit go h
  rw [fraction] at h
  split at h <;> cases h <;> rfl

theorem keepsDouble_expMinus : KeepsDouble expMinus := by
  intro num num' digit go h
  rw [expMinus] at h
  split at h <;> cases h <;> rfl

theorem keepsDouble_expPlus : KeepsDouble expPlus := by
  intro num num' digit go h
  rw [expPlus] at h
  split at h <;> cases h
  rfl

@[simp] theorem useDouble_toDouble (num : Num) : num.toDouble.useDouble = true := by
  unfold Num.toDouble
  split
  · next h => exact h
  · rfl

end Num

/-- A fraction makes it a double. -/
theorem parseFrac_eq_ok {num num' : Num} {s s' : Str} (h : parseFrac num s = .ok (num', s'))
    (hnum' : num'.useDouble = false) : num' = num ∧ s' = s := by
  cases s with
  | nil =>
      cases h
      exact ⟨rfl, rfl⟩
  | cons c s =>
      rw [parseFrac] at h
      split at h
      · split at h
        · obtain ⟨num₁, s₁, -, h⟩ := andThen_eq_ok.mp h
          have hdouble := Num.useDouble_of_whileDigit Num.keepsDouble_fraction h
          rw [hnum', Num.useDouble_toDouble] at hdouble
          cases hdouble
        · cases h
      · cases h
        exact ⟨rfl, rfl⟩

theorem useDouble_of_parseExpDigits {round : Num → ℕ → Except ParseErrorCode (Num × Bool)}
    (hround : Num.KeepsDouble round) {num num' : Num} {s s' : Str}
    (h : parseExpDigits round num s = .ok (num', s')) : num'.useDouble = num.useDouble := by
  cases s with
  | nil => cases h
  | cons c s =>
      rw [parseExpDigits] at h
      split at h
      · cases h
      · have hdouble := Num.useDouble_of_whileDigit hround h
        exact hdouble

/-- And so does an exponent. -/
theorem parseExp_eq_ok {num num' : Num} {expMinus : Bool} {s s' : Str}
    (h : parseExp num s = .ok ((num', expMinus), s')) (hnum' : num'.useDouble = false) :
    num' = num ∧ s' = s := by
  cases s with
  | nil =>
      cases h
      exact ⟨rfl, rfl⟩
  | cons c s =>
      rw [parseExp] at h
      split at h
      · obtain ⟨num₁, s₁, hdigits, h⟩ := andThen_eq_ok.mp h
        cases h
        have hround : Num.KeepsDouble
            (if s.head? = some 45 then Num.expMinus else Num.expPlus) := by
          split
          · exact Num.keepsDouble_expMinus
          · exact Num.keepsDouble_expPlus
        have hdouble := useDouble_of_parseExpDigits hround (by simpa using hdigits)
        rw [hnum', Num.useDouble_toDouble] at hdouble
        cases hdouble
      · cases h
        exact ⟨rfl, rfl⟩

/-- The digits after the first one. -/
theorem digits_of_loops {minus : Bool} {num num₁ num' : Num} {n : ℕ} {s s₁ s' : Str}
    (h : num.IsInt minus n) (hmax : n ≤ Num.intMax minus)
    (hrun : whileDigit Num.int32 num s = .ok (num₁, s₁))
    (hrest : (if num₁.use64bit then
      andThen (whileDigit Num.int64 num₁ s₁) fun num s =>
        if num.useDouble then whileDigit Num.big num s else .ok (num, s)
      else .ok (num₁, s₁)) = .ok (num', s'))
    (hnum' : num'.useDouble = false) :
    ∃ ds, s = ds ++ s' ∧ (∀ b ∈ ds, dec.isDigit b = true) ∧ num'.IsInt minus (Num.after n ds) ∧
      Num.after n ds ≤ Num.intMax minus := by
  have hnum₁ : num₁.useDouble = false :=
    (Num.useDouble_of_whileDigit Num.keepsDouble_int32 hrun).trans h.useDouble_eq
  obtain ⟨ds, rfl, hds, hint, hfits⟩ :=
    Num.digits_of_whileDigit Num.takesDigit_int32 h hmax hrun hnum₁
  split at hrest
  · obtain ⟨num₂, s₂, hrun', hrest⟩ := andThen_eq_ok.mp hrest
    split at hrest
    · next hdouble =>
        have hkeep := Num.useDouble_of_whileDigit Num.keepsDouble_big hrest
        rw [hnum', hdouble] at hkeep
        cases hkeep
    · cases hrest
      obtain ⟨ds', rfl, hds', hint', hfits'⟩ :=
        Num.digits_of_whileDigit Num.takesDigit_int64 hint hfits hrun' hnum'
      have hafter : Num.after (Num.after n ds) ds' = Num.after n (ds ++ ds') :=
        List.foldl_append.symm
      rw [hafter] at hint' hfits'
      exact ⟨ds ++ ds', (List.append_assoc ..).symm, List.forall_mem_append.mpr ⟨hds, hds'⟩,
        hint', hfits'⟩
  · cases hrest
    exact ⟨ds, rfl, hds, hint, hfits⟩

theorem parseInt_eq_ok {minus : Bool} {num : Num} {s s' : Str}
    (h : parseInt minus s = .ok (num, s')) (hnum : num.useDouble = false) :
    ∃ ds n, s = ds ++ s' ∧ Digits ds n ∧ num.IsInt minus n ∧ n ≤ Num.intMax minus := by
  cases s with
  | nil => cases h
  | cons c s =>
      rw [parseInt] at h
      split at h
      · cases h
      · next digit hdigit =>
          have hc : dec.isDigit c = true := by
            rw [Numeral.isDigit, hdigit]
            rfl
          have hvalue : ∀ ds, dec.value (c :: ds) = Num.after digit ds := fun ds => by
            show Num.after 0 (c :: ds) = _
            rw [Num.after_cons hdigit, Nat.zero_mul, Nat.zero_add]
          have hstart : digit ≤ Num.intMax minus := by
            have hlt := value?_lt hdigit
            cases minus <;> simp [Num.intMax] <;> omega
          have hint : Num.IsInt ⟨minus, digit, 0, false, false, 0, 0, 0⟩ minus digit :=
            ⟨rfl, rfl, rfl⟩
          simp only at h
          split at h
          · cases h
            refine ⟨[c], digit, rfl, ⟨List.cons_ne_nil _ _, by simp [hc], ?_, hvalue []⟩, hint,
              hstart⟩
            rintro c' ds' ⟨⟩ -
            rfl
          · next hzero =>
              obtain ⟨num₁, s₁, hrun, hrest⟩ := andThen_eq_ok.mp h
              obtain ⟨ds, rfl, hds, hint', hmax⟩ := digits_of_loops hint hstart hrun hrest hnum
              refine ⟨c :: ds, _, rfl, ⟨List.cons_ne_nil _ _,
                List.forall_mem_cons.mpr ⟨hc, hds⟩, ?_, hvalue ds⟩, hint', hmax⟩
              rintro c' ds' ⟨⟩ hfirst
              rw [hdigit] at hfirst
              exact absurd (Option.some.inj hfirst) hzero

/-- What is no double is an integer as the grammar has it. -/
theorem parseNumber_eq_ok {v : Value} {s s' : Str} (h : parseNumber s = .ok (v, s'))
    (hv : ∀ d, v ≠ .double d) : ∃ t, s = t ++ s' ∧ Text v t := by
  obtain ⟨num, s₁, hint, h⟩ := andThen_eq_ok.mp h
  obtain ⟨num₂, s₂, hfrac, h⟩ := andThen_eq_ok.mp h
  obtain ⟨⟨num₃, expMinus⟩, s₃, hexp, h⟩ := andThen_eq_ok.mp h
  cases h
  have hnum : num₃.useDouble = false := by
    cases hdouble : num₃.useDouble with
    | false => rfl
    | true => exact absurd (by simp [Num.value, hdouble]; rfl) (hv _)
  obtain ⟨rfl, rfl⟩ := parseExp_eq_ok hexp hnum
  obtain ⟨rfl, rfl⟩ := parseFrac_eq_ok hfrac hnum
  obtain ⟨ds, n, hs, hds, hnum', hmax⟩ := parseInt_eq_ok hint hnum
  have hvalue : num₃.value expMinus = .int (if s.head? = some 45 then -n else n) := by
    simp [Num.value, hnum, hnum'.minus_eq, hnum'.i64_eq]
  rw [hvalue]
  by_cases hminus : s.head? = some 45
  · rw [if_pos hminus]
    rw [decide_eq_true hminus] at hs hmax
    refine ⟨45 :: ds, ?_, .neg hds hmax⟩
    cases s with
    | nil => cases hminus
    | cons c s =>
        cases hminus
        rw [if_pos rfl] at hs
        exact congrArg (45 :: ·) hs
  · rw [if_neg hminus]
    rw [decide_eq_false hminus] at hs hmax
    refine ⟨ds, hs, .nat hds ?_⟩
    rw [Num.intMax, if_neg (by decide)] at hmax
    omega

/-! ## Values

By induction on the fuel, for the six functions at once.
-/

theorem parseLiteral_eq_ok {word s s' : Str} {v v' : Value}
    (h : parseLiteral word v s = .ok (v', s')) : v' = v ∧ s = word ++ s' := by
  rw [parseLiteral] at h
  split at h
  · next hprefix =>
      cases h
      obtain ⟨rest, rfl⟩ := List.isPrefixOf_iff_prefix.mp hprefix
      rw [List.drop_left]
      exact ⟨rfl, rfl⟩
  · cases h

/-- What is parsed with `n` calls in each other is as the grammar has it. -/
structure Sound (n : ℕ) : Prop where
  value : ∀ {v s s'}, parseValue n s = .ok (v, s') → v.NoDouble → ∃ t, s = t ++ s' ∧ Text v t
  elements : ∀ {elems s s'}, parseElements n s = .ok (elems, s') → Value.NoDoubles elems →
    ∃ t, s = t ++ s' ∧ Elements elems t
  members : ∀ {members s s'}, parseMembers n s = .ok (members, s') → Value.NoDoubleMembers members →
    ∃ t, s = t ++ s' ∧ Members members t

theorem text_of_parseArray {n : ℕ} (ih : ∀ m < n, Sound m) {v : Value} {s s' : Str}
    (h : parseArray n (skipWhitespace s) = .ok (v, s')) (hv : v.NoDouble) :
    ∃ t, 91 :: s = t ++ s' ∧ Text v t := by
  obtain ⟨w, hs, hw⟩ := exists_blanks s
  cases n with
  | zero => cases h
  | succ n =>
      rw [parseArray] at h
      split at h
      · next hclose =>
          cases h
          obtain ⟨s₁, hs₁⟩ := List.head?_eq_some_iff.mp hclose
          refine ⟨91 :: (w ++ [93]), ?_, .emptyArray hw⟩
          rw [hs₁] at hs ⊢
          simp [hs]
      · obtain ⟨elems, s₁, helems, h⟩ := andThen_eq_ok.mp h
        cases h
        obtain ⟨t, ht, htext⟩ := (ih n (Nat.lt_succ_self n)).elements helems hv
        refine ⟨91 :: (w ++ t), ?_, .array hw htext⟩
        rw [ht] at hs
        simp [hs]

theorem text_of_parseObject {n : ℕ} (ih : ∀ m < n, Sound m) {v : Value} {s s' : Str}
    (h : parseObject n (skipWhitespace s) = .ok (v, s')) (hv : v.NoDouble) :
    ∃ t, 123 :: s = t ++ s' ∧ Text v t := by
  obtain ⟨w, hs, hw⟩ := exists_blanks s
  cases n with
  | zero => cases h
  | succ n =>
      rw [parseObject] at h
      split at h
      · next hclose =>
          cases h
          obtain ⟨s₁, hs₁⟩ := List.head?_eq_some_iff.mp hclose
          refine ⟨123 :: (w ++ [125]), ?_, .emptyObject hw⟩
          rw [hs₁] at hs ⊢
          simp [hs]
      · obtain ⟨members, s₁, hmembers, h⟩ := andThen_eq_ok.mp h
        cases h
        obtain ⟨t, ht, htext⟩ := (ih n (Nat.lt_succ_self n)).members hmembers hv
        refine ⟨123 :: (w ++ t), ?_, .object hw htext⟩
        rw [ht] at hs
        simp [hs]

theorem text_of_parseValue {n : ℕ} (ih : ∀ m < n, Sound m) {v : Value} {s s' : Str}
    (h : parseValue n s = .ok (v, s')) (hv : v.NoDouble) : ∃ t, s = t ++ s' ∧ Text v t := by
  have hdouble : ∀ d, v ≠ .double d := by
    rintro d rfl
    exact hv
  match n, s with
  | 0, _ => cases h
  | n + 1, [] => exact parseNumber_eq_ok h hdouble
  | n + 1, c :: s =>
      rw [parseValue] at h
      split at h
      · next hc =>
          obtain ⟨rfl, rfl⟩ := parseLiteral_eq_ok h
          exact ⟨ascii "null", hc ▸ rfl, .null⟩
      split at h
      · next hc =>
          obtain ⟨rfl, rfl⟩ := parseLiteral_eq_ok h
          exact ⟨ascii "true", hc ▸ rfl, .true⟩
      split at h
      · next hc =>
          obtain ⟨rfl, rfl⟩ := parseLiteral_eq_ok h
          exact ⟨ascii "false", hc ▸ rfl, .false⟩
      split at h
      · next hc =>
          obtain ⟨str, s₁, hstr, h⟩ := andThen_eq_ok.mp h
          cases h
          obtain ⟨t, rfl, ht⟩ := chars_of_parseChars hstr
          exact ⟨34 :: t, hc ▸ rfl, .string ht⟩
      split at h
      · next hc =>
          rw [hc]
          exact text_of_parseObject (fun m hm => ih m (hm.trans (Nat.lt_succ_self n))) h hv
      split at h
      · next hc =>
          rw [hc]
          exact text_of_parseArray (fun m hm => ih m (hm.trans (Nat.lt_succ_self n))) h hv
      exact parseNumber_eq_ok h hdouble

theorem elements_of_parseElements {n : ℕ} (ih : ∀ m < n, Sound m) {elems : List Value}
    {s s' : Str} (h : parseElements n s = .ok (elems, s')) (helems : Value.NoDoubles elems) :
    ∃ t, s = t ++ s' ∧ Elements elems t := by
  cases n with
  | zero => cases h
  | succ n =>
      obtain ⟨v, s₁, hvalue, hrest⟩ := andThen_eq_ok.mp h
      obtain ⟨w, hs₁, hw⟩ := exists_blanks s₁
      have hn := ih n (Nat.lt_succ_self n)
      split at hrest
      · next s₂ hcomma =>
          obtain ⟨elems', s₃, hmore, hend⟩ := andThen_eq_ok.mp hrest
          cases hend
          obtain ⟨hv, helems'⟩ := helems
          obtain ⟨t, rfl, ht⟩ := hn.value hvalue hv
          obtain ⟨w', hs₂, hw'⟩ := exists_blanks s₂
          obtain ⟨ts, hts, htext⟩ := hn.elements hmore helems'
          refine ⟨t ++ (w ++ 44 :: (w' ++ ts)), ?_, .cons ht hw hw' htext⟩
          rw [hcomma] at hs₁
          rw [hts] at hs₂
          simp [hs₁, hs₂]
      · next s₂ hclose =>
          cases hrest
          obtain ⟨t, rfl, ht⟩ := hn.value hvalue helems.1
          refine ⟨t ++ (w ++ [93]), ?_, .last ht hw⟩
          rw [hclose] at hs₁
          simp [hs₁]
      · cases hrest

theorem members_of_parseMembers {n : ℕ} (ih : ∀ m < n, Sound m) {members : List (Str × Value)}
    {s s' : Str} (h : parseMembers n s = .ok (members, s'))
    (hmembers : Value.NoDoubleMembers members) :
    ∃ t, s = t ++ s' ∧ Members members t := by
  cases n with
  | zero => cases h
  | succ n =>
      have hn := ih n (Nat.lt_succ_self n)
      rw [parseMembers] at h
      split at h
      · next hquote =>
          obtain ⟨s₀, rfl⟩ := List.head?_eq_some_iff.mp hquote
          obtain ⟨key, s₁, hkey, hrest⟩ := andThen_eq_ok.mp h
          obtain ⟨c, hc, hchars⟩ := chars_of_parseChars hkey
          obtain rfl : s₀ = c ++ s₁ := hc
          obtain ⟨w, hs₁, hw⟩ := exists_blanks s₁
          split at hrest
          · next s₂ hcolon =>
              obtain ⟨w', hs₂, hw'⟩ := exists_blanks s₂
              obtain ⟨v, s₃, hvalue, hrest⟩ := andThen_eq_ok.mp hrest
              obtain ⟨w'', hs₃, hw''⟩ := exists_blanks s₃
              rw [hcolon] at hs₁
              split at hrest
              · next s₄ hcomma =>
                  obtain ⟨members', s₅, hmore, hend⟩ := andThen_eq_ok.mp hrest
                  cases hend
                  obtain ⟨hv, hmembers'⟩ := hmembers
                  obtain ⟨t, ht, htext⟩ := hn.value hvalue hv
                  obtain ⟨w₃, hs₄, hw₃⟩ := exists_blanks s₄
                  obtain ⟨ts, hts, htexts⟩ := hn.members hmore hmembers'
                  refine ⟨_, ?_, .cons hchars hw hw' htext hw'' hw₃ htexts⟩
                  rw [hcomma] at hs₃
                  rw [hts] at hs₄
                  rw [ht] at hs₂
                  simp [hs₁, hs₂, hs₃, hs₄]
              · next s₄ hclose =>
                  cases hrest
                  obtain ⟨t, ht, htext⟩ := hn.value hvalue hmembers.1
                  refine ⟨_, ?_, .last hchars hw hw' htext hw''⟩
                  rw [hclose] at hs₃
                  rw [ht] at hs₂
                  simp [hs₁, hs₂, hs₃]
              · cases hrest
          · cases hrest
      · cases h

theorem sound (n : ℕ) : Sound n := by
  induction n using Nat.strong_induction_on with
  | _ n ih =>
      exact ⟨text_of_parseValue ih, elements_of_parseElements ih, members_of_parseMembers ih⟩

/-! ## The whole text -/

theorem text_of_parse {text : Str} {v : Value} (h : parse text = .ok v) (hv : v.NoDouble) :
    ∃ w t w', cstr text = w ++ (t ++ w') ∧ Blanks w ∧ Text v t ∧ Blanks w' := by
  obtain ⟨w, htext, hw⟩ := exists_blanks (cstr text)
  simp only [parse] at h
  split at h
  · cases h
  · split at h
    · cases h
    · next v' s hvalue =>
        split at h
        · next hend =>
            cases h
            obtain ⟨t, ht, htext'⟩ := (sound _).value hvalue hv
            refine ⟨w, t, s, ?_, hw, htext', List.dropWhile_eq_nil_iff.mp hend⟩
            rw [← ht]
            exact htext
        · cases h

/-- **The parser reads the grammar.**  The calls never run out, and a text is
parsed to a value that has no double in it if and only if, up to its first zero
byte, it is a text of that value with blanks before and after. -/
theorem parse_eq_ok_iff (text : Str) (v : Value) (hv : v.NoDouble) :
    parse text ≠ .error .termination ∧
      (parse text = .ok v ↔
        ∃ w t w', cstr text = w ++ (t ++ w') ∧ Blanks w ∧ Text v t ∧ Blanks w') := by
  refine ⟨parse_ne_termination text, fun h => text_of_parse h hv, ?_⟩
  rintro ⟨w, t, w', htext, hw, ht, hw'⟩
  exact parse_of_text htext hw ht hw'

/-- `{"a": 7}` -/
theorem parse_eq_ok_iff_one :
    parse (ascii "\x7b\"a\": 7\x7d") = .ok (.object [([97], .int 7)]) := by
  have hdigit : ∀ b ∈ ([55] : Str), dec.isDigit b = true := fun b h => by
    obtain rfl := List.mem_singleton.mp h
    rfl
  have hseven : Text (.int 7) [55] :=
    .nat ⟨List.cons_ne_nil _ _, hdigit, fun _ _ h _ => (List.cons.inj h).2.symm, rfl⟩ (by decide)
  have hkey : Chars [97] [97, 34] := .plain (by decide) (by decide) (by decide) .close
  have hnone : Blanks [] := fun _ h => by cases h
  have hblank : Blanks [32] := fun b h => by
    obtain rfl := List.mem_singleton.mp h
    rfl
  have hobject := Text.object hnone (.last hkey hnone hblank hseven hnone)
  exact (parse_eq_ok_iff _ _ (by simp [Value.NoDouble, Value.NoDoubleMembers])).2.mpr
    ⟨[], _, [], by decide, hnone, hobject, hnone⟩

end GenericReader

end Logkafka
