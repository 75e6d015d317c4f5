/-
# `Logkafka.Json.Complete` — every text is read as what it means

    t  --parse-->  v      for every text t of v, blanks around it

For a value the count of calls has to be three times the length of its text:
`Reads` says so for values, elements and members, and is proved by induction on
the count, the cases being the ones of the grammar.
-/
import Logkafka.Json.Grammar

namespace Logkafka

namespace GenericReader

open Grammar

/-! ## Blanks and strings -/

theorem skipWhitespace_of_not_blank {t : Str} (h : ∀ b, t.head? = some b → isBlank b = false) :
    skipWhitespace t = t := by
  cases t with
  | nil => rfl
  | cons b t => exact List.dropWhile_cons_of_neg (by simp [h b rfl])

@[simp] theorem skipWhitespace_append {w : Str} (hw : Blanks w) (t : Str) :
    skipWhitespace (w ++ t) = skipWhitespace t := by
  induction w with
  | nil => rfl
  | cons b w ih =>
      obtain ⟨hb, hw⟩ := List.forall_mem_cons.mp hw
      rw [List.cons_append, skipWhitespace, List.dropWhile_cons_of_pos hb]
      exact ih hw

/-- Blanks up to a byte that is none. -/
theorem skipWhitespace_blanks {w : Str} (hw : Blanks w) {b : Byte} (hb : isBlank b = false)
    (t : Str) : skipWhitespace (w ++ b :: t) = b :: t := by
  rw [skipWhitespace_append hw]
  refine skipWhitespace_of_not_blank fun b' h => ?_
  cases h
  exact hb

theorem utf8Encode_toNat (c : Char) : utf8Encode c.toNat = String.utf8EncodeChar c := by
  have hmax : c.toNat < 0x110000 := by
    have := c.valid
    simp only [UInt32.isValidChar, Nat.isValidChar] at this
    show c.val.toNat < _
    omega
  rw [String.utf8EncodeChar]
  simp only [utf8Encode, show c.val.toNat = c.toNat from rfl]
  split
  · rfl
  split
  · rw [Nat.mod_eq_of_lt (show c.toNat / 64 < 0x20 by omega), Nat.add_comm 0xC0,
      Nat.add_comm 0x80]
  split
  · rw [Nat.mod_eq_of_lt (show c.toNat / 4096 < 0x10 by omega), Nat.add_comm 0xE0,
      Nat.add_comm 0x80, Nat.add_comm 0x80]
  · rw [Nat.mod_eq_of_lt (show c.toNat / 262144 < 0x08 by omega), Nat.add_comm 0xF0,
      Nat.add_comm 0x80, Nat.add_comm 0x80, Nat.add_comm 0x80]

theorem parseHex4_append {h : Str} {n : ℕ} (hh : Hex4 h n) (t : Str) :
    parseHex4 (h ++ t) = .ok (n, t) := by
  obtain ⟨hlength, hdigits, rfl⟩ := hh
  match h, hlength with
  | [a, b, c, d], _ =>
      simp only [List.forall_mem_cons, Numeral.isDigit, Option.isSome_iff_exists] at hdigits
      obtain ⟨⟨a', ha⟩, ⟨b', hb⟩, ⟨c', hc⟩, ⟨d', hd⟩, -⟩ := hdigits
      simp [parseHex4, ha, hb, hc, hd, Numeral.value]
      rfl

/-- A round of the loop that puts `out`. -/
theorem parseChars_succ {n : ℕ} {s s' s'' out str : Str} (hchar : parseChar s = .ok (some out, s'))
    (hrest : parseChars n s' = .ok (str, s'')) :
    parseChars (n + 1) s = .ok (out ++ str, s'') := by
  simp only [parseChars, hchar, andThen_ok, hrest]

theorem not_surrogate (c : Char) : c.toNat < 0xD800 ∨ 0xDFFF < c.toNat := by
  have := c.valid
  simp only [UInt32.isValidChar, Nat.isValidChar] at this
  show c.val.toNat < _ ∨ _ < c.val.toNat
  omega

theorem parseChar_unicode {h : Str} {n : ℕ} (hh : Hex4 h n) (hn : ¬ (0xD800 ≤ n ∧ n ≤ 0xDBFF))
    (t : Str) : parseChar (92 :: 117 :: (h ++ t)) = .ok (some (utf8Encode n), t) := by
  have hunicode : parseUnicode (h ++ t) = .ok (utf8Encode n, t) := by
    rw [parseUnicode, parseHex4_append hh, andThen_ok, if_neg hn]
  simp [parseChar, parseEscape, escape, hunicode]

theorem parseChar_surrogates {c : Char} {h h' : Str} {high low : ℕ} (hh : Hex4 h (0xD800 + high))
    (hh' : Hex4 h' (0xDC00 + low)) (hhigh : high < 0x400) (hlow : low < 0x400)
    (hc : c.toNat = 0x10000 + high * 0x400 + low) (t : Str) :
    parseChar (92 :: 117 :: (h ++ 92 :: 117 :: (h' ++ t))) =
      .ok (some (String.utf8EncodeChar c), t) := by
  have hunicode : parseUnicode (h ++ 92 :: 117 :: (h' ++ t)) =
      .ok (String.utf8EncodeChar c, t) := by
    rw [parseUnicode, parseHex4_append hh, andThen_ok, if_pos (by omega)]
    simp only [parseHex4_append hh', andThen_ok]
    rw [if_neg (by omega), ← utf8Encode_toNat, hc,
      show (0xD800 + high - 0xD800) * 0x400 + (0xDC00 + low - 0xDC00) + 0x10000 =
        0x10000 + high * 0x400 + low by omega]
  simp [parseChar, parseEscape, escape, hunicode]

theorem parseChars_of_chars {s t : Str} (h : Chars s t) {n : ℕ} (hn : t.length ≤ n) (rest : Str) :
    parseChars n (t ++ rest) = .ok (s, rest) := by
  induction h generalizing n with
  | close =>
      obtain ⟨n, rfl⟩ := Nat.exists_eq_add_of_le' hn
      simp [parseChars, parseChar]
  | @plain c s t hlow hquote hslash _ ih =>
      obtain ⟨n, rfl⟩ := Nat.exists_eq_add_of_le' (Nat.one_le_of_lt hn)
      show parseChars (n + 1) _ = .ok ([c] ++ s, rest)
      refine parseChars_succ ?_ (ih (by simpa using hn))
      have hzero : c ≠ 0 := by
        rintro rfl
        exact absurd hlow (by decide)
      simp [parseChar, hslash, hquote, hzero, UInt8.not_lt.mpr hlow]
  | @escaped e c s t hescape _ ih =>
      obtain ⟨n, rfl⟩ := Nat.exists_eq_add_of_le' (Nat.one_le_of_lt hn)
      show parseChars (n + 1) _ = .ok ([c] ++ s, rest)
      refine parseChars_succ ?_ (ih (by simp at hn; omega))
      simp [parseChar, parseEscape, hescape]
  | @unicode c h s t hh _ ih =>
      obtain ⟨n, rfl⟩ := Nat.exists_eq_add_of_le' (Nat.one_le_of_lt hn)
      have hc := not_surrogate c
      rw [List.cons_append, List.cons_append, List.append_assoc, ← utf8Encode_toNat]
      exact parseChars_succ (parseChar_unicode hh (by omega) _) (ih (by simp at hn; omega))
  | @lone h s t low hh hlow _ ih =>
      obtain ⟨n, rfl⟩ := Nat.exists_eq_add_of_le' (Nat.one_le_of_lt hn)
      rw [List.cons_append, List.cons_append, List.append_assoc]
      exact parseChars_succ (parseChar_unicode hh (by omega) _) (ih (by simp at hn; omega))
  | @surrogates c h h' s t high low hh hh' hhigh hlow hc _ ih =>
      obtain ⟨n, rfl⟩ := Nat.exists_eq_add_of_le' (Nat.one_le_of_lt hn)
      simp only [List.cons_append, List.append_assoc]
      exact parseChars_succ (parseChar_surrogates hh hh' hhigh hlow hc _)
        (ih (by simp at hn; omega))

theorem parseString_of_chars {s t : Str} (h : Chars s t) (rest : Str) :
    parseString (t ++ rest) = .ok (s, rest) :=
  parseChars_of_chars h (by simp; omega) rest

/-! ## Numbers

Which type a number has is decided digit by digit, so the induction is over the
digits that were taken so far.
-/

/-- What may follow a value. -/
def Follows (rest : Str) : Prop := ∀ b, rest.head? = some b → b = 44 ∨ b = 93 ∨ b = 125 ∨ isBlank b

theorem Follows.not_number {b : Byte} {rest : Str} (h : Follows (b :: rest)) :
    dec.value? b = none ∧ b ≠ 46 ∧ b ≠ 101 ∧ b ≠ 69 := by
  have hblank : ∀ b, isBlank b = true → b = 32 ∨ b = 10 ∨ b = 13 ∨ b = 9 := by
    intro b hb
    simpa [isBlank, or_assoc] using hb
  rcases h b rfl with rfl | rfl | rfl | hb
  · decide
  · decide
  · decide
  · rcases hblank b hb with rfl | rfl | rfl | rfl <;> decide

namespace Num

/-- The greatest integer, and the least one without its sign. -/
def intMax (minus : Bool) : ℕ := if minus then 2 ^ 63 else 2 ^ 64 - 1

/-- A number with more digits after it. -/
def after (n : ℕ) (ds : Str) : ℕ :=
  ds.foldl (fun n b => n * dec.base + (dec.value? b).getD 0) n

/-- So far it is an integer. -/
structure IsInt (num : Num) (minus : Bool) (n : ℕ) : Prop where
  minus_eq : num.minus = minus
  i64_eq : num.i64 = n
  useDouble_eq : num.useDouble = false

variable {num : Num} {minus : Bool} {n digit : ℕ} {ds rest : Str}

theorem after_cons {b : Byte} (h : dec.value? b = some digit) :
    after n (b :: ds) = after (n * 10 + digit) ds := by
  show after (n * dec.base + (dec.value? b).getD 0) ds = _
  rw [h]
  rfl

theorem le_after (n : ℕ) (ds : Str) : n ≤ after n ds := by
  induction ds generalizing n with
  | nil => exact Nat.le_refl n
  | cons b ds ih =>
      have hfirst : n ≤ n * dec.base + (dec.value? b).getD 0 :=
        (Nat.le_mul_of_pos_right n dec.base_pos).trans (Nat.le_add_right _ _)
      exact hfirst.trans (ih _)

theorem IsInt.push (h : num.IsInt minus n) (digit : ℕ) :
    (num.push digit).IsInt minus (n * 10 + digit) :=
  ⟨h.minus_eq, by simp [Num.push, h.i64_eq], h.useDouble_eq⟩

theorem int64_of_le (h : num.IsInt minus n) (hmax : n * 10 + digit ≤ intMax minus) :
    num.int64 digit = .ok (num.push digit, true) := by
  rw [int64, if_neg]
  rw [h.minus_eq]
  simp only [Over, h.i64_eq]
  cases minus with
  | false =>
      rw [intMax, if_neg (by decide)] at hmax
      simp only [Bool.false_eq_true, if_false]
      omega
  | true =>
      rw [intMax, if_pos rfl] at hmax
      simp only [if_true]
      omega

theorem whileDigit_end (round : Num → ℕ → Except ParseErrorCode (Num × Bool)) (num : Num)
    (h : Follows rest) : whileDigit round num rest = .ok (num, rest) := by
  cases rest with
  | nil => rfl
  | cons b rest => rw [whileDigit, h.not_number.1]

theorem whileDigit_int64 (hds : ∀ b ∈ ds, dec.isDigit b = true) (hrest : Follows rest)
    (h : num.IsInt minus n) (hmax : after n ds ≤ intMax minus) :
    ∃ num', whileDigit int64 num (ds ++ rest) = .ok (num', rest) ∧
      num'.IsInt minus (after n ds) := by
  induction ds generalizing num n with
  | nil => exact ⟨num, whileDigit_end _ _ hrest, h⟩
  | cons b ds ih =>
      obtain ⟨hb, hds⟩ := List.forall_mem_cons.mp hds
      obtain ⟨digit, hdigit⟩ := Option.isSome_iff_exists.mp hb
      rw [after_cons hdigit] at hmax ⊢
      obtain ⟨num', hrun, hnum'⟩ := ih hds (h.push digit) hmax
      refine ⟨num', ?_, hnum'⟩
      rw [List.cons_append, whileDigit, hdigit]
      simp only [int64_of_le h ((le_after _ _).trans hmax)]
      exact hrun

/-- The loop for 32 bits takes all digits, or leaves some to the one for 64. -/
theorem whileDigit_int32 (hds : ∀ b ∈ ds, dec.isDigit b = true) (hrest : Follows rest)
    (h : num.IsInt minus n) (hnarrow : num.use64bit = false) :
    ∃ num' ds' n', whileDigit int32 num (ds ++ rest) = .ok (num', ds' ++ rest) ∧
      num'.IsInt minus n' ∧ after n' ds' = after n ds ∧ (∀ b ∈ ds', dec.isDigit b = true) ∧
      (num'.use64bit = false → ds' = []) := by
  induction ds generalizing num n with
  | nil =>
      exact ⟨num, [], n, whileDigit_end _ _ hrest, h, rfl, hds, fun _ => rfl⟩
  | cons b ds ih =>
      obtain ⟨hb, hrestds⟩ := List.forall_mem_cons.mp hds
      obtain ⟨digit, hdigit⟩ := Option.isSome_iff_exists.mp hb
      rw [List.cons_append, whileDigit, hdigit]
      by_cases hover :
          if num.minus then Over 214748364 8 num digit else Over 429496729 5 num digit
      · refine ⟨{ num with use64bit := true }, b :: ds, n, ?_, ⟨h.minus_eq, h.i64_eq,
          h.useDouble_eq⟩, rfl, hds, fun hnot => by cases hnot⟩
        simp only [int32, if_pos hover]
        rfl
      · obtain ⟨num', ds', n', hrun, hint, hafter, hds', hall⟩ :=
          ih hrestds (h.push digit) hnarrow
        refine ⟨num', ds', n', ?_, hint, ?_, hds', hall⟩
        · simp only [int32, if_neg hover]
          exact hrun
        · rw [hafter, after_cons hdigit]

end Num

theorem parseInt_digits {minus : Bool} {ds rest : Str} {n : ℕ} (h : Digits ds n)
    (hmax : n ≤ Num.intMax minus) (hrest : Follows rest) :
    ∃ num, parseInt minus (ds ++ rest) = .ok (num, rest) ∧ num.IsInt minus n := by
  obtain ⟨hnil, hdigits, hfirst, rfl⟩ := h
  obtain ⟨c, ds, rfl⟩ := List.exists_cons_of_ne_nil hnil
  obtain ⟨hc, hds⟩ := List.forall_mem_cons.mp hdigits
  obtain ⟨digit, hdigit⟩ := Option.isSome_iff_exists.mp hc
  have hvalue : dec.value (c :: ds) = Num.after digit ds := by
    show Num.after 0 (c :: ds) = _
    rw [Num.after_cons hdigit]
    congr 1
    omega
  rw [hvalue] at hmax ⊢
  simp only [List.cons_append, parseInt, hdigit]
  set start : Num := ⟨minus, digit, 0, false, false, 0, 0, 0⟩ with hstart
  have hint : start.IsInt minus digit := ⟨rfl, rfl, rfl⟩
  by_cases hzero : digit = 0
  · obtain rfl := hfirst c ds rfl (hzero ▸ hdigit)
    exact ⟨start, by rw [if_pos hzero]; rfl, hint⟩
  · rw [if_neg hzero]
    obtain ⟨num', ds', n', hrun, hint', hafter, hds', hall⟩ :=
      Num.whileDigit_int32 hds hrest hint rfl
    rw [hrun, andThen_ok]
    cases hwide : num'.use64bit with
    | false =>
        obtain rfl := hall hwide
        exact ⟨num', by simp, hafter ▸ hint'⟩
    | true =>
        obtain ⟨num'', hrun', hint''⟩ := Num.whileDigit_int64 hds' hrest hint' (hafter ▸ hmax)
        refine ⟨num'', ?_, hafter ▸ hint''⟩
        simp only [if_true, hrun', andThen_ok, hint''.useDouble_eq, Bool.false_eq_true, if_false]

theorem parseNumber_of_int {num : Num} {minus : Bool} {n : ℕ} {rest : Str}
    (h : num.IsInt minus n) (hrest : Follows rest) :
    (andThen (parseFrac num rest) fun num s =>
      andThen (parseExp num s) fun num s => .ok (num.1.value num.2, s)) =
      .ok (.int (if minus then -n else n), rest) := by
  have hvalue : num.value false = .int (if minus then -n else n) := by
    simp [Num.value, h.useDouble_eq, h.minus_eq, h.i64_eq]
  cases rest with
  | nil => simp only [parseFrac, parseExp, andThen_ok, hvalue]
  | cons b rest =>
      obtain ⟨-, hpoint, he, hE⟩ := hrest.not_number
      simp only [parseFrac, parseExp, if_neg hpoint, if_neg (not_or.mpr ⟨he, hE⟩), andThen_ok,
        hvalue]

theorem parseNumber_cons {c : Byte} (hc : c ≠ 45) (s : Str) :
    parseNumber (c :: s) = andThen (parseInt false (c :: s)) fun num s =>
      andThen (parseFrac num s) fun num s =>
        andThen (parseExp num s) fun num s => .ok (num.1.value num.2, s) := by
  simp [parseNumber, hc]

theorem parseNumber_nat {n : ℕ} {ds rest : Str} (h : Digits ds n) (hmax : n < 2 ^ 64)
    (hrest : Follows rest) : parseNumber (ds ++ rest) = .ok (.int n, rest) := by
  have hfit : n ≤ Num.intMax false := by
    rw [Num.intMax, if_neg (by decide)]
    omega
  obtain ⟨num, hparse, hint⟩ := parseInt_digits h hfit hrest
  obtain ⟨c, ds, rfl⟩ := List.exists_cons_of_ne_nil h.ne_nil
  have hc : c ≠ 45 := by
    rintro rfl
    exact absurd (h.digits 45 List.mem_cons_self) (by decide)
  rw [List.cons_append, parseNumber_cons hc, ← List.cons_append, hparse, andThen_ok,
    parseNumber_of_int hint hrest, if_neg (by decide)]

theorem parseNumber_neg {n : ℕ} {ds rest : Str} (h : Digits ds n) (hmax : n ≤ 2 ^ 63)
    (hrest : Follows rest) : parseNumber (45 :: (ds ++ rest)) = .ok (.int (-n), rest) := by
  have hfit : n ≤ Num.intMax true := hmax
  obtain ⟨num, hparse, hint⟩ := parseInt_digits h hfit hrest
  simp only [parseNumber, List.head?_cons, decide_true, if_true, List.tail_cons, hparse, andThen_ok]
  rw [parseNumber_of_int hint hrest, if_pos rfl]

/-! ## Values

By induction on the grammar, each text with what follows it.
-/

theorem follows_blanks {w : Str} (hw : Blanks w) {b : Byte} (hb : b = 44 ∨ b = 93 ∨ b = 125)
    (rest : Str) : Follows (w ++ b :: rest) := by
  cases w with
  | nil =>
      rintro _ ⟨⟩
      rcases hb with hb | hb | hb
      · exact Or.inl hb
      · exact Or.inr (Or.inl hb)
      · exact Or.inr (Or.inr (Or.inl hb))
  | cons c w =>
      rintro _ ⟨⟩
      exact Or.inr (Or.inr (Or.inr (hw c List.mem_cons_self)))

/-- What a text of a value, or of the elements of an array, begins with. -/
def Begins (t : Str) : Prop := ∃ c s, t = c :: s ∧ isBlank c = false ∧ c ≠ 93

theorem Begins.append {t : Str} (h : Begins t) (rest : Str) : Begins (t ++ rest) := by
  obtain ⟨c, s, rfl, hblank, hclose⟩ := h
  exact ⟨c, s ++ rest, rfl, hblank, hclose⟩

theorem Begins.skipWhitespace {t : Str} (h : Begins t) {w : Str} (hw : Blanks w) :
    skipWhitespace (w ++ t) = t := by
  obtain ⟨c, s, rfl, hblank, -⟩ := h
  exact skipWhitespace_blanks hw hblank s

theorem sign_or_digit {c : Byte} (h : c = 45 ∨ dec.isDigit c = true) :
    isBlank c = false ∧ c ≠ 93 ∧ c ≠ 110 ∧ c ≠ 116 ∧ c ≠ 102 ∧ c ≠ 34 ∧ c ≠ 123 ∧ c ≠ 91 := by
  have hne : ∀ b, ¬ (b = 45 ∨ dec.isDigit b = true) → c ≠ b := fun b hb hc => hb (hc ▸ h)
  refine ⟨?_, hne 93 (by decide), hne 110 (by decide), hne 116 (by decide), hne 102 (by decide),
    hne 34 (by decide), hne 123 (by decide), hne 91 (by decide)⟩
  simp [isBlank, hne 32 (by decide), hne 10 (by decide), hne 13 (by decide), hne 9 (by decide)]

theorem begins_text {v : Value} {t : Str} (h : Text v t) : Begins t := by
  cases h with
  | null | true | false => exact ⟨_, _, rfl, by decide, by decide⟩
  | string | emptyArray | array | emptyObject | object | neg =>
      exact ⟨_, _, rfl, by decide, by decide⟩
  | nat h =>
      obtain ⟨c, ds, rfl⟩ := List.exists_cons_of_ne_nil h.ne_nil
      have hc := sign_or_digit (Or.inr (h.digits c List.mem_cons_self))
      exact ⟨c, ds, rfl, hc.1, hc.2.1⟩

theorem begins_elements {elems : List Value} {t : Str} (h : Elements elems t) : Begins t := by
  cases h with
  | last h | cons h => exact (begins_text h).append _

theorem begins_members {members : List (Str × Value)} {t : Str} (h : Members members t) :
    ∃ s, t = 34 :: s := by
  cases h with
  | last | cons => exact ⟨_, rfl⟩

theorem parseLiteral_append (word rest : Str) (v : Value) :
    parseLiteral word v (word ++ rest) = .ok (v, rest) := by
  have hprefix : word.isPrefixOf (word ++ rest) = true :=
    List.isPrefixOf_iff_prefix.mpr (List.prefix_append _ _)
  rw [parseLiteral, if_pos hprefix, List.drop_left]

theorem parseValue_number (m : ℕ) {c : Byte} (hc : c = 45 ∨ dec.isDigit c = true) (s : Str) :
    parseValue (m + 1) (c :: s) = parseNumber (c :: s) := by
  obtain ⟨-, -, hn, ht, hf, hquote, hobject, harray⟩ := sign_or_digit hc
  rw [parseValue, if_neg hn, if_neg ht, if_neg hf, if_neg hquote, if_neg hobject, if_neg harray]

/-- `n` calls in each other are enough for a text that is three times shorter. -/
structure Reads (n : ℕ) : Prop where
  value : ∀ {v t}, Text v t → 3 * t.length ≤ n → ∀ rest, Follows rest →
    parseValue n (t ++ rest) = .ok (v, rest)
  elements : ∀ {elems t}, Elements elems t → 3 * t.length ≤ n → ∀ rest,
    parseElements n (t ++ rest) = .ok (elems, rest)
  members : ∀ {members t}, Members members t → 3 * t.length ≤ n → ∀ rest,
    parseMembers n (t ++ rest) = .ok (members, rest)

theorem parseArray_of_elements {n : ℕ} (ih : Reads n) {elems : List Value} {w t : Str}
    (hw : Blanks w) (h : Elements elems t) (hn : 3 * t.length ≤ n) (rest : Str) :
    parseArray (n + 1) (skipWhitespace (w ++ (t ++ rest))) = .ok (.array elems, rest) := by
  rw [((begins_elements h).append rest).skipWhitespace hw]
  obtain ⟨c, s, ht, -, hclose⟩ := begins_elements h
  have hopen : ¬ (t ++ rest).head? = some 93 := by
    rw [ht]
    exact fun h => hclose (Option.some.inj h)
  rw [parseArray, if_neg hopen, ih.elements h hn rest, andThen_ok]

theorem parseObject_of_members {n : ℕ} (ih : Reads n) {members : List (Str × Value)}
    {w t : Str} (hw : Blanks w) (h : Members members t) (hn : 3 * t.length ≤ n) (rest : Str) :
    parseObject (n + 1) (skipWhitespace (w ++ (t ++ rest))) = .ok (.object members, rest) := by
  have hmembers := ih.members h hn rest
  obtain ⟨s, rfl⟩ := begins_members h
  rw [List.cons_append] at hmembers ⊢
  rw [skipWhitespace_blanks hw (by decide), parseObject, if_neg (by simp), hmembers, andThen_ok]

theorem parseValue_of_text {n : ℕ} (ih : ∀ m < n, Reads m) {v : Value} {t : Str}
    (h : Text v t) (hn : 3 * t.length ≤ n) (rest : Str) (hrest : Follows rest) :
    parseValue n (t ++ rest) = .ok (v, rest) := by
  obtain ⟨c, s, ht, -⟩ := begins_text h
  obtain ⟨m, rfl⟩ : ∃ m, n = m + 2 := by
    refine ⟨n - 2, ?_⟩
    rw [ht, List.length_cons] at hn
    omega
  cases h with
  | null => exact parseLiteral_append (ascii "ull") rest .null
  | true => exact parseLiteral_append (ascii "rue") rest (.bool true)
  | false => exact parseLiteral_append (ascii "alse") rest (.bool false)
  | @nat n ds h hmax =>
      obtain rfl : t = c :: s := ht
      rw [List.cons_append, parseValue_number _ (Or.inr (h.digits c List.mem_cons_self)),
        ← List.cons_append]
      exact parseNumber_nat h hmax hrest
  | neg h hmax =>
      rw [List.cons_append, parseValue_number _ (Or.inl rfl)]
      exact parseNumber_neg h hmax hrest
  | string h => simp [parseValue, parseString_of_chars h]
  | @emptyArray w hw =>
      have hskip : skipWhitespace (w ++ 93 :: rest) = 93 :: rest :=
        skipWhitespace_blanks hw (by decide) rest
      simp [parseValue, parseArray, hskip]
  | @emptyObject w hw =>
      have hskip : skipWhitespace (w ++ 125 :: rest) = 125 :: rest :=
        skipWhitespace_blanks hw (by decide) rest
      simp [parseValue, parseObject, hskip]
  | array hw h =>
      rw [List.length_cons, List.length_append] at hn
      have harray := parseArray_of_elements (ih m (by omega)) hw h (by omega) rest
      simpa [parseValue] using harray
  | object hw h =>
      rw [List.length_cons, List.length_append] at hn
      have hobject := parseObject_of_members (ih m (by omega)) hw h (by omega) rest
      simpa [parseValue] using hobject

theorem parseElements_of_elements {n : ℕ} (ih : ∀ m < n, Reads m) {elems : List Value}
    {t : Str} (h : Elements elems t) (hn : 3 * t.length ≤ n) (rest : Str) :
    parseElements n (t ++ rest) = .ok (elems, rest) := by
  obtain ⟨m, rfl⟩ : ∃ m, n = m + 1 := by
    refine ⟨n - 1, ?_⟩
    obtain ⟨c, s, ht, -⟩ := begins_elements h
    rw [ht, List.length_cons] at hn
    omega
  have hm := ih m (by omega)
  cases h with
  | @last v t w h hw =>
      simp only [List.length_append, List.length_singleton] at hn
      have hvalue := hm.value h (by omega) _ (follows_blanks hw (b := 93) (by simp) rest)
      have hskip : skipWhitespace (w ++ 93 :: rest) = 93 :: rest :=
        skipWhitespace_blanks hw (by decide) rest
      simp only [List.append_assoc, List.singleton_append, parseElements, hvalue, andThen_ok, hskip]
  | @cons v t w w' ts elems h hw hw' hrest =>
      simp only [List.length_append, List.length_cons] at hn
      have hvalue := hm.value h (by omega) _
        (follows_blanks hw (b := 44) (by simp) (w' ++ (ts ++ rest)))
      have hskip : skipWhitespace (w ++ 44 :: (w' ++ (ts ++ rest))) = 44 :: (w' ++ (ts ++ rest)) :=
        skipWhitespace_blanks hw (by decide) _
      have helems := hm.elements hrest (by omega) rest
      simp only [List.append_assoc, List.cons_append, parseElements, hvalue, andThen_ok, hskip,
        ((begins_elements hrest).append rest).skipWhitespace hw', helems]

theorem parseMembers_of_members {n : ℕ} (ih : ∀ m < n, Reads m) {members : List (Str × Value)}
    {t : Str} (h : Members members t) (hn : 3 * t.length ≤ n) (rest : Str) :
    parseMembers n (t ++ rest) = .ok (members, rest) := by
  obtain ⟨m, rfl⟩ : ∃ m, n = m + 1 := by
    refine ⟨n - 1, ?_⟩
    obtain ⟨s, ht⟩ := begins_members h
    rw [ht, List.length_cons] at hn
    omega
  have hm := ih m (by omega)
  cases h with
  | @last key c w w' t w'' v hkey hw hw' h hw'' =>
      simp only [List.length_append, List.length_cons, List.length_nil] at hn
      have hcolon : skipWhitespace (w ++ 58 :: (w' ++ (t ++ (w'' ++ 125 :: rest)))) =
          58 :: (w' ++ (t ++ (w'' ++ 125 :: rest))) := skipWhitespace_blanks hw (by decide) _
      have hvalue := hm.value h (by omega) _ (follows_blanks hw'' (b := 125) (by simp) rest)
      have hskip : skipWhitespace (w'' ++ 125 :: rest) = 125 :: rest :=
        skipWhitespace_blanks hw'' (by decide) rest
      simp only [List.cons_append, List.append_assoc, List.nil_append, parseMembers,
        List.head?_cons, if_true, List.tail_cons, parseString_of_chars hkey, andThen_ok, hcolon,
        ((begins_text h).append _).skipWhitespace hw', hvalue, hskip]
  | @cons key c w w' t w'' w₃ ts v members hkey hw hw' h hw'' hw₃ hrest =>
      simp only [List.length_append, List.length_cons] at hn
      have hcolon : skipWhitespace (w ++ 58 :: (w' ++ (t ++ (w'' ++ 44 :: (w₃ ++ (ts ++ rest)))))) =
          58 :: (w' ++ (t ++ (w'' ++ 44 :: (w₃ ++ (ts ++ rest))))) :=
        skipWhitespace_blanks hw (by decide) _
      have hvalue := hm.value h (by omega) _
        (follows_blanks hw'' (b := 44) (by simp) (w₃ ++ (ts ++ rest)))
      have hskip : skipWhitespace (w'' ++ 44 :: (w₃ ++ (ts ++ rest))) =
          44 :: (w₃ ++ (ts ++ rest)) := skipWhitespace_blanks hw'' (by decide) _
      have hmembers := hm.members hrest (by omega) rest
      have hnext : skipWhitespace (w₃ ++ (ts ++ rest)) = ts ++ rest := by
        obtain ⟨s, rfl⟩ := begins_members hrest
        exact skipWhitespace_blanks hw₃ (by decide) _
      simp only [List.cons_append, List.append_assoc, parseMembers, List.head?_cons, if_true,
        List.tail_cons, parseString_of_chars hkey, andThen_ok, hcolon,
        ((begins_text h).append _).skipWhitespace hw', hvalue, hskip, hnext, hmembers]

theorem reads (n : ℕ) : Reads n := by
  induction n using Nat.strong_induction_on with
  | _ n ih =>
      exact ⟨parseValue_of_text ih, parseElements_of_elements ih, parseMembers_of_members ih⟩

/-! ## The whole text -/

theorem parse_of_text {text : Str} {v : Value} {w t w' : Str} (htext : cstr text = w ++ (t ++ w'))
    (hw : Blanks w) (h : Text v t) (hw' : Blanks w') : parse text = .ok v := by
  have hfollows : Follows w' := fun b hb =>
    Or.inr (Or.inr (Or.inr (hw' b (List.mem_of_head? hb))))
  have hvalue := (reads (3 * (t ++ w').length + 1)).value h (by simp; omega) w' hfollows
  have hblank : skipWhitespace w' = [] := List.dropWhile_eq_nil_iff.mpr hw'
  have hbegins := (begins_text h).append w'
  simp only [parse, htext, hbegins.skipWhitespace hw]
  obtain ⟨c, s, ht, -⟩ := hbegins
  rw [if_neg (by rw [ht]; exact List.cons_ne_nil c s), hvalue]
  simp only [hblank, if_true]

end GenericReader

end Logkafka
