/-
# `Logkafka.Json.Grammar` — the texts of JSON

Relations between what is meant and the text of it:

    Text      a value
    Elements  the elements of an array, with the closing bracket
    Members   the members of an object, with the closing bracket
    Chars     the characters of a string, with the closing quote
    Digits    a number without its sign

Blanks may stand between any two tokens, and a character may be escaped or not.
The numbers are integers of 64 bits.  One with a fraction, with an exponent or out
of their range is a double to rapidjson, and has no text here.
-/
import Logkafka.Json.Reader

namespace Logkafka

mutual

/-- There is no double in it. -/
def Value.NoDouble : Value → Prop
  | .double _ => False
  | .array elems => Value.NoDoubles elems
  | .object members => Value.NoDoubleMembers members
  | .null | .bool _ | .int _ | .string _ => True

def Value.NoDoubles : List Value → Prop
  | [] => True
  | v :: elems => v.NoDouble ∧ Value.NoDoubles elems

def Value.NoDoubleMembers : List (Str × Value) → Prop
  | [] => True
  | (_, v) :: members => v.NoDouble ∧ Value.NoDoubleMembers members

end

namespace Grammar

open GenericReader

/-- What may stand between two tokens. -/
def Blanks (w : Str) : Prop := ∀ b ∈ w, isBlank b = true

/-- Four hexadecimal digits, in either case. -/
structure Hex4 (h : Str) (n : ℕ) : Prop where
  length : h.length = 4
  digits : ∀ b ∈ h, hex.isDigit b = true
  value : hex.value h = n

/-- Decimal digits, without a zero in front. -/
structure Digits (ds : Str) (n : ℕ) : Prop where
  ne_nil : ds ≠ []
  digits : ∀ b ∈ ds, dec.isDigit b = true
  first : ∀ c ds', ds = c :: ds' → dec.value? c = some 0 → ds' = []
  value : dec.value ds = n

inductive Chars : Str → Str → Prop
  | close : Chars [] [34]
  | plain {c : Byte} {s t : Str} : 0x20 ≤ c → c ≠ 34 → c ≠ 92 → Chars s t →
      Chars (c :: s) (c :: t)
  | escaped {e c : Byte} {s t : Str} : escape e = some c → Chars s t →
      Chars (c :: s) (92 :: e :: t)
  | unicode {c : Char} {h s t : Str} : Hex4 h c.toNat → Chars s t →
      Chars (String.utf8EncodeChar c ++ s) (92 :: 117 :: (h ++ t))
  /-- a low surrogate by itself, which is no character, is put as if it were one -/
  | lone {h s t : Str} {low : ℕ} : Hex4 h (0xDC00 + low) → low < 0x400 → Chars s t →
      Chars (utf8Encode (0xDC00 + low) ++ s) (92 :: 117 :: (h ++ t))
  /-- a character of four bytes, as a surrogate pair -/
  | surrogates {c : Char} {h h' s t : Str} {high low : ℕ} : Hex4 h (0xD800 + high) →
      Hex4 h' (0xDC00 + low) → high < 0x400 → low < 0x400 →
      c.toNat = 0x10000 + high * 0x400 + low → Chars s t →
      Chars (String.utf8EncodeChar c ++ s) (92 :: 117 :: (h ++ 92 :: 117 :: (h' ++ t)))

mutual

inductive Text : Value → Str → Prop
  | null : Text .null (ascii "null")
  | true : Text (.bool true) (ascii "true")
  | false : Text (.bool false) (ascii "false")
  | nat {n : ℕ} {ds : Str} : Digits ds n → n < 2 ^ 64 → Text (.int n) ds
  | neg {n : ℕ} {ds : Str} : Digits ds n → n ≤ 2 ^ 63 → Text (.int (-n)) (45 :: ds)
  | string {s t : Str} : Chars s t → Text (.string s) (34 :: t)
  | emptyArray {w : Str} : Blanks w → Text (.array []) (91 :: (w ++ [93]))
  | array {w t : Str} {elems : List Value} : Blanks w → Elements elems t →
      Text (.array elems) (91 :: (w ++ t))
  | emptyObject {w : Str} : Blanks w → Text (.object []) (123 :: (w ++ [125]))
  | object {w t : Str} {members : List (Str × Value)} : Blanks w → Members members t →
      Text (.object members) (123 :: (w ++ t))

inductive Elements : List Value → Str → Prop
  | last {v : Value} {t w : Str} : Text v t → Blanks w → Elements [v] (t ++ (w ++ [93]))
  | cons {v : Value} {t w w' ts : Str} {elems : List Value} : Text v t → Blanks w → Blanks w' →
      Elements elems ts → Elements (v :: elems) (t ++ (w ++ 44 :: (w' ++ ts)))

inductive Members : List (Str × Value) → Str → Prop
  | last {key c w w' t w'' : Str} {v : Value} : Chars key c → Blanks w → Blanks w' → Text v t →
      Blanks w'' → Members [(key, v)] (34 :: (c ++ (w ++ 58 :: (w' ++ (t ++ (w'' ++ [125]))))))
  | cons {key c w w' t w'' w₃ ts : Str} {v : Value} {members : List (Str × Value)} :
      Chars key c → Blanks w → Blanks w' → Text v t → Blanks w'' → Blanks w₃ →
      Members members ts →
      Members ((key, v) :: members)
        (34 :: (c ++ (w ++ 58 :: (w' ++ (t ++ (w'' ++ 44 :: (w₃ ++ ts)))))))

end

/-! ## No text has a zero byte

The reader takes a zero byte for the end of its input, so it matters that no
text has one.
-/

theorem zero_not_mem_blanks {w : Str} (hw : Blanks w) : 0 ∉ w := by
  intro h
  exact absurd (hw 0 h) (by decide)

theorem zero_not_mem_digits {h : Str} (hdigits : ∀ b ∈ h, hex.isDigit b = true) : 0 ∉ h := by
  intro hmem
  exact absurd (hdigits 0 hmem) (by decide)

theorem zero_not_mem_chars {s t : Str} (h : Chars s t) : 0 ∉ t := by
  induction h with
  | close => decide
  | plain hlow _ _ _ ih =>
      refine List.not_mem_cons_of_ne_of_not_mem ?_ ih
      rintro rfl
      exact absurd hlow (by decide)
  | @escaped e c s t hescape _ ih =>
      have he : 0 ≠ e := by
        rintro rfl
        cases hescape
      simp [he, ih]
  | unicode hh _ ih | lone hh _ _ ih => simp [zero_not_mem_digits hh.digits, ih]
  | surrogates hh hh' _ _ _ _ ih =>
      simp [zero_not_mem_digits hh.digits, zero_not_mem_digits hh'.digits, ih]

theorem zero_not_mem_decimals {ds : Str} {n : ℕ} (h : Digits ds n) : 0 ∉ ds := by
  intro hmem
  exact absurd (h.digits 0 hmem) (by decide)

mutual

theorem zero_not_mem_text {v : Value} {t : Str} : Text v t → 0 ∉ t
  | .null | .true | .false => by decide
  | .nat h _ => zero_not_mem_decimals h
  | .neg h _ => by simp [zero_not_mem_decimals h]
  | .string h => by simp [zero_not_mem_chars h]
  | .emptyArray hw | .emptyObject hw => by simp [zero_not_mem_blanks hw]
  | .array hw h => by simp [zero_not_mem_blanks hw, zero_not_mem_elements h]
  | .object hw h => by simp [zero_not_mem_blanks hw, zero_not_mem_members h]

theorem zero_not_mem_elements {elems : List Value} {t : Str} : Elements elems t → 0 ∉ t
  | .last h hw => by simp [zero_not_mem_text h, zero_not_mem_blanks hw]
  | .cons h hw hw' hrest => by
      simp [zero_not_mem_text h, zero_not_mem_blanks hw, zero_not_mem_blanks hw',
        zero_not_mem_elements hrest]

theorem zero_not_mem_members {members : List (Str × Value)} {t : Str} : Members members t → 0 ∉ t
  | .last hkey hw hw' h hw'' => by
      simp [zero_not_mem_chars hkey, zero_not_mem_blanks hw, zero_not_mem_blanks hw',
        zero_not_mem_text h, zero_not_mem_blanks hw'']
  | .cons hkey hw hw' h hw'' hw₃ hrest => by
      simp [zero_not_mem_chars hkey, zero_not_mem_blanks hw, zero_not_mem_blanks hw',
        zero_not_mem_text h, zero_not_mem_blanks hw'', zero_not_mem_blanks hw₃,
        zero_not_mem_members hrest]

end

end Grammar

end Logkafka
