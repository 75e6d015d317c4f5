/-
# `Logkafka.Tools` — base/tools.cc and what it takes from libc

The types the code shares, the reading and printing of decimal numbers, and the
reading of hexadecimal ones: `hexstr2num` is `strtoll(buf, &pEnd, 16)` with a
default for the two values `strtoll` saturates at.

The position file is written with `%016llx` and `%08x`.  A 64-bit value has at
most 16 digits and a 32-bit value at most 8, so both conversions print exactly
their width: they are `hex.fixed 16` and `hex.fixed 8`.
-/
import Logkafka.Numeral
import Mathlib.Data.List.TakeWhile
import Mathlib.Data.Nat.Digits.Lemmas
import Mathlib.Order.Defs.LinearOrder

namespace Logkafka

/-- `char` -/
abbrev Byte := UInt8

instance : LinearOrder Byte where
  le_refl := UInt8.le_refl
  le_trans _ _ _ := UInt8.le_trans
  lt_iff_le_not_ge a b := by
    rw [UInt8.not_le]
    exact ⟨fun h => ⟨UInt8.le_of_lt h, h⟩, fun h => h.2⟩
  le_antisymm _ _ := UInt8.le_antisymm
  le_total := UInt8.le_total
  toDecidableLE := inferInstance
  toDecidableLT := inferInstance

/-- `std::string`; a string taken from C holds no zero byte. -/
abbrev Str := List Byte

/-- A literal of the source. -/
def ascii (s : String) : Str := s.toList.map fun c => UInt8.ofNat c.toNat

/-- A string made from a `char` buffer. -/
def cstr (buf : Str) : Str := buf.takeWhile (· ≠ 0)

/-- `ino_t` -/
abbrev InoT := UInt64

/-- `off_t`, `long` and `long long` -/
abbrev OffT := Int64

/-- An `off_t` that is an offset. -/
abbrev Offset := { pos : OffT // 0 ≤ pos }

/-- `INO_NONE` -/
def inoNone : InoT := 0

def hexDigit (d : ℕ) : Byte := if d < 10 then UInt8.ofNat (48 + d) else UInt8.ofNat (87 + d)

def hexValue? (b : Byte) : Option ℕ :=
  if 48 ≤ b ∧ b ≤ 57 then some (b.toNat - 48)
  else if 97 ≤ b ∧ b ≤ 102 then some (b.toNat - 87)
  else if 65 ≤ b ∧ b ≤ 70 then some (b.toNat - 55)
  else none

/-- Hexadecimal: printed in lower case, read in either. -/
def hex : Numeral Byte where
  base := 16
  digit := hexDigit
  value? := hexValue?
  value?_digit := by decide
  base_pos := by decide

/-- `isspace` in the C locale. -/
def isSpace (b : Byte) : Bool := b = 32 || (9 ≤ b && b ≤ 13)

/-- The prefix `0x` that `strtoll` allows for base 16. -/
def skip0x : List Byte → List Byte
  | 48 :: x :: rest => if x = 120 ∨ x = 88 then rest else 48 :: x :: rest
  | s => s

/-- `strtoll(buf, &pEnd, 16)`: blanks, a sign, `0x`, the digits; saturated. -/
def strtoll16 (buf : List Byte) : OffT :=
  let s := buf.dropWhile isSpace
  let neg := s.head? = some 45
  let s := if s.head? = some 45 ∨ s.head? = some 43 then s.tail else s
  let n := hex.value ((skip0x s).takeWhile hex.isDigit)
  if neg then
    if 2 ^ 63 ≤ n then Int64.minValue else Int64.ofInt (-n)
  else
    if 2 ^ 63 ≤ n then Int64.maxValue else Int64.ofNat n

/-- `hexstr2num` -/
def hexstr2num (buf : List Byte) (defaultNum : OffT) : OffT :=
  let num := strtoll16 buf
  if num ≠ Int64.minValue ∧ num ≠ Int64.maxValue then num else defaultNum

theorem toNat_of_isDigit {b : Byte} (h : hex.isDigit b = true) :
    (48 ≤ b.toNat ∧ b.toNat ≤ 57) ∨ (97 ≤ b.toNat ∧ b.toNat ≤ 102) ∨
      (65 ≤ b.toNat ∧ b.toNat ≤ 70) := by
  have h : (hexValue? b).isSome = true := h
  unfold hexValue? at h
  simp only [UInt8.le_iff_toNat_le] at h
  split at h
  · next hd => exact Or.inl hd
  · split at h
    · next hd => exact Or.inr (Or.inl hd)
    · split at h
      · next hd => exact Or.inr (Or.inr hd)
      · cases h

theorem hex_digit_ne {b : Byte} (h : hex.isDigit b = true) :
    b ≠ 45 ∧ b ≠ 43 ∧ b ≠ 120 ∧ b ≠ 88 ∧ b ≠ 9 ∧ b ≠ 10 := by
  have hn := toNat_of_isDigit h
  refine ⟨?_, ?_, ?_, ?_, ?_, ?_⟩ <;> rintro rfl <;> revert hn <;> decide

/-- A digit is less than the base, and what is none counts as zero. -/
theorem hexValue_lt (b : Byte) : (hex.value? b).getD 0 < hex.base := by
  show (hexValue? b).getD 0 < 16
  unfold hexValue?
  simp only [UInt8.le_iff_toNat_le]
  split
  · next h =>
      have hle : b.toNat ≤ 57 := h.2
      show b.toNat - 48 < 16
      omega
  · split
    · next h =>
        have hle : b.toNat ≤ 102 := h.2
        show b.toNat - 87 < 16
        omega
    · split
      · next h =>
          have hle : b.toNat ≤ 70 := h.2
          show b.toNat - 55 < 16
          omega
      · exact Nat.zero_lt_succ _

theorem not_isSpace_of_isDigit {b : Byte} (h : hex.isDigit b = true) : isSpace b = false := by
  have hn := toNat_of_isDigit h
  simp only [isSpace, Bool.or_eq_false_iff, Bool.and_eq_false_iff, decide_eq_false_iff_not,
    UInt8.le_iff_toNat_le]
  refine ⟨?_, ?_⟩
  · rintro rfl
    revert hn
    decide
  · right
    show ¬ b.toNat ≤ 13
    omega

/-- On digits alone `strtoll` is their number, saturated. -/
theorem strtoll16_digits {ds : List Byte} (h : ∀ b ∈ ds, hex.isDigit b = true) :
    strtoll16 ds
      = if 2 ^ 63 ≤ hex.value ds then Int64.maxValue else Int64.ofNat (hex.value ds) := by
  have hspace : ds.dropWhile isSpace = ds := by
    cases ds with
    | nil => rfl
    | cons b ds =>
        rw [List.dropWhile_cons_of_neg]
        simp [not_isSpace_of_isDigit (h b List.mem_cons_self)]
  have hminus : ds.head? ≠ some 45 := by
    intro hc
    exact (hex_digit_ne (h _ (List.mem_of_head? hc))).1 rfl
  have hplus : ds.head? ≠ some 43 := by
    intro hc
    exact (hex_digit_ne (h _ (List.mem_of_head? hc))).2.1 rfl
  have hpre : skip0x ds = ds := by
    unfold skip0x
    split
    · next x rest =>
        have hx := hex_digit_ne (h x (by simp))
        rw [if_neg]
        simp [hx]
    · rfl
  simp only [strtoll16, hspace, hminus, hplus, or_self, if_false, hpre,
    List.takeWhile_eq_self_iff.mpr h]

/-- A number below the saturated value is read back; from there on it is not. -/
theorem hexstr2num_digits {ds : List Byte} (h : ∀ b ∈ ds, hex.isDigit b = true)
    (defaultNum : OffT) :
    hexstr2num ds defaultNum
      = if hex.value ds < 2 ^ 63 - 1 then Int64.ofNat (hex.value ds) else defaultNum := by
  unfold hexstr2num
  rw [strtoll16_digits h]
  by_cases hlt : hex.value ds < 2 ^ 63 - 1
  · have hn : ¬ 2 ^ 63 ≤ hex.value ds := by omega
    have hint : (Int64.ofNat (hex.value ds)).toInt = hex.value ds :=
      Int64.toInt_ofNat_of_lt (by omega)
    have hmin : Int64.ofNat (hex.value ds) ≠ Int64.minValue := by
      intro hc
      have := congrArg Int64.toInt hc
      rw [hint, show Int64.minValue.toInt = -2 ^ 63 by decide] at this
      omega
    have hmax : Int64.ofNat (hex.value ds) ≠ Int64.maxValue := by
      intro hc
      have := congrArg Int64.toInt hc
      rw [hint, show Int64.maxValue.toInt = 2 ^ 63 - 1 by decide] at this
      omega
    rw [if_neg hn, if_pos hlt]
    exact if_pos ⟨hmin, hmax⟩
  · rw [if_neg hlt]
    refine if_neg fun hc => hc.2 ?_
    by_cases hn : 2 ^ 63 ≤ hex.value ds
    · rw [if_pos hn]
    · rw [if_neg hn, show hex.value ds = 2 ^ 63 - 1 by omega]
      decide

/-! ## Decimal numbers

`strtol` takes more than `int2Str` prints, but what is printed comes back.
-/

def decDigit (d : ℕ) : Byte := UInt8.ofNat (48 + d)

def decValue? (b : Byte) : Option ℕ := if 48 ≤ b ∧ b ≤ 57 then some (b.toNat - 48) else none

def dec : Numeral Byte where
  base := 10
  digit := decDigit
  value? := decValue?
  value?_digit := by decide
  base_pos := by decide

/-- `strtol(nptr, NULL, 10)`: blanks, a sign, the digits; saturated. -/
def strtol10 (nptr : Str) : Int64 :=
  let s := nptr.dropWhile isSpace
  let neg := s.head? = some 45
  let s := if s.head? = some 45 ∨ s.head? = some 43 then s.tail else s
  let n := dec.value (s.takeWhile dec.isDigit)
  if neg then
    if 2 ^ 63 ≤ n then Int64.minValue else Int64.ofInt (-n)
  else
    if 2 ^ 63 ≤ n then Int64.maxValue else Int64.ofNat n

/-- `atoi`: the `long` is cut to an `int`. -/
def atoi (nptr : Str) : Int32 := (strtol10 nptr).toInt32

/-- A number in decimal, as a stream prints it. -/
def decText (n : ℕ) : Str := if n = 0 then [48] else ((Nat.digits 10 n).map dec.digit).reverse

/-- `int2Str` -/
def int2Str (val : ℤ) : Str := if val < 0 then 45 :: decText val.natAbs else decText val.natAbs

theorem digit_of_mem_decText {n : ℕ} {b : Byte} (h : b ∈ decText n) :
    ∃ d < 10, b = dec.digit d := by
  unfold decText at h
  split at h
  · exact ⟨0, by omega, List.mem_singleton.mp h⟩
  · obtain ⟨d, hd, rfl⟩ := List.mem_map.mp (List.mem_reverse.mp h)
    exact ⟨d, Nat.digits_lt_base (by omega) hd, rfl⟩

theorem digit_injOn {d e : ℕ} (hd : d < 10) (he : e < 10) (h : dec.digit d = dec.digit e) :
    d = e := by
  have hval : dec.value? (dec.digit d) = dec.value? (dec.digit e) := congrArg _ h
  rw [dec.value?_digit d hd, dec.value?_digit e he] at hval
  exact Option.some.inj hval

theorem map_digit_injective {xs ys : List ℕ} (hx : ∀ d ∈ xs, d < 10) (hy : ∀ d ∈ ys, d < 10)
    (h : xs.map dec.digit = ys.map dec.digit) : xs = ys := by
  induction xs generalizing ys with
  | nil => exact (List.map_eq_nil_iff.mp h.symm).symm
  | cons d xs ih =>
      cases ys with
      | nil => cases h
      | cons e ys =>
          obtain ⟨hd, hrest⟩ := List.cons.inj h
          rw [digit_injOn (hx d List.mem_cons_self) (hy e List.mem_cons_self) hd,
            ih (fun d h => hx d (List.mem_cons_of_mem _ h))
              (fun e h => hy e (List.mem_cons_of_mem _ h)) hrest]

theorem decText_injective : Function.Injective decText := by
  have hlt : ∀ n, ∀ d ∈ Nat.digits 10 n, d < 10 := fun n d hd =>
    Nat.digits_lt_base (by omega) hd
  have hzero : ∀ n, n ≠ 0 → [48] ≠ ((Nat.digits 10 n).map dec.digit).reverse := by
    intro n hn h
    have hrev : (Nat.digits 10 n).map dec.digit = [0].map dec.digit := by
      rw [← List.reverse_inj, ← h]
      rfl
    have hdigits : Nat.digits 10 n = [0] :=
      map_digit_injective (hlt n) (by simp) hrev
    have hn0 := Nat.ofDigits_digits 10 n
    rw [hdigits] at hn0
    exact hn hn0.symm
  intro n m h
  unfold decText at h
  by_cases hn : n = 0
  · by_cases hm : m = 0
    · rw [hn, hm]
    · rw [if_pos hn, if_neg hm] at h
      exact absurd h (hzero m hm)
  · by_cases hm : m = 0
    · rw [if_neg hn, if_pos hm] at h
      exact absurd h.symm (hzero n hn)
    · rw [if_neg hn, if_neg hm] at h
      exact Nat.digits_inj_iff.mp
        (map_digit_injective (hlt n) (hlt m) (List.reverse_injective h))

/-- Different numbers are printed differently. -/
theorem int2Str_injective : Function.Injective int2Str := by
  have hsign : ∀ n m, (45 : Byte) :: decText n ≠ decText m := by
    intro n m h
    obtain ⟨d, hd, heq⟩ := digit_of_mem_decText (h ▸ List.mem_cons_self : 45 ∈ decText m)
    revert heq
    revert d
    decide
  intro a b h
  unfold int2Str at h
  split at h
  · split at h
    · have := decText_injective (List.cons.inj h).2
      omega
    · exact absurd h (hsign _ _)
  · split at h
    · exact absurd h.symm (hsign _ _)
    · have := decText_injective h
      omega

theorem value_map_digit {ds : List ℕ} (h : ∀ d ∈ ds, d < 10) :
    dec.value (ds.map dec.digit).reverse = Nat.ofDigits 10 ds := by
  induction ds with
  | nil => rfl
  | cons d ds ih =>
      obtain ⟨hd, hds⟩ := List.forall_mem_cons.mp h
      rw [List.map_cons, List.reverse_cons, dec.value_append_singleton, ih hds,
        dec.value?_digit d hd, Nat.ofDigits_cons]
      show Nat.ofDigits 10 ds * 10 + d = d + 10 * Nat.ofDigits 10 ds
      omega

/-- What is printed is the number. -/
theorem value_decText (n : ℕ) : dec.value (decText n) = n := by
  unfold decText
  split
  · next h =>
      subst h
      decide
  · rw [value_map_digit fun d hd => Nat.digits_lt_base (by omega) hd, Nat.ofDigits_digits]

theorem digit_plain {b : Byte} {n : ℕ} (h : b ∈ decText n) :
    dec.isDigit b = true ∧ isSpace b = false ∧ b ≠ 45 ∧ b ≠ 43 := by
  obtain ⟨d, hd, rfl⟩ := digit_of_mem_decText h
  have hall : ∀ d < 10, dec.isDigit (dec.digit d) = true ∧ isSpace (dec.digit d) = false ∧
      dec.digit d ≠ 45 ∧ dec.digit d ≠ 43 := by decide
  exact hall d hd

theorem takeWhile_decText (n : ℕ) : (decText n).takeWhile dec.isDigit = decText n :=
  List.takeWhile_eq_self_iff.mpr fun _ hb => (digit_plain hb).1

theorem strtol10_decText (n : ℕ) (h : n < 2 ^ 63) : strtol10 (decText n) = Int64.ofNat n := by
  have hspace : (decText n).dropWhile isSpace = decText n := by
    cases htext : decText n with
    | nil => rfl
    | cons b bs =>
        rw [List.dropWhile_cons_of_neg]
        have hb := (digit_plain (htext ▸ List.mem_cons_self : b ∈ decText n)).2.1
        simp [hb]
  have hminus : (decText n).head? ≠ some 45 := fun hc =>
    (digit_plain (List.mem_of_head? hc)).2.2.1 rfl
  have hplus : (decText n).head? ≠ some 43 := fun hc =>
    (digit_plain (List.mem_of_head? hc)).2.2.2 rfl
  simp only [strtol10, hspace, hminus, hplus, or_self, if_false, takeWhile_decText, value_decText]
  exact if_neg (by omega)

theorem strtol10_neg (n : ℕ) (h : n ≤ 2 ^ 63) :
    strtol10 (45 :: decText n) = Int64.ofInt (-n) := by
  have hspace : (45 :: decText n).dropWhile isSpace = 45 :: decText n := rfl
  simp only [strtol10, hspace, List.head?_cons, true_or, if_true, List.tail_cons,
    takeWhile_decText, value_decText]
  split
  · next hmin =>
      obtain rfl : n = 2 ^ 63 := by omega
      decide
  · rfl

/-- A `long` that `int2Str` has printed is read back. -/
theorem strtol10_int2Str (n : Int64) : strtol10 (int2Str n.toInt) = n := by
  have hlow := n.le_toInt
  have hhigh := n.toInt_lt
  unfold int2Str
  split
  · next hneg =>
      rw [strtol10_neg _ (by omega), show (-(n.toInt.natAbs : ℤ)) = n.toInt by omega]
      exact Int64.ofInt_toInt n
  · next hpos =>
      rw [strtol10_decText _ (by omega)]
      have hnat : Int64.ofNat n.toInt.natAbs = Int64.ofInt (n.toInt.natAbs : ℤ) := rfl
      rw [hnat, show (n.toInt.natAbs : ℤ) = n.toInt by omega]
      exact Int64.ofInt_toInt n

/-- The number that a text writes in digits, with or without a sign. -/
def decimal? (text : Str) : Option ℤ :=
  let digits := if text.head? = some 45 ∨ text.head? = some 43 then text.tail else text
  if digits ≠ [] ∧ digits.all dec.isDigit = true then
    some (if text.head? = some 45 then -dec.value digits else dec.value digits)
  else none

theorem not_isSpace_of_decimal {text : Str} {n : ℤ} (h : decimal? text = some n) :
    text.dropWhile isSpace = text := by
  have hdigit : ∀ b : Byte, dec.isDigit b = true → isSpace b = false := by
    intro b hb
    have hb : (decValue? b).isSome = true := hb
    unfold decValue? at hb
    simp only [UInt8.le_iff_toNat_le] at hb
    split at hb
    · next hrange =>
        have hne : b ≠ 32 := by
          rintro rfl
          exact absurd hrange.1 (by decide)
        have hlow : ¬ b ≤ 13 := by
          rw [UInt8.le_iff_toNat_le]
          have h48 : (48 : Byte).toNat = 48 := rfl
          have h13 : (13 : Byte).toNat = 13 := rfl
          omega
        simp [isSpace, hne, hlow]
    · cases hb
  cases text with
  | nil => rfl
  | cons b text =>
      refine List.dropWhile_cons_of_neg ?_
      rw [Bool.not_eq_true]
      unfold decimal? at h
      by_cases hsign : b = 45 ∨ b = 43
      · rcases hsign with rfl | rfl
        · rfl
        · rfl
      · have hsign' : ¬ ((b :: text).head? = some 45 ∨ (b :: text).head? = some 43) := by
          simpa using hsign
        simp only [if_neg hsign'] at h
        split at h
        · next hall => exact hdigit b (List.all_eq_true.mp hall.2 b List.mem_cons_self)
        · cases h

/-- `strtol` gives the number, or the bound of a `long` that it is beyond. -/
theorem strtol10_of_decimal {text : Str} {n : ℤ} (h : decimal? text = some n) :
    (strtol10 text).toInt = max (-2 ^ 63) (min n (2 ^ 63 - 1)) := by
  have hspace := not_isSpace_of_decimal h
  unfold decimal? at h
  simp only [strtol10, hspace]
  generalize (if text.head? = some 45 ∨ text.head? = some 43 then text.tail else text) = digits at h ⊢
  rw [Option.ite_none_right_eq_some, Option.some.injEq] at h
  obtain ⟨⟨-, hall⟩, rfl⟩ := h
  rw [List.takeWhile_eq_self_iff.mpr (List.all_eq_true.mp hall)]
  have hmin : Int64.minValue.toInt = -2 ^ 63 := by decide
  have hmax : Int64.maxValue.toInt = 2 ^ 63 - 1 := by decide
  generalize dec.value digits = v
  split
  · split
    · rw [hmin]
      omega
    · rw [Int64.toInt_ofInt_of_le (by omega) (by omega)]
      omega
  · split
    · rw [hmax]
      omega
    · rw [Int64.toInt_ofNat_of_lt (by omega)]
      omega

/-- `atoi` gives the number exactly when it is an `int`. -/
theorem atoi_eq_iff {text : Str} {n : ℤ} (h : decimal? text = some n) :
    (atoi text).toInt = n ↔ -2 ^ 31 ≤ n ∧ n < 2 ^ 31 := by
  constructor
  · rintro rfl
    exact ⟨(atoi text).le_toInt, (atoi text).toInt_lt⟩
  · rintro ⟨hlow, hhigh⟩
    rw [atoi, Int64.toInt_toInt32, strtol10_of_decimal h]
    rw [Int.bmod_eq_of_le (by omega) (by omega)]
    omega

/-- `unsigned int` of an `int`. -/
theorem toNat_toUInt32 (n : Int32) :
    (n.toUInt32.toNat : ℤ) = if 0 ≤ n.toInt then n.toInt else 2 ^ 32 + n.toInt := by
  have hint : n.toInt = (n.toUInt32.toNat : ℤ).bmod (2 ^ 32) := BitVec.toInt_eq_toNat_bmod _
  have hlt := n.toUInt32.toNat_lt
  rw [Int.bmod_def] at hint
  split at hint <;> split <;> omega

/-! ## Booleans -/

/-- `tolower` in the C locale. -/
def toLower (b : Byte) : Byte := if 65 ≤ b ∧ b ≤ 90 then b + 32 else b

/-- `str2Bool`: `is >> std::boolalpha >> b`, where `b` holds `unset` before.  At
the end of the stream nothing is read. -/
def str2Bool (unset : Bool) (str : Str) : Bool :=
  let s := (str.map toLower).dropWhile isSpace
  if s = [] then unset else (ascii "true").isPrefixOf s

/-- The boolean that a text writes, in lower or upper case. -/
def boolean? (text : Str) : Option Bool :=
  if text.map toLower = ascii "true" then some true
  else if text.map toLower = ascii "false" then some false
  else none

theorem str2Bool_of_boolean {unset : Bool} {text : Str} {b : Bool} (h : boolean? text = some b) :
    str2Bool unset text = b := by
  unfold boolean? at h
  unfold str2Bool
  split at h
  · next htrue =>
      cases h
      rw [htrue]
      rfl
  · split at h
    · next hfalse =>
        cases h
        rw [hfalse]
        rfl
    · cases h

end Logkafka
