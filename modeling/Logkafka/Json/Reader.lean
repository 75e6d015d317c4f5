/-
# `Logkafka.Json.Reader` — how rapidjson parses a text

`Document::Parse<0>` on a C string, in the parts of reader.h:

    parse         skips blanks, parses a value, and wants nothing after it
    parseValue    goes by the first byte
    parseObject, parseMembers, parseArray, parseElements
    parseString   undoes the escapes; other bytes are taken as they are
    parseNumber   an integer up to 64 bits, or else a double

A text ends with its first zero byte.  The calls of `ParseValue` in each other
are counted, and a count that has run out is `termination`, which the handler of
a `Document` never asks for; it does not come to that (`parse_ne_termination`).
-/
import Logkafka.LogConfig

namespace Logkafka

/-- What a `Document` holds. -/
inductive Value
  | null
  | bool (b : Bool)
  /-- `Int`, `Uint`, `Int64` and `Uint64` -/
  | int (n : ℤ)
  | double (d : Float)
  | string (s : Str)
  | array (elems : List Value)
  | object (members : List (Str × Value))

/-- The `kParseError` codes. -/
inductive ParseErrorCode
  | documentEmpty
  | documentRootNotSingular
  | valueInvalid
  | objectMissName
  | objectMissColon
  | objectMissCommaOrCurlyBracket
  | arrayMissCommaOrSquareBracket
  | stringUnicodeEscapeInvalidHex
  | stringUnicodeSurrogateInvalid
  | stringEscapeInvalid
  | stringMissQuotationMark
  | numberTooBig
  | numberMissFraction
  | numberMissExponent
  | termination
  deriving DecidableEq

/-- What was parsed, and what is left of the stream. -/
abbrev Parsed (α : Type) := Except ParseErrorCode (α × Str)

namespace GenericReader

variable {α β : Type}

/-- Goes on with the stream, unless there was an error. -/
def andThen (p : Parsed α) (f : α → Str → Parsed β) : Parsed β :=
  match p with
  | .ok (a, s) => f a s
  | .error e => .error e

@[simp] theorem andThen_ok (a : α) (s : Str) (f : α → Str → Parsed β) :
    andThen (.ok (a, s)) f = f a s := rfl

@[simp] theorem andThen_error (e : ParseErrorCode) (f : α → Str → Parsed β) :
    andThen (.error e) f = .error e := rfl

theorem andThen_eq_ok {p : Parsed α} {f : α → Str → Parsed β} {b : β × Str} :
    andThen p f = .ok b ↔ ∃ a s, p = .ok (a, s) ∧ f a s = .ok b := by
  cases p with
  | ok q =>
      constructor
      · exact fun h => ⟨q.1, q.2, rfl, h⟩
      · rintro ⟨a, s, ⟨⟩, h⟩
        exact h
  | error e =>
      constructor
      · exact fun h => by cases h
      · rintro ⟨a, s, ⟨⟩, -⟩

def isBlank (b : Byte) : Bool := b = 32 || b = 10 || b = 13 || b = 9

def skipWhitespace (s : Str) : Str := s.dropWhile isBlank

/-! ## Strings

`ParseStringToStream`: escapes are replaced on the way, and what is in the
encoding of the source is copied.
-/

/-- `UTF8::Encode` -/
def utf8Encode (codepoint : ℕ) : Str :=
  if codepoint ≤ 0x7F then [codepoint.toUInt8]
  else if codepoint ≤ 0x7FF then
    [(0xC0 + codepoint / 0x40).toUInt8, (0x80 + codepoint % 0x40).toUInt8]
  else if codepoint ≤ 0xFFFF then
    [(0xE0 + codepoint / 0x1000).toUInt8, (0x80 + codepoint / 0x40 % 0x40).toUInt8,
      (0x80 + codepoint % 0x40).toUInt8]
  else
    [(0xF0 + codepoint / 0x40000).toUInt8, (0x80 + codepoint / 0x1000 % 0x40).toUInt8,
      (0x80 + codepoint / 0x40 % 0x40).toUInt8, (0x80 + codepoint % 0x40).toUInt8]

/-- `ParseHex4` -/
def parseHex4 : Str → Parsed ℕ
  | a :: b :: c :: d :: s =>
      match hex.value? a, hex.value? b, hex.value? c, hex.value? d with
      | some a, some b, some c, some d => .ok (((a * 16 + b) * 16 + c) * 16 + d, s)
      | _, _, _, _ => .error .stringUnicodeEscapeInvalidHex
  | _ => .error .stringUnicodeEscapeInvalidHex

/-- The table `escape` of `ParseStringToStream`. -/
def escape : Byte → Option Byte
  | 34 => some 34
  | 47 => some 47
  | 92 => some 92
  | 98 => some 8
  | 102 => some 12
  | 110 => some 10
  | 114 => some 13
  | 116 => some 9
  | _ => none

/-- What follows `\u`. -/
def parseUnicode (s : Str) : Parsed Str :=
  andThen (parseHex4 s) fun codepoint s =>
    if 0xD800 ≤ codepoint ∧ codepoint ≤ 0xDBFF then
      match s with
      | 92 :: 117 :: s =>
          andThen (parseHex4 s) fun codepoint2 s =>
            if codepoint2 < 0xDC00 ∨ 0xDFFF < codepoint2 then
              .error .stringUnicodeSurrogateInvalid
            else
              .ok (utf8Encode ((codepoint - 0xD800) * 0x400 + (codepoint2 - 0xDC00) + 0x10000), s)
      | _ => .error .stringUnicodeSurrogateInvalid
    else .ok (utf8Encode codepoint, s)

/-- What follows a backslash. -/
def parseEscape : Str → Parsed Str
  | [] => .error .stringEscapeInvalid
  | e :: s =>
      match escape e with
      | some c => .ok ([c], s)
      | none => if e = 117 then parseUnicode s else .error .stringEscapeInvalid

/-- One round of the loop in `ParseStringToStream`; `none` at the closing quote. -/
def parseChar : Str → Parsed (Option Str)
  | [] => .error .stringMissQuotationMark
  | c :: s =>
      if c = 92 then andThen (parseEscape s) fun out s => .ok (some out, s)
      else if c = 34 then .ok (none, s)
      else if c = 0 then .error .stringMissQuotationMark
      else if c < 0x20 then .error .stringEscapeInvalid
      else .ok (some [c], s)

def parseChars : ℕ → Str → Parsed Str
  | 0, _ => .error .termination
  | n + 1, s =>
      andThen (parseChar s) fun out s =>
        match out with
        | none => .ok ([], s)
        | some out => andThen (parseChars n s) fun str s => .ok (out ++ str, s)

/-- `ParseString`, after the opening quote. -/
def parseString (s : Str) : Parsed Str := parseChars (s.length + 1) s

/-! ## Numbers

Digits are added up in 32 bits, then in 64, then in a `double`, and each loop
ends where the next digit would not fit.
-/

/-- The locals of `ParseNumber`; `i64` is `i` until `use64bit`. -/
structure Num where
  minus : Bool
  i64 : ℕ
  significandDigit : ℕ
  use64bit : Bool
  useDouble : Bool
  d : Float
  expFrac : ℤ
  exp : ℕ

/-- A loop over digits: a round takes the digit, or leaves the loop before it. -/
def whileDigit (round : Num → ℕ → Except ParseErrorCode (Num × Bool)) (num : Num) :
    Str → Parsed Num
  | [] => .ok (num, [])
  | c :: s =>
      match dec.value? c with
      | none => .ok (num, c :: s)
      | some digit =>
          match round num digit with
          | .error e => .error e
          | .ok (num, false) => .ok (num, c :: s)
          | .ok (num, true) => whileDigit round num s

namespace Num

def push (num : Num) (digit : ℕ) : Num :=
  { num with
    i64 := num.i64 * 10 + digit
    significandDigit := num.significandDigit + 1 }

/-- The integer would be more than `10 * limit + last`. -/
def Over (limit last : ℕ) (num : Num) (digit : ℕ) : Prop :=
  limit ≤ num.i64 ∧ (num.i64 ≠ limit ∨ last < digit)

instance (limit last : ℕ) (num : Num) (digit : ℕ) : Decidable (Over limit last num digit) :=
  inferInstanceAs (Decidable (_ ∧ _))

/-- "Parse int" -/
def int32 (num : Num) (digit : ℕ) : Except ParseErrorCode (Num × Bool) :=
  if (if num.minus then Over 214748364 8 num digit else Over 429496729 5 num digit) then
    .ok ({ num with use64bit := true }, false)
  else .ok (num.push digit, true)

/-- "Parse 64bit int" -/
def int64 (num : Num) (digit : ℕ) : Except ParseErrorCode (Num × Bool) :=
  if (if num.minus then Over 0x0CCCCCCCCCCCCCCC 8 num digit
      else Over 0x1999999999999999 5 num digit) then
    .ok ({ num with d := num.i64.toFloat, useDouble := true }, false)
  else .ok (num.push digit, true)

/-- "Force double for big integer" -/
def big (num : Num) (digit : ℕ) : Except ParseErrorCode (Num × Bool) :=
  if 1.7976931348623157e307 ≤ num.d then .error .numberTooBig
  else .ok ({ num with d := num.d * 10 + digit.toFloat }, true)

/-- The digits of the fraction that go to `i64`. -/
def fraction53 (num : Num) (digit : ℕ) : Except ParseErrorCode (Num × Bool) :=
  if 0x1FFFFFFFFFFFFF < num.i64 then .ok (num, false)
  else
    let i64 := num.i64 * 10 + digit
    .ok ({ num with
      i64 := i64
      expFrac := num.expFrac - 1
      significandDigit := num.significandDigit + if i64 ≠ 0 then 1 else 0 }, true)

/-- Those that go to `d`, as far as they count. -/
def fraction (num : Num) (digit : ℕ) : Except ParseErrorCode (Num × Bool) :=
  if num.significandDigit < 17 then
    let d := num.d * 10 + digit.toFloat
    .ok ({ num with
      d := d
      expFrac := num.expFrac - 1
      significandDigit := num.significandDigit + if 0 < d then 1 else 0 }, true)
  else .ok (num, true)

/-- A negative exponent; from some on the digits do not count. -/
def expMinus (num : Num) (digit : ℕ) : Except ParseErrorCode (Num × Bool) :=
  if 214748364 ≤ num.exp then .ok (num, true)
  else .ok ({ num with exp := num.exp * 10 + digit }, true)

def expPlus (num : Num) (digit : ℕ) : Except ParseErrorCode (Num × Bool) :=
  if 308 - num.expFrac < (num.exp * 10 + digit : ℕ) then .error .numberTooBig
  else .ok ({ num with exp := num.exp * 10 + digit }, true)

end Num

/-- The integer part, after the sign. -/
def parseInt (minus : Bool) : Str → Parsed Num
  | [] => .error .valueInvalid
  | c :: s =>
      match dec.value? c with
      | none => .error .valueInvalid
      | some digit =>
          let num : Num := ⟨minus, digit, 0, false, false, 0, 0, 0⟩
          if digit = 0 then .ok (num, s)
          else
            andThen (whileDigit Num.int32 num s) fun num s =>
              if num.use64bit then
                andThen (whileDigit Num.int64 num s) fun num s =>
                  if num.useDouble then whileDigit Num.big num s else .ok (num, s)
              else .ok (num, s)

def isDigitAt (s : Str) : Bool := (s.head?.map dec.isDigit).getD false

def Num.toDouble (num : Num) : Num :=
  if num.useDouble then num else { num with d := num.i64.toFloat, useDouble := true }

/-- "Parse frac = decimal-point 1*DIGIT" -/
def parseFrac (num : Num) : Str → Parsed Num
  | [] => .ok (num, [])
  | c :: s =>
      if c = 46 then
        if isDigitAt s then
          andThen (if num.useDouble then .ok (num, s) else whileDigit Num.fraction53 num s)
            fun num s => whileDigit Num.fraction num.toDouble s
        else .error .numberMissFraction
      else .ok (num, c :: s)

/-- The digits of the exponent; the first is taken as it is. -/
def parseExpDigits (round : Num → ℕ → Except ParseErrorCode (Num × Bool)) (num : Num) :
    Str → Parsed Num
  | [] => .error .numberMissExponent
  | c :: s =>
      match dec.value? c with
      | none => .error .numberMissExponent
      | some digit => whileDigit round { num with exp := digit } s

/-- "Parse exp = e [ minus / plus ] 1*DIGIT", with the sign of the exponent. -/
def parseExp (num : Num) : Str → Parsed (Num × Bool)
  | [] => .ok ((num, false), [])
  | c :: s =>
      if c = 101 ∨ c = 69 then
        let expMinus : Bool := s.head? = some 45
        let s := if s.head? = some 43 ∨ s.head? = some 45 then s.tail else s
        andThen (parseExpDigits (if expMinus then Num.expMinus else Num.expPlus) num.toDouble s)
          fun num s => .ok ((num, expMinus), s)
      else .ok ((num, false), c :: s)

/-- `FastPath` -/
def fastPath (significand : Float) (exp : ℤ) : Float :=
  if exp < -308 then 0
  else if 0 ≤ exp then significand * Float.ofScientific 1 false exp.toNat
  else significand / Float.ofScientific 1 false (-exp).toNat

/-- `StrtodNormalPrecision` -/
def strtodNormalPrecision (d : Float) (p : ℤ) : Float :=
  if p < -308 then fastPath (fastPath d (-308)) (p + 308) else fastPath d p

/-- "Finish parsing, call event according to the type of number." -/
def Num.value (num : Num) (expMinus : Bool) : Value :=
  if num.useDouble then
    let exp : ℤ := if expMinus then -num.exp else num.exp
    let d := strtodNormalPrecision num.d (exp + num.expFrac)
    .double (if num.minus then -d else d)
  else .int (if num.minus then -num.i64 else num.i64)

def parseNumber (s : Str) : Parsed Value :=
  let minus : Bool := s.head? = some 45
  andThen (parseInt minus (if minus then s.tail else s)) fun num s =>
    andThen (parseFrac num s) fun num s =>
      andThen (parseExp num s) fun num s => .ok (num.1.value num.2, s)

/-! ## Values

Values, members and elements call each other; the fuel is the length of the text,
which `Logkafka.Json.Total` shows to be enough.
-/

/-- `ParseNull`, `ParseTrue` and `ParseFalse`, after the first byte. -/
def parseLiteral (rest : Str) (value : Value) (s : Str) : Parsed Value :=
  if rest.isPrefixOf s then .ok (value, s.drop rest.length) else .error .valueInvalid

def parseNull : Str → Parsed Value := parseLiteral (ascii "ull") .null

def parseTrue : Str → Parsed Value := parseLiteral (ascii "rue") (.bool true)

def parseFalse : Str → Parsed Value := parseLiteral (ascii "alse") (.bool false)

mutual

def parseValue : ℕ → Str → Parsed Value
  | 0, _ => .error .termination
  | _ + 1, [] => parseNumber []
  | n + 1, c :: s =>
      if c = 110 then parseNull s
      else if c = 116 then parseTrue s
      else if c = 102 then parseFalse s
      else if c = 34 then andThen (parseString s) fun str s => .ok (.string str, s)
      else if c = 123 then parseObject n (skipWhitespace s)
      else if c = 91 then parseArray n (skipWhitespace s)
      else parseNumber (c :: s)

/-- `ParseObject`, after the bracket and the blanks. -/
def parseObject : ℕ → Str → Parsed Value
  | 0, _ => .error .termination
  | n + 1, s =>
      if s.head? = some 125 then .ok (.object [], s.tail)
      else andThen (parseMembers n s) fun members s => .ok (.object members, s)

/-- The loop over the members. -/
def parseMembers : ℕ → Str → Parsed (List (Str × Value))
  | 0, _ => .error .termination
  | n + 1, s =>
      if s.head? = some 34 then
        andThen (parseString s.tail) fun key s =>
          match skipWhitespace s with
          | 58 :: s =>
              andThen (parseValue n (skipWhitespace s)) fun value s =>
                match skipWhitespace s with
                | 44 :: s =>
                    andThen (parseMembers n (skipWhitespace s)) fun members s =>
                      .ok ((key, value) :: members, s)
                | 125 :: s => .ok ([(key, value)], s)
                | _ => .error .objectMissCommaOrCurlyBracket
          | _ => .error .objectMissColon
      else .error .objectMissName

/-- `ParseArray`, after the bracket and the blanks. -/
def parseArray : ℕ → Str → Parsed Value
  | 0, _ => .error .termination
  | n + 1, s =>
      if s.head? = some 93 then .ok (.array [], s.tail)
      else andThen (parseElements n s) fun elems s => .ok (.array elems, s)

/-- The loop over the elements. -/
def parseElements : ℕ → Str → Parsed (List Value)
  | 0, _ => .error .termination
  | n + 1, s =>
      andThen (parseValue n s) fun value s =>
        match skipWhitespace s with
        | 44 :: s =>
            andThen (parseElements n (skipWhitespace s)) fun elems s => .ok (value :: elems, s)
        | 93 :: s => .ok ([value], s)
        | _ => .error .arrayMissCommaOrSquareBracket

end

/-- `Parse<0>`; the text is a C string. -/
def parse (text : Str) : Except ParseErrorCode Value :=
  let s := skipWhitespace (cstr text)
  if s = [] then .error .documentEmpty
  else
    match parseValue (3 * s.length + 1) s with
    | .error e => .error e
    | .ok (value, s) => if skipWhitespace s = [] then .ok value else .error .documentRootNotSingular

end GenericReader

end Logkafka
