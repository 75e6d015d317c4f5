/-
# `Logkafka.LogConfig` — the entry of a path in the log config

The log config is a JSON object, and the entry of a path pattern in it is an
object of strings.  The loop body of `refreshTaskConfs` (manager.cc) reads it
into a `TaskConf`: member by member, each by its own parser, with a default
where the member is missing or is not a string.

A `Setting` is one of the members that say how lines are read, filtered and
sent; `said` is what is read of it and `TaskConf.setting` what a `TaskConf`
says, and the two agree (`readItem_setting`).  What the entry *writes* for it is
another matter: a number or a boolean of JSON is not read at all, a long number
is cut to the width of the field, and a `batchsize` above the queue is clamped.
`Setting.Takes` is the condition under which what is written is what is read
(`said_written_iff`).
-/
import Logkafka.TaskConf

namespace Logkafka

/-! ## Reading an entry

`getValue` takes a string and nothing else, and an entry without a topic is no
entry.
-/

/-- A JSON value (rapidjson); `other` is an array, or a number with a fraction or
an exponent. -/
inductive Json
  | null
  | bool (b : Bool)
  | number (n : ℤ)
  | string (s : Str)
  | object (members : List (Str × Json))
  | other

namespace Json

mutual

/-- Two values are compared member by member. -/
def decEq : (a b : Json) → Decidable (a = b)
  | .string s, .string t => decidable_of_iff (s = t) (by simp)
  | .object ms, .object ns =>
      have := decEqMembers ms ns
      decidable_of_iff (ms = ns) (by simp)
  | .bool b, .bool c => decidable_of_iff (b = c) (by simp)
  | .number m, .number n => decidable_of_iff (m = n) (by simp)
  | .null, .null | .other, .other => isTrue rfl
  | .null, .bool _ | .null, .number _ | .null, .string _ | .null, .object _ | .null, .other
  | .bool _, .null | .bool _, .number _ | .bool _, .string _ | .bool _, .object _ | .bool _, .other
  | .number _, .null | .number _, .bool _ | .number _, .string _ | .number _, .object _
  | .number _, .other | .string _, .null | .string _, .bool _ | .string _, .number _
  | .string _, .object _ | .string _, .other | .object _, .null | .object _, .bool _
  | .object _, .number _ | .object _, .string _ | .object _, .other | .other, .null
  | .other, .bool _ | .other, .number _ | .other, .string _ | .other, .object _ => isFalse nofun

def decEqMember : (m n : Str × Json) → Decidable (m = n)
  | (k, a), (l, b) =>
      have := decEq a b
      decidable_of_iff (k = l ∧ a = b) (by simp)

def decEqMembers : (ms ns : List (Str × Json)) → Decidable (ms = ns)
  | [], [] => isTrue rfl
  | m :: ms, n :: ns =>
      have := decEqMember m n
      have := decEqMembers ms ns
      decidable_of_iff (m = n ∧ ms = ns) (by simp)
  | [], _ :: _ | _ :: _, [] => isFalse nofun

end

instance : DecidableEq Json := decEq

/-- The first member of an object with the name. -/
def find (obj : Json) (name : String) : Option Json :=
  match obj with
  | .object members => (members.find? fun m => m.1 = ascii name).map Prod.snd
  | _ => none

/-- `getValue(obj, name, value)`, the overload for strings; `none` where it
throws. -/
def getValue (obj : Json) (name : String) : Option Str :=
  match obj.find name with
  | some (.string s) => some (cstr s)
  | _ => none

/-- A `getValue` in a `try`, with the default value where it throws. -/
def member {α : Type} (obj : Json) (name : String) (read : Str → α) (default : α) : α :=
  ((obj.getValue name).map read).getD default

theorem member_map {α β : Type} (f : α → β) (obj : Json) (name : String) (read : Str → α)
    (default : α) : f (obj.member name read default) = obj.member name (f ∘ read) (f default) := by
  unfold member
  cases obj.getValue name <;> rfl

end Json

/-- `LogConf()` -/
def LogConf.new : LogConf := ⟨[], true, 200, true, 10, true⟩

/-- `FilterConf()` -/
def FilterConf.new : FilterConf := ⟨[]⟩

/-- `KafkaTopicConf()` -/
def KafkaTopicConf.new : KafkaTopicConf := ⟨[], [], ascii "none", 1, [], -1, 0⟩

section

variable (queueMax : UInt64) (unset : String → Bool)

/-- The `batchsize` of an entry, not above `queue.buffering.max.messages`. -/
def readBatchsize (text : Str) : Int32 :=
  if queueMax.toInt64 < (atoi text).toInt64 then queueMax.toUInt32.toInt32 else atoi text

/-- The loop body of `refreshTaskConfs` up to the test `isLegal`; `none` where it
continues.  `unset` is what a `bool` holds that nothing was stored in: `valid`,
which has no default, and the one in `str2Bool`. -/
def readItem (pathPattern : Str) (logItem : Json) : Option TaskConf :=
  let bool (name : String) := logItem.member name (str2Bool (unset name))
  (logItem.getValue "topic").map fun topic =>
    { valid := bool "valid" (unset "valid")
      logConf :=
        { logPath := pathPattern
          followLast := bool "follow_last" LogConf.new.followLast
          batchsize := logItem.member "batchsize" (readBatchsize queueMax) LogConf.new.batchsize
          lineDelimiter := logItem.member "line_delimiter"
            (fun text => (atoi text).toUInt32.toUInt8) LogConf.new.lineDelimiter
          removeDelimiter := bool "remove_delimiter" LogConf.new.removeDelimiter
          readFromHead := bool "read_from_head" LogConf.new.readFromHead }
      kafkaTopicConf :=
        { brokers := KafkaTopicConf.new.brokers
          topic := topic
          key := logItem.member "key" id KafkaTopicConf.new.key
          partition := logItem.member "partition" atoi KafkaTopicConf.new.partition
          compressionCodec := logItem.member "compression_codec" id
            KafkaTopicConf.new.compressionCodec
          requiredAcks := logItem.member "required_acks" atoi KafkaTopicConf.new.requiredAcks
          messageTimeoutMs := logItem.member "message_timeout_ms" atoi
            KafkaTopicConf.new.messageTimeoutMs }
      filterConf :=
        { regexFilterPattern := logItem.member "regex_filter_pattern" id
            FilterConf.new.regexFilterPattern } }

end

/-! ## Settings

The settings of an entry under one type, so that what holds of all of them can be
said once.
-/

/-- The settings of an entry that say how lines are read, filtered and sent. -/
inductive Setting
  | batchsize
  | readFromHead
  | lineDelimiter
  | removeDelimiter
  | topic
  | key
  | partition
  | compressionCodec
  | requiredAcks
  | messageTimeoutMs
  | regexFilterPattern
deriving DecidableEq

/-- The value of a setting, in the type of its field. -/
inductive Setting.Value
  | int (n : Int32)
  | char (b : Byte)
  | bool (b : Bool)
  | text (s : Str)
deriving DecidableEq

namespace Setting

/-- The name of its member. -/
def name : Setting → String
  | batchsize => "batchsize"
  | readFromHead => "read_from_head"
  | lineDelimiter => "line_delimiter"
  | removeDelimiter => "remove_delimiter"
  | topic => "topic"
  | key => "key"
  | partition => "partition"
  | compressionCodec => "compression_codec"
  | requiredAcks => "required_acks"
  | messageTimeoutMs => "message_timeout_ms"
  | regexFilterPattern => "regex_filter_pattern"

/-- What an entry without the member says. -/
def default : Setting → Value
  | batchsize => .int 200
  | readFromHead => .bool true
  | lineDelimiter => .char 10
  | removeDelimiter => .bool true
  | topic => .text []
  | key => .text []
  | partition => .int (-1)
  | compressionCodec => .text (ascii "none")
  | requiredAcks => .int 1
  | messageTimeoutMs => .int 0
  | regexFilterPattern => .text []

/-- What the text of its member says. -/
def parse (queueMax : UInt64) (unset : String → Bool) : Setting → Str → Value
  | batchsize => fun text => .int (readBatchsize queueMax text)
  | lineDelimiter => fun text => .char (atoi text).toUInt32.toUInt8
  | readFromHead => fun text => .bool (str2Bool (unset "read_from_head") text)
  | removeDelimiter => fun text => .bool (str2Bool (unset "remove_delimiter") text)
  | partition => fun text => .int (atoi text)
  | requiredAcks => fun text => .int (atoi text)
  | messageTimeoutMs => fun text => .int (atoi text)
  | topic => .text
  | key => .text
  | compressionCodec => .text
  | regexFilterPattern => .text

/-- What an entry says of a setting. -/
def said (queueMax : UInt64) (unset : String → Bool) (logItem : Json) (f : Setting) : Value :=
  logItem.member f.name (f.parse queueMax unset) f.default

end Setting

/-- The value of a setting in a `TaskConf`. -/
def TaskConf.setting (c : TaskConf) : Setting → Setting.Value
  | .batchsize => .int c.logConf.batchsize
  | .readFromHead => .bool c.logConf.readFromHead
  | .lineDelimiter => .char c.logConf.lineDelimiter
  | .removeDelimiter => .bool c.logConf.removeDelimiter
  | .topic => .text c.kafkaTopicConf.topic
  | .key => .text c.kafkaTopicConf.key
  | .partition => .int c.kafkaTopicConf.partition
  | .compressionCodec => .text c.kafkaTopicConf.compressionCodec
  | .requiredAcks => .int c.kafkaTopicConf.requiredAcks
  | .messageTimeoutMs => .int c.kafkaTopicConf.messageTimeoutMs
  | .regexFilterPattern => .text c.filterConf.regexFilterPattern

/-- Every member of an entry reaches its field. -/
theorem readItem_setting {queueMax : UInt64} {unset : String → Bool} {pathPattern : Str}
    {logItem : Json} {c : TaskConf} (h : readItem queueMax unset pathPattern logItem = some c)
    (f : Setting) : c.setting f = f.said queueMax unset logItem := by
  obtain ⟨topic, htopic, rfl⟩ := Option.map_eq_some_iff.mp h
  cases f with
  | topic =>
      unfold Setting.said Json.member
      rw [show Setting.name .topic = "topic" from rfl, htopic]
      rfl
  | batchsize => exact Json.member_map Setting.Value.int logItem _ _ _
  | partition => exact Json.member_map Setting.Value.int logItem _ _ _
  | requiredAcks => exact Json.member_map Setting.Value.int logItem _ _ _
  | messageTimeoutMs => exact Json.member_map Setting.Value.int logItem _ _ _
  | readFromHead => exact Json.member_map Setting.Value.bool logItem _ _ _
  | removeDelimiter => exact Json.member_map Setting.Value.bool logItem _ _ _
  | lineDelimiter => exact Json.member_map Setting.Value.char logItem _ _ _
  | key => exact Json.member_map Setting.Value.text logItem _ _ _
  | compressionCodec => exact Json.member_map Setting.Value.text logItem _ _ _
  | regexFilterPattern => exact Json.member_map Setting.Value.text logItem _ _ _

/-- A text has no zero byte. -/
def Setting.Value.IsCString : Setting.Value → Prop
  | .text s => 0 ∉ s
  | _ => True

theorem zero_not_mem_cstr (s : Str) : 0 ∉ cstr s := by
  intro h
  simpa using List.mem_takeWhile_imp h

theorem cstr_of_not_mem {s : Str} (h : 0 ∉ s) : cstr s = s := by
  refine List.takeWhile_eq_self_iff.mpr fun b hb => ?_
  have hne : b ≠ 0 := fun hzero => h (hzero ▸ hb)
  simpa using hne

theorem Json.getValue_isCString {obj : Json} {name : String} {text : Str}
    (h : obj.getValue name = some text) : 0 ∉ text := by
  unfold Json.getValue at h
  split at h
  · cases h
    exact zero_not_mem_cstr _
  · cases h

/-- What is read from an entry has no zero byte. -/
theorem Setting.said_isCString (queueMax : UInt64) (unset : String → Bool) (logItem : Json)
    (f : Setting) : (f.said queueMax unset logItem).IsCString := by
  unfold Setting.said Json.member
  cases hv : logItem.getValue f.name with
  | none =>
      cases f with
      | compressionCodec => exact (by decide : 0 ∉ ascii "none")
      | topic | key | regexFilterPattern => exact List.not_mem_nil
      | _ => trivial
  | some text =>
      cases f with
      | topic | key | compressionCodec | regexFilterPattern => exact Json.getValue_isCString hv
      | _ => trivial

/-! ## What is written

An entry writes a number, a boolean or a text for a setting, whatever the width
of the field and whatever becomes of it. -/

namespace Setting

/-- A value that is written, or that a field has. -/
inductive Written
  | int (n : ℤ)
  | bool (b : Bool)
  | text (s : Str)
deriving DecidableEq

def Value.written : Value → Written
  | .int n => .int n.toInt
  | .char b => .int b.toNat
  | .bool b => .bool b
  | .text s => .text s

/-- What a JSON value says for the setting, as itself or in a string; `none` where
it is of another kind. -/
def meant (f : Setting) (v : Json) : Option Written :=
  match f.default, v with
  | .int _, .number n | .char _, .number n => some (.int n)
  | .int _, .string s | .char _, .string s => (decimal? s).map .int
  | .bool _, .bool b => some (.bool b)
  | .bool _, .string s => (boolean? s).map .bool
  | .text _, .string s => some (.text s)
  | _, _ => none

/-- What an entry writes for the setting; the default where it has no member for it. -/
def writes (logItem : Json) (f : Setting) : Option Written :=
  match logItem.find f.name with
  | some v => f.meant v
  | none => some f.default.written

/-- The field can hold what is written in a string, and is given it: a text ends
at a zero byte, a number is cut to the width of the field, and `batchsize` is
clamped to the size of the queue. -/
def InRange (queueMax : UInt64) (f : Setting) : Written → Prop
  | .int n =>
      match f with
      | .lineDelimiter => 0 ≤ n ∧ n < 256
      | .batchsize => (-2 ^ 31 ≤ n ∧ n < 2 ^ 31) ∧
          (n ≤ queueMax.toInt64.toInt ∨ queueMax.toUInt32.toInt32.toInt = n)
      | _ => -2 ^ 31 ≤ n ∧ n < 2 ^ 31
  | .bool _ => True
  | .text s => 0 ∉ s

/-- What is written is taken: in a string within the range of the field, or else
as the default. -/
def Takes (queueMax : UInt64) (logItem : Json) (f : Setting) (w : Written) : Prop :=
  match logItem.find f.name with
  | some (.string _) => f.InRange queueMax w
  | _ => w = f.default.written

end Setting

/-- A text of digits has no zero byte. -/
theorem cstr_of_decimal {text : Str} {n : ℤ} (h : decimal? text = some n) : cstr text = text := by
  refine cstr_of_not_mem fun hzero => ?_
  unfold decimal? at h
  rw [Option.ite_none_right_eq_some] at h
  obtain ⟨⟨-, hall⟩, -⟩ := h
  rw [List.all_eq_true] at hall
  split at hall
  · next hsign =>
      cases text with
      | nil => cases hzero
      | cons b text =>
          rcases List.mem_cons.mp hzero with rfl | hmem
          · rcases hsign with h | h
            · cases h
            · cases h
          · exact absurd (hall 0 hmem) (by decide)
  · exact absurd (hall 0 hzero) (by decide)

theorem cstr_of_boolean {text : Str} {b : Bool} (h : boolean? text = some b) :
    cstr text = text := by
  refine cstr_of_not_mem fun hzero => ?_
  have hmem : 0 ∈ text.map toLower := List.mem_map.mpr ⟨0, hzero, by decide⟩
  unfold boolean? at h
  split at h
  · next htrue =>
      rw [htrue] at hmem
      exact absurd hmem (by decide)
  · split at h
    · next hfalse =>
        rw [hfalse] at hmem
        exact absurd hmem (by decide)
    · cases h

theorem readBatchsize_eq_iff {queueMax : UInt64} {text : Str} {n : ℤ}
    (h : decimal? text = some n) :
    (readBatchsize queueMax text).toInt = n ↔
      (-2 ^ 31 ≤ n ∧ n < 2 ^ 31) ∧
        (n ≤ queueMax.toInt64.toInt ∨ queueMax.toUInt32.toInt32.toInt = n) := by
  have hatoi := atoi_eq_iff h
  unfold readBatchsize
  simp only [Int64.lt_iff_toInt_lt, Int32.toInt_toInt64]
  split
  · next hclamp =>
      constructor
      · rintro rfl
        exact ⟨⟨Int32.le_toInt _, Int32.toInt_lt _⟩, Or.inr rfl⟩
      · rintro ⟨hrange, hle | heq⟩
        · rw [hatoi.mpr hrange] at hclamp
          omega
        · exact heq
  · next hfits =>
      rw [hatoi]
      refine ⟨fun hrange => ⟨hrange, Or.inl ?_⟩, fun hrange => hrange.1⟩
      rw [← hatoi.mpr hrange]
      omega

/-- A number above 255 or below zero is not the byte it is cut to. -/
theorem toUInt8_eq_iff {text : Str} {n : ℤ} (h : decimal? text = some n) :
    ((atoi text).toUInt32.toUInt8.toNat : ℤ) = n ↔ 0 ≤ n ∧ n < 256 := by
  rw [UInt32.toNat_toUInt8]
  constructor
  · rintro rfl
    omega
  · rintro ⟨hlow, hhigh⟩
    have hwide := toNat_toUInt32 (atoi text)
    rw [(atoi_eq_iff h).mpr ⟨by omega, by omega⟩, if_pos hlow] at hwide
    omega

/-- The text of a member is read as what it writes, exactly within the range. -/
theorem parse_written_iff {queueMax : UInt64} {unset : String → Bool} {f : Setting} {text : Str}
    {w : Setting.Written} (h : f.meant (.string text) = some w) :
    (f.parse queueMax unset (cstr text)).written = w ↔ f.InRange queueMax w := by
  have hnumber (h : (decimal? text).map Setting.Written.int = some w) :
      ∃ n, w = .int n ∧ cstr text = text ∧ decimal? text = some n := by
    obtain ⟨n, hn, rfl⟩ := Option.map_eq_some_iff.mp h
    exact ⟨n, rfl, cstr_of_decimal hn, hn⟩
  have hboolean (h : (boolean? text).map Setting.Written.bool = some w) (unset : Bool) :
      Setting.Written.bool (str2Bool unset (cstr text)) = w ∧ ∃ b, w = .bool b := by
    obtain ⟨b, hb, rfl⟩ := Option.map_eq_some_iff.mp h
    rw [cstr_of_boolean hb, str2Bool_of_boolean hb]
    exact ⟨rfl, b, rfl⟩
  cases f with
  | batchsize =>
      obtain ⟨n, rfl, hcstr, hn⟩ := hnumber h
      rw [hcstr]
      exact Setting.Written.int.injEq _ _ ▸ readBatchsize_eq_iff hn
  | lineDelimiter =>
      obtain ⟨n, rfl, hcstr, hn⟩ := hnumber h
      rw [hcstr]
      exact Setting.Written.int.injEq _ _ ▸ toUInt8_eq_iff hn
  | partition | requiredAcks | messageTimeoutMs =>
      obtain ⟨n, rfl, hcstr, hn⟩ := hnumber h
      rw [hcstr]
      exact Setting.Written.int.injEq _ _ ▸ atoi_eq_iff hn
  | readFromHead | removeDelimiter =>
      obtain ⟨heq, b, rfl⟩ := hboolean h _
      exact iff_of_true heq trivial
  | topic | key | compressionCodec | regexFilterPattern =>
      cases h
      refine ⟨fun heq => ?_, fun hzero => congrArg Setting.Written.text (cstr_of_not_mem hzero)⟩
      rw [← Setting.Written.text.inj heq]
      exact zero_not_mem_cstr text

/-- What is read of a setting is what is written for it, exactly when that is taken. -/
theorem said_written_iff {queueMax : UInt64} {unset : String → Bool} {logItem : Json} {f : Setting}
    {w : Setting.Written} (h : f.writes logItem = some w) :
    (f.said queueMax unset logItem).written = w ↔ f.Takes queueMax logItem w := by
  unfold Setting.writes at h
  unfold Setting.said Json.member Json.getValue Setting.Takes
  split at h
  · next v hv =>
      rw [hv]
      cases v with
      | string text => exact parse_written_iff h
      | null | bool b | number n | object members | other => exact eq_comm
  · next hnone =>
      rw [hnone]
      exact eq_comm

end Logkafka
