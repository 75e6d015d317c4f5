/-
# `Logkafka.Output` — what a watcher's settings go to

A watcher is made with a `TaskConf`, and what it says goes out in four ways:

    TailWatcher    read_from_head            where a new file is read from
    IOHandler      batchsize, delimiter      how lines are cut
    FilterRegex    regex_filter_pattern      `pcre2_compile`
    OutputKafka    topic, key, ..            the calls of librdkafka

`calls` has all of it, for the lines of a batch.  A watcher *shows* a value of a
setting when its calls are made under that value only.  Every setting is shown
but `required_acks`, which `Producer::send` takes and does not use.
-/
import Logkafka.LogConfig
import Logkafka.TailWatcher.Basic

namespace Logkafka

/-! ## librdkafka -/

structure RdKafkaMessage where
  payload : Str
  len : ℕ
  key : Str
  keyLen : ℕ
deriving DecidableEq

/-- The calls of `Producer::send` that take what it was given; it polls and
destroys the topic after them. -/
inductive RdKafkaCall
  | topicConfSet (name value : Str)
  | topicNew (topic : Str)
  | produceBatch (partition : Int32) (rkmessages : List RdKafkaMessage)
deriving DecidableEq

/-- `Producer::send` -/
def Producer.send (messages : List Str) (_brokers topic key : Str)
    (_requiredAcks partition messageTimeoutMs : Int32) : List RdKafkaCall :=
  [.topicConfSet (ascii "produce.offset.report") (ascii "true"),
    .topicConfSet (ascii "message.timeout.ms") (int2Str messageTimeoutMs.toInt),
    .topicNew (cstr topic),
    .produceBatch partition (messages.map fun message =>
      ⟨cstr message, message.length, cstr key, key.length⟩)]

/-- `OutputKafka::output`: the codec whose producer sends, and what it calls. -/
def OutputKafka.output (kafkaTopicConf : KafkaTopicConf) (lines : List Str) :
    Str × List RdKafkaCall :=
  (kafkaTopicConf.compressionCodec,
    Producer.send lines [] kafkaTopicConf.topic kafkaTopicConf.key kafkaTopicConf.requiredAcks
      kafkaTopicConf.partition kafkaTopicConf.messageTimeoutMs)

/-- The pattern that `FilterRegex::init` compiles. -/
def FilterRegex.init (filterConf : FilterConf) : Option Str :=
  if filterConf.regexFilterPattern = [] then none else some (cstr filterConf.regexFilterPattern)

/-! ## The calls of a watcher -/

structure Calls where
  /-- `m_read_from_head` -/
  readFromHead : Bool
  /-- the parameters of `IOHandler::init` -/
  ioHandler : IOHandler.Conf
  /-- `pcre2_compile` -/
  compiles : Option Str
  /-- the producer, and the calls of librdkafka -/
  output : Str × List RdKafkaCall

namespace TailWatcher

variable (cfg : Config)

/-- The calls of a watcher that sends `lines`. -/
def calls (lines : List Str) (tw : TailWatcher) : Calls where
  readFromHead := tw.conf.logConf.readFromHead
  ioHandler := tw.ioConf cfg
  compiles := FilterRegex.init tw.conf.filterConf
  output := OutputKafka.output tw.conf.kafkaTopicConf lines

/-- Only watchers with the value `v` of the setting make the calls of `tw`. -/
def Shows (tw : TailWatcher) (f : Setting) (v : Setting.Value) : Prop :=
  ∀ tw' : TailWatcher, (tw'.conf.setting f).IsCString →
    (∀ lines, lines ≠ [] → tw'.calls cfg lines = tw.calls cfg lines) → tw'.conf.setting f = v

variable {cfg} {tw tw' : TailWatcher} {f : Setting} {v : Setting.Value}

theorem filterRegex_init_inj {a b : FilterConf} (ha : 0 ∉ a.regexFilterPattern)
    (hb : 0 ∉ b.regexFilterPattern) (h : FilterRegex.init a = FilterRegex.init b) :
    a.regexFilterPattern = b.regexFilterPattern := by
  unfold FilterRegex.init at h
  rw [cstr_of_not_mem ha, cstr_of_not_mem hb] at h
  split at h
  · split at h
    · exact Eq.trans ‹_› (Eq.symm ‹_›)
    · cases h
  · split at h
    · cases h
    · exact Option.some.inj h

theorem toUInt32_injective : Function.Injective Int32.toUInt32 := by
  rintro ⟨a⟩ ⟨b⟩ h
  exact congrArg Int32.ofUInt32 h

/-- The calls tell every setting but `required_acks`. -/
theorem setting_eq_of_calls (hacks : f ≠ .requiredAcks) (htw' : (tw'.conf.setting f).IsCString)
    (htw : (tw.conf.setting f).IsCString)
    (h : ∀ lines, lines ≠ [] → tw'.calls cfg lines = tw.calls cfg lines) :
    tw'.conf.setting f = tw.conf.setting f := by
  have hcalls := h [[]] (by simp)
  have hio : tw'.ioConf cfg = tw.ioConf cfg := congrArg Calls.ioHandler hcalls
  have hcodec : tw'.conf.kafkaTopicConf.compressionCodec = tw.conf.kafkaTopicConf.compressionCodec :=
    congrArg (Prod.fst ∘ Calls.output) hcalls
  have hsend := congrArg (Prod.snd ∘ Calls.output) hcalls
  simp only [Function.comp_apply, calls, OutputKafka.output, Producer.send, List.cons.injEq,
    RdKafkaCall.topicConfSet.injEq, RdKafkaCall.topicNew.injEq, RdKafkaCall.produceBatch.injEq,
    List.map_cons, List.map_nil, RdKafkaMessage.mk.injEq, true_and, and_true] at hsend
  obtain ⟨htimeout, htopic, hpartition, hkey, -⟩ := hsend
  cases f with
  | requiredAcks => exact absurd rfl hacks
  | batchsize =>
      have hsize := congrArg IOHandler.Conf.maxLineAtOnce hio
      exact congrArg Setting.Value.int (toUInt32_injective (UInt32.toNat_inj.mp hsize))
  | readFromHead => exact congrArg (Setting.Value.bool ∘ Calls.readFromHead) hcalls
  | lineDelimiter => exact congrArg (Setting.Value.char ∘ IOHandler.Conf.lineDelimiter) hio
  | removeDelimiter => exact congrArg (Setting.Value.bool ∘ IOHandler.Conf.removeDelimiter) hio
  | topic =>
      rw [cstr_of_not_mem htw', cstr_of_not_mem htw] at htopic
      exact congrArg Setting.Value.text htopic
  | key =>
      rw [cstr_of_not_mem htw', cstr_of_not_mem htw] at hkey
      exact congrArg Setting.Value.text hkey
  | partition => exact congrArg Setting.Value.int hpartition
  | compressionCodec => exact congrArg Setting.Value.text hcodec
  | messageTimeoutMs =>
      exact congrArg Setting.Value.int (Int32.toInt_inj.mp (int2Str_injective htimeout))
  | regexFilterPattern =>
      have hinit := congrArg Calls.compiles hcalls
      exact congrArg Setting.Value.text (filterRegex_init_inj htw' htw hinit)

/-- Nothing that is called depends on `required_acks`. -/
theorem not_shows_requiredAcks : ¬ tw.Shows cfg .requiredAcks v := by
  have hother (acks : Int32) (h : tw.Shows cfg .requiredAcks v) : Setting.Value.int acks = v :=
    h { tw with conf := { tw.conf with
      kafkaTopicConf := { tw.conf.kafkaTopicConf with requiredAcks := acks } } } trivial
      fun _ _ => rfl
  intro h
  have heq := (hother 0 h).trans (hother 1 h).symm
  exact absurd heq (by decide)

/-- What a watcher shows. -/
theorem shows_iff (htw : (tw.conf.setting f).IsCString) :
    tw.Shows cfg f v ↔ f ≠ .requiredAcks ∧ tw.conf.setting f = v := by
  constructor
  · intro h
    refine ⟨?_, h tw htw fun _ _ => rfl⟩
    rintro rfl
    exact not_shows_requiredAcks h
  · rintro ⟨hacks, rfl⟩ tw' htw' hcalls
    exact setting_eq_of_calls hacks htw' htw hcalls

end TailWatcher

end Logkafka
