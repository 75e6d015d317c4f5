/-
# `Logkafka.TaskConf` — the settings of a collected path

`TaskConf` (task_conf.h) is what one entry of the JSON configuration says
about one path pattern, and `Task` is the Manager's record of the pattern: its
settings and the queue of paths its expansions have given.

Two settings are compared with the `operator==` of the source.  That of
`LogConf` does not look at `read_from_head`.
-/
import Logkafka.Tools

namespace Logkafka

structure LogConf where
  logPath : Str
  followLast : Bool
  batchsize : Int32
  readFromHead : Bool
  lineDelimiter : Byte
  removeDelimiter : Bool
deriving DecidableEq

/-- `operator==` -/
def LogConf.same (a b : LogConf) : Bool :=
  a.logPath = b.logPath && a.followLast = b.followLast && a.batchsize = b.batchsize &&
    a.lineDelimiter = b.lineDelimiter && a.removeDelimiter = b.removeDelimiter

/-- `isLegal()`: there is no `'*'` in the path. -/
def LogConf.isLegal (a : LogConf) : Bool := 42 ∉ a.logPath

structure FilterConf where
  regexFilterPattern : Str
deriving DecidableEq

/-- `operator==` -/
def FilterConf.same (a b : FilterConf) : Bool := a.regexFilterPattern = b.regexFilterPattern

structure KafkaTopicConf where
  brokers : Str
  topic : Str
  compressionCodec : Str
  requiredAcks : Int32
  key : Str
  partition : Int32
  messageTimeoutMs : Int32
deriving DecidableEq

/-- `operator==` -/
def KafkaTopicConf.same (a b : KafkaTopicConf) : Bool :=
  a.brokers = b.brokers && a.topic = b.topic && a.compressionCodec = b.compressionCodec &&
    a.requiredAcks = b.requiredAcks && a.key = b.key && a.partition = b.partition &&
    a.messageTimeoutMs = b.messageTimeoutMs

/-- `isLegal()` -/
def KafkaTopicConf.isLegal (_ : KafkaTopicConf) : Bool := true

structure TaskConf where
  /-- "if false, the log file will not be collected" -/
  valid : Bool
  logConf : LogConf
  kafkaTopicConf : KafkaTopicConf
  filterConf : FilterConf
deriving DecidableEq

namespace TaskConf

/-- The test of `updateWatchers` for a watcher that has to be set up again, the
other way round: nothing but `valid` differs. -/
def sameOutput (a b : TaskConf) : Bool :=
  a.logConf.same b.logConf && a.kafkaTopicConf.same b.kafkaTopicConf &&
    a.filterConf.same b.filterConf

/-- `operator==` -/
def same (a b : TaskConf) : Bool := a.valid = b.valid && a.sameOutput b

def isLegal (a : TaskConf) : Bool := a.logConf.isLegal && a.kafkaTopicConf.isLegal

theorem same_iff (a b : TaskConf) :
    a.same b = true ↔ a.valid = b.valid ∧ a.sameOutput b = true := by
  simp [same]

end TaskConf

structure TaskStat where
  firstUpdatePaths : Bool
  /-- `queue<string> paths`, its front first -/
  paths : List Str
deriving DecidableEq

structure Task where
  pathQueueMaxSize : ℕ
  conf : TaskConf
  stat : TaskStat
deriving DecidableEq

namespace Task

/-- `getPath()` and `getFirstPath()` -/
def getPath (t : Task) : Str := t.stat.paths.headD []

def getEnabled (t : Task) : Bool := t.conf.valid

/-- `addPath`: not the last path again, and not into a full queue. -/
def addPath (t : Task) (path : Str) : Task :=
  match t.stat.paths.getLast? with
  | none => { t with stat := { t.stat with paths := [path] } }
  | some last =>
      if path ≠ last ∧ t.stat.paths.length < t.pathQueueMaxSize then
        { t with stat := { t.stat with paths := t.stat.paths ++ [path] } }
      else t

@[simp] theorem addPath_conf (t : Task) (path : Str) : (t.addPath path).conf = t.conf := by
  unfold addPath
  split
  · rfl
  · split <;> rfl

end Task

end Logkafka
