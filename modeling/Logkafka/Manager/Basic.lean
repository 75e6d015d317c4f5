/-
# `Logkafka.Manager.Basic` — the state of the Manager and its objects

The `Manager` (manager.cc) keeps three maps over path patterns, `m_task_confs`,
`m_tasks` and `m_tails`, and owns the position file.  A `TailWatcher *` is a
`WatcherId` here, `watchers` says which of them are alive, and a
`FilePositionEntry *` is an `EntryId`, `slots` says what its place holds; so
two pointers may be to one object, and a pointer may outlive its object.

The programs are those of the main loop's thread.  They lock the `Mutex`es of
the source with `scopedLock`, and they may crash: on `NULL`, on an object that
was deleted, or in the destructor of a watcher that is only half initialised.
What the system answers during one event is an `Env`.

This module has the state and the calls on one object of it; the `Manager`'s
own functions are in `Manager.Watchers` and `Manager.Main`.
-/
import Mathlib.Logic.Function.Basic
import Logkafka.OrdMap
import Logkafka.Prog
import Logkafka.TailWatcher.Basic

namespace Logkafka

abbrev WatcherId := ℕ

/-- The mutexes that are locked; those that are only tried are left out. -/
inductive Mutex
  /-- `m_tail_watchers_mutex` -/
  | tailWatchers
  /-- `m_tail_watchers_deleted_mutex` -/
  | tailWatchersDeleted
  /-- `m_rotate_handler_mutex` of a watcher -/
  | rotateHandler (tw : WatcherId)
  /-- `m_io_handler_mutex` of a watcher -/
  | ioHandler (tw : WatcherId)
  /-- `m_file_mutex` of a watcher's `IOHandler` -/
  | file (tw : WatcherId)
  | logConfig
  | brokerUrls
  | zhandle
deriving DecidableEq

inductive Crash
  | nullPointer
  | dangling
  /-- `delete` of a `TailWatcher` whose `init` failed -/
  | halfInitialised
  /-- not the program: the answers are not those of the call -/
  | unanswered
deriving DecidableEq

structure Manager where
  taskConfs : OrdMap Str TaskConf
  tasks : OrdMap Str Task
  /-- `m_tails`; `none` is `NULL` -/
  tails : OrdMap Str (Option WatcherId)
  tailsDeleted : List WatcherId
  watchers : WatcherId → Option TailWatcher
  nextWatcher : WatcherId
  /-- `m_pe_map` -/
  peMap : OrdMap PositionEntryKey EntryId
  slots : EntryId → Option Slot
  /-- the lines of the position file whose entries were removed -/
  removed : List (EntryId × Slot)
  nextSerial : ℕ
  /-- the codecs in `OutputKafka::m_producer_map` -/
  producers : List Str
  /-- `m_refresh_trigger` is started -/
  refreshTrigger : Bool

/-- The answers to one call of `IOHandler::onNotify`, and when it came. -/
structure Io where
  file : LogFile
  now : ℤ
  events : List IOHandler.Event

/-- What the log configuration is, as JSON: each member of an object has a name
and, if it has a topic, the settings it says. -/
inductive Document
  | parseError
  | notObject
  | object (members : List (Str × Option TaskConf))

instance {d : Document} {p : List (Str × Option TaskConf) → Prop} [DecidablePred p] :
    Decidable (∀ members, d = .object members → p members) :=
  match d with
  | .object members => decidable_of_iff (p members) (by simp)
  | .parseError | .notObject => isTrue fun _ h => nomatch h

/-- What the clock, the file system, libuv, Zookeeper and Kafka answer during
one event of the main loop. -/
structure Env where
  now : ℤ
  document : Document
  /-- `strftime` of a pattern -/
  expandPath : Str → Str
  /-- `getPathPatternGlobed`; `none` where it returns `false` -/
  globed : Str → Option (List Str)
  /-- `access(path, R_OK)` -/
  readable : Str → Bool
  /-- `getInode(path)` -/
  getInode : Str → InoT
  stat : Str → Option FileStat
  /-- `fstat` of the stream that `fopen(path, "r")` opened -/
  fopen : Str → Option FileStat
  producerInit : Str → Bool
  /-- the timer and the stat trigger of a new watcher -/
  triggersInit : Bool
  /-- `IOHandler::init` -/
  ioInit : WatcherId → Bool
  /-- the call that `TailWatcher::stop` makes -/
  stopIo : WatcherId → Io
  /-- the call that `TailWatcher::onNotify` makes -/
  notifyIo : WatcherId → Io

abbrev M (α : Type) := Prog Mutex Crash Manager α

export Prog (crash scopedLock)

/-! ## Objects -/

namespace Manager

/-- A `TailWatcher *` dereferenced. -/
def getWatcher (tw : WatcherId) : M TailWatcher := do
  match (← get).watchers tw with
  | some t => pure t
  | none => crash .dangling

def setWatcher (tw : WatcherId) (t : TailWatcher) : M Unit :=
  modify fun s => { s with watchers := Function.update s.watchers tw (some t) }

def modifyWatcher (tw : WatcherId) (f : TailWatcher → TailWatcher) : M Unit := do
  setWatcher tw (f (← getWatcher tw))

/-- A `FilePositionEntry *` dereferenced, to read. -/
def getSlot (pe : EntryId) : M Slot := do
  match (← get).slots pe with
  | some slot => pure slot
  | none => crash .dangling

/-- A `FilePositionEntry *` dereferenced, to write. -/
def setSlot (pe : EntryId) (slot : Slot) : M Unit := do
  let _ ← getSlot pe
  modify fun s => { s with slots := Function.update s.slots pe (some slot) }

def modifySlot (pe : EntryId) (f : Slot → Slot) : M Unit := do
  setSlot pe (f (← getSlot pe))

end Manager

namespace PositionFile

open Manager

/-- `operator[]`: a key without an entry gets one, and a line of zeros. -/
def getEntry (pek : PositionEntryKey) : M EntryId := do
  let s ← get
  match s.peMap.find? pek with
  | some pe => pure pe
  | none => do
      let pe : EntryId := ⟨pek, s.nextSerial⟩
      modify fun s => { s with
        nextSerial := s.nextSerial + 1
        peMap := s.peMap.insert pek pe
        slots := Function.update s.slots pe (some ⟨0, 0⟩) }
      pure pe

/-- `remove`; the line stays in the file. -/
def removeEntry (pek : PositionEntryKey) : M Unit := do
  match (← get).peMap.find? pek with
  | some pe => modify fun s => { s with
      peMap := s.peMap.erase pek
      slots := Function.update s.slots pe none
      removed := s.removed ++ (s.slots pe).toList.map fun slot => (pe, slot) }
  | none => pure ()

/-- `getPath`: the path of the last entry of a pattern. -/
def getPath (peMap : OrdMap PositionEntryKey EntryId) (pathPattern : Str) : Option Str :=
  (peMap.entries.reverse.find? fun e => e.1.pathPattern = pathPattern).map fun e => e.1.path

end PositionFile

/-! ## The calls of a watcher on its handlers -/

namespace TailWatcher

open Manager

variable (cfg : Config) (env : Env)

/-- The locks of the file in a call of `IOHandler::onNotify`: one for each
`fread` and one for each position that is stored. -/
def lockFile (tw : WatcherId) : List IOHandler.Event → M Unit
  | [] => pure ()
  | .fread _ _ _ _ :: es => do
      scopedLock (.file tw) (pure ())
      lockFile tw es
  | .receive ok _ _ :: es => do
      if ok then scopedLock (.file tw) (pure ())
      lockFile tw es

/-- `m_io_handler->onNotify(..)` -/
def notifyIoHandler (io : Io) (tw : WatcherId) : M Unit := do
  let t ← getWatcher tw
  if t.reader.isSome then
    lockFile tw io.events
    let s ← get
    match notifyIo cfg io.file io.now io.events t ((s.slots t.positionEntry).getD ⟨0, 0⟩) with
    | some (t', slot) => do
        setWatcher tw t'
        if (IOHandler.answers io.events).any Prod.fst then setSlot t.positionEntry slot
    | none => crash .unanswered

/-- `m_io_handler->close()` -/
def closeIoHandler (tw : WatcherId) : M Unit := do
  let t ← getWatcher tw
  if t.reader.isSome then scopedLock (.file tw) (setWatcher tw t.closeIo)

def stop (tw : WatcherId) (closeIo : Bool) : M Unit := do
  modifyWatcher tw fun t => { t with running := false }
  scopedLock (.ioHandler tw) do
    if closeIo then
      notifyIoHandler cfg (env.stopIo tw) tw
      closeIoHandler tw

/-- `isActive()`, with its lock. -/
def active (tw : WatcherId) : M Bool := do
  let t ← getWatcher tw
  scopedLock (.ioHandler tw) (pure (t.isActive cfg env.now))

/-- `~TailWatcher()` -/
def delete (tw : WatcherId) : M Unit := do
  let _ ← getWatcher tw
  scopedLock (.rotateHandler tw) (pure ())
  scopedLock (.ioHandler tw) (pure ())
  modify fun s => { s with watchers := Function.update s.watchers tw none }

end TailWatcher

end Logkafka
