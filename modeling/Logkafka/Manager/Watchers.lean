/-
# `Logkafka.Manager.Watchers` — setting watchers up, and up to date

The functions of manager.cc that make, start, stop and replace watchers, and
the way up from a watcher's rotate handler: `onNotify` calls `onRotate`, which
may call `updateWatcherRotate` with the pattern, the path and the entry of the
calling watcher.  `updateWatcherRotate` looks for the watcher to replace under
the path.

A loop over a set of patterns runs over its elements in increasing order.
-/
import Logkafka.Manager.Basic

namespace Logkafka

open Manager PositionFile

variable (cfg : Config) (env : Env)

/-! ## Setting up and closing

`setupWatcher` makes an object and registers nothing; that is left to the callers.
-/

/-- The keys of `Producer::cc_map`: "none", "gzip", "snappy". -/
def ccMap : List Str :=
  [[110, 111, 110, 101], [103, 122, 105, 112], [115, 110, 97, 112, 112, 121]]

/-- `OutputKafka::initProducer` -/
def initProducer (compressionCodec : Str) : M Bool := do
  if compressionCodec ∉ ccMap then pure false
  else if compressionCodec ∈ (← get).producers then pure true
  else do
    scopedLock .brokerUrls (pure ())
    if env.producerInit compressionCodec then
      modify fun s => { s with producers := compressionCodec :: s.producers }
      pure true
    else pure false

namespace Manager

/-- `setupWatcher`; it does not look at `enabled`. -/
def setupWatcher (conf : TaskConf) (pathPattern path : Str) (positionEntry : EntryId)
    (_enabled : Bool) : M (Option WatcherId) := do
  if ← initProducer env conf.kafkaTopicConf.compressionCodec then
    if env.triggersInit then
      let tw := (← get).nextWatcher
      scopedLock (.rotateHandler tw) (pure ())
      modify fun s => { s with
        nextWatcher := tw + 1
        watchers := Function.update s.watchers tw
          (some (TailWatcher.init pathPattern path positionEntry conf)) }
      pure (some tw)
    else crash .halfInitialised
  else pure none

def closeWatcher (tw : WatcherId) (closeIo removePosEntry : Bool) : M Unit := do
  TailWatcher.stop cfg env tw closeIo
  let t ← getWatcher tw
  let pek : PositionEntryKey := ⟨t.pathPattern, t.path⟩
  if t.unwatched then
    let pe ← getEntry pek
    modifySlot pe (·.updatePos unwatchedPosition)
  if removePosEntry then removeEntry pek

/-- The part of `startWatchers` that prepares the entry. -/
def startEntry (task : Task) (pathPattern : Str) : M EntryId := do
  let pe ← getEntry ⟨pathPattern, task.getPath⟩
  if task.conf.logConf.readFromHead then
    let slot ← getSlot pe
    if slot.readInode = inoNone then
      setSlot pe (slot.update (env.getInode task.getPath) 0)
  pure pe

def startWatchers : List Str → M Unit
  | [] => pure ()
  | pathPattern :: paths => do
      let s ← get
      match s.tasks.find? pathPattern with
      | none => crash .nullPointer
      | some task =>
          if task.conf.valid = false then pure () -- return
          else if (s.tails.find? pathPattern).isSome then pure () -- return
          else do
            let pe ← startEntry env task pathPattern
            let tw ← setupWatcher env task.conf pathPattern task.getPath pe task.getEnabled
            if tw.isSome then
              modify fun s => { s with tails := s.tails.insert pathPattern tw }
            startWatchers paths

def stopWatchers (immediate unwatched : Bool) : List Str → M Unit
  | [] => pure ()
  | pathPattern :: paths => do
      match (← get).tails.find? pathPattern with
      | none => pure ()
      | some none => crash .nullPointer
      | some (some tw) => do
          modifyWatcher tw fun t => { t with unwatched := unwatched }
          if immediate then
            closeWatcher cfg env tw true true
            TailWatcher.delete tw
            modify fun s => { s with tails := s.tails.erase pathPattern }
      stopWatchers immediate unwatched paths

/-! ## Rotation

From the innermost call to the trigger, since each function is used by the next.
-/

/-- `updateWatcherRotate`: the watcher to replace is looked for under `path`. -/
def updateWatcherRotate (pathPattern path : Str) (positionEntry : EntryId) : M Bool :=
  scopedLock .tailWatchers do
    match (← get).tails.find? path with
    | some (some tw) => do
        if ← TailWatcher.active cfg env tw then pure false
        else do
          closeWatcher cfg env tw true false
          modifySlot positionEntry (·.updatePos 0)
          let t ← getWatcher tw
          match (← get).tasks.find? pathPattern with
          | some task => do
              let new ← setupWatcher env t.conf pathPattern path positionEntry task.getEnabled
              if new.isSome then
                modify fun s => { s with tails := s.tails.insert pathPattern new }
                scopedLock .tailWatchersDeleted
                  (modify fun s => { s with tailsDeleted := s.tailsDeleted ++ [tw] })
                pure true
              else pure false
          | none => crash .nullPointer
    | _ => crash .nullPointer

end Manager

namespace TailWatcher

/-- The part of `onRotate` under the IO handler's lock; `none` where it calls
the Manager. -/
def rotateIo (tw : WatcherId) (file : File) : M (Option Bool) := do
  let t ← getWatcher tw
  let slot ← getSlot t.positionEntry
  match t.onRotate (env.ioInit tw) env.now file slot with
  | .returned ok t' slot' => do
      if t.reader.isSome && file.stat.inode = slot.readInode && ok then
        scopedLock (.file tw) (pure ()) -- the old handler is closed
      setWatcher tw t'
      setSlot t.positionEntry slot'
      pure (some ok)
  | .handOver => pure none

/-- `onRotate`, as the callback of the rotate handler. -/
def rotate (tw : WatcherId) (file : File) : M Bool := do
  match ← scopedLock (.ioHandler tw) (rotateIo env tw file) with
  | some ok => pure ok
  | none => do
      let t ← getWatcher tw
      updateWatcherRotate cfg env t.pathPattern t.path t.positionEntry

/-- `RotateHandler::onNotify` -/
def notifyRotateHandler (tw : WatcherId) : M Unit := do
  let t ← getWatcher tw
  let st := env.stat t.path
  if t.rotateHandler.rotated st then
    match env.fopen t.path with
    | none => pure ()
    | some opened => do
        if ← rotate cfg env tw (fopen opened) then
          modifyWatcher tw fun t => { t with rotateHandler := RotateHandler.record st }
  else setWatcher tw { t with rotateHandler := t.rotateHandler.grow st }

def onNotify (tw : WatcherId) : M Unit := do
  scopedLock (.rotateHandler tw) (notifyRotateHandler cfg env tw)
  scopedLock (.ioHandler tw) (notifyIoHandler cfg (env.notifyIo tw) tw)

def start (tw : WatcherId) : M Unit := do
  modifyWatcher tw fun t => { t with running := true }
  onNotify cfg env tw

end TailWatcher

/-! ## Following the configuration -/

namespace Manager

/-- The watcher of `pathPattern` replaced by a new one, as in `updateWatchers`;
what `setupWatcher` returns is stored, `NULL` too. -/
def replaceWatcher (task : Task) (tail : WatcherId) (pathPattern : Str) : M Unit := do
  closeWatcher cfg env tail true false
  let t ← getWatcher tail
  let pe ← getEntry ⟨pathPattern, t.path⟩
  let tw ← setupWatcher env task.conf pathPattern task.getPath pe task.getEnabled
  modify fun s => { s with tails := s.tails.insert pathPattern tw }

/-- The last two steps of the loop of `updateWatchers`: `tail` is started or
stopped when the task and it are not both enabled or both disabled. -/
def followEnabled (task : Task) (tail : WatcherId) : M Unit := do
  let t ← getWatcher tail
  if task.getEnabled ∧ ¬ t.getEnabled then
    TailWatcher.start cfg env tail
    modifyWatcher tail (·.setEnabled true)
  let t ← getWatcher tail
  if ¬ task.getEnabled ∧ t.getEnabled then
    TailWatcher.stop cfg env tail false
    modifyWatcher tail (·.setEnabled false)

/-- The body of the loop of `updateWatchers`.  `tail` is the watcher as it was
found, also when another one is in `m_tails` by then. -/
def updateWatchersBody (pathPattern : Str) : M Unit := do
  let s ← get
  match s.tasks.find? pathPattern, s.tails.find? pathPattern with
  | some task, some (some tail) => do
      let t ← getWatcher tail
      if task.conf.same t.conf then
        if task.getPath ≠ t.path then
          stopWatchers cfg env true true [pathPattern]
          startWatchers env [pathPattern]
      else do
        if ¬ task.conf.sameOutput t.conf then replaceWatcher cfg env task tail pathPattern
        followEnabled cfg env task tail
  | _, _ => crash .nullPointer

def updateWatchers : List Str → M Unit
  | [] => pure ()
  | pathPattern :: paths => do
      updateWatchersBody cfg env pathPattern
      updateWatchers paths

end Manager

end Logkafka
