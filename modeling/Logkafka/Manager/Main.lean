/-
# `Logkafka.Manager.Main` — the events of the main loop

`refreshWatchers` reads the configuration, brings the tasks up to date and then
the watchers; a watcher's triggers call its `onNotify`; the state is uploaded;
and the Manager is stopped.  Each is one event of the main loop, with the
answers of the system to it, and `step` is one event of a whole run: it is not
enabled when its trigger is stopped, and it has no next state when the program
crashes or deadlocks with itself.
-/
import Logkafka.Manager.Watchers
import Logkafka.Run

namespace Logkafka

open Manager PositionFile

variable (cfg : Config) (env : Env)

namespace Manager

/-! ## Tasks

The document becomes settings, and the settings tasks.  The paths of a task are
brought up to date once it has its settings.
-/

/-- The loop over the members of the document. -/
def readMembers : List (Str × Option TaskConf) → OrdMap Str TaskConf → OrdMap Str TaskConf
  | [], confs => confs
  | (_, none) :: members, confs => readMembers members confs -- continue
  | (name, some item) :: members, confs =>
      readMembers members (if item.isLegal then confs.insert name item else confs)

def refreshTaskConfs : M Bool := do
  scopedLock .logConfig (pure ()) -- getLogConfig
  match env.document with
  | .parseError => pure false
  | .notObject => do
      modify fun s => { s with taskConfs := OrdMap.empty }
      pure false
  | .object members => do
      modify fun s => { s with taskConfs := readMembers members OrdMap.empty }
      pure true

/-- "add paths in position file if this is first updating" -/
def addLastPaths (expandedPath : Str) (lastPath : Option Str) (globed : Option (List Str))
    (task : Task) : Task :=
  match lastPath with
  | none => task
  | some last =>
      ((globed.getD []).filter fun p => last < p ∧ p < expandedPath).foldl Task.addPath
        (task.addPath last)

/-- The task of `updateTaskPaths` before paths are removed. -/
def firstUpdate (s : Manager) (pathPattern : Str) (task : Task) : Task :=
  if task.stat.firstUpdatePaths ∧ env.expandPath pathPattern ≠ pathPattern
      ∧ task.conf.logConf.followLast then
    let task := addLastPaths (env.expandPath pathPattern)
      (PositionFile.getPath s.peMap pathPattern) (env.globed pathPattern) task
    { task with stat := { task.stat with firstUpdatePaths := false } }
  else task

/-- A path that cannot be read and is older than the expanded one. -/
def expired (expandedPath path : Str) : Bool := !env.readable path && path < expandedPath

/-- "remove expired paths": the loop, over the paths that are left. -/
def removeExpired (expandedPath : Str) (tail : Option (WatcherId × Str)) :
    List Str → M (List Str)
  | [] => pure []
  | firstPath :: paths =>
      match tail with
      | none =>
          if expired env expandedPath firstPath then removeExpired expandedPath tail paths
          else pure (firstPath :: paths)
      | some (tw, path) =>
          if path = firstPath then do
            if ← TailWatcher.active cfg env tw then pure (firstPath :: paths)
            else removeExpired expandedPath tail paths
          else if expired env expandedPath firstPath then removeExpired expandedPath tail paths
          else pure (firstPath :: paths)

/-- The watcher whose path `updateTaskPaths` looks at. -/
def tailPath (pathPattern : Str) : M (Option (WatcherId × Str)) := do
  match (← get).tails.find? pathPattern with
  | none => pure none
  | some none => crash .nullPointer
  | some (some tw) => do
      let t ← getWatcher tw
      pure (some (tw, t.path))

def updateTaskPaths (pathPattern : Str) : M Unit := do
  let s ← get
  match s.tasks.find? pathPattern with
  | none => crash .nullPointer
  | some task => do
      let task := firstUpdate env s pathPattern task
      let tail ← tailPath pathPattern
      let paths ← removeExpired cfg env (env.expandPath pathPattern) tail task.stat.paths
      let task := { task with stat := { task.stat with paths := paths } }
      modify fun s => { s with
        tasks := s.tasks.insert pathPattern (task.addPath (env.expandPath pathPattern)) }

def deleteTasks : List Str → M Unit
  | [] => pure ()
  | pathPattern :: ps => do
      modify fun s => { s with tasks := s.tasks.erase pathPattern }
      deleteTasks ps

def addTasks : List Str → M Unit
  | [] => pure ()
  | pathPattern :: ps => do
      match (← get).taskConfs.find? pathPattern with
      | none => crash .nullPointer -- not a key of m_task_confs
      | some conf => do
          let task : Task := ⟨cfg.pathQueueMaxSize, conf, ⟨true, []⟩⟩
          modify fun s => { s with tasks := s.tasks.insert pathPattern task }
          updateTaskPaths cfg env pathPattern
      addTasks ps

def updateTasks : List Str → M Unit
  | [] => pure ()
  | pathPattern :: ps => do
      let s ← get
      match s.tasks.find? pathPattern, s.taskConfs.find? pathPattern with
      | some task, some conf => do
          modify fun s => { s with tasks := s.tasks.insert pathPattern { task with conf := conf } }
          updateTaskPaths cfg env pathPattern
      | _, _ => crash .nullPointer
      updateTasks ps

/-- The loop over `m_tails_deleted`. -/
def deleteOld : List WatcherId → M Unit
  | [] => modify fun s => { s with tailsDeleted := [] }
  | tw :: tws => do
      TailWatcher.delete tw
      deleteOld tws

def refreshTasks : M Unit := do
  let s ← get
  deleteTasks (s.tasks.keys.diff s.taskConfs.keys).elems
  addTasks cfg env (s.taskConfs.keys.diff s.tasks.keys).elems
  updateTasks cfg env (s.tasks.keys.inter s.taskConfs.keys).elems
  scopedLock .tailWatchersDeleted (do deleteOld (← get).tailsDeleted)

/-! ## The events -/

/-- `refreshWatchers`; whether it got as far as the watchers. -/
def refreshWatchers : M Bool :=
  scopedLock .tailWatchers do
    if ← refreshTaskConfs env then
      refreshTasks cfg env
      let s ← get
      stopWatchers cfg env true true (s.tails.keys.diff s.tasks.keys).elems
      startWatchers env (s.tasks.keys.diff s.tails.keys).elems
      updateWatchers cfg env (s.tails.keys.inter s.tasks.keys).elems
      pure true
    else pure false

/-- `TailWatcher::Serialize`, its locks. -/
def serialize (tw : WatcherId) : M Unit := do
  let t ← getWatcher tw
  scopedLock (.ioHandler tw) do
    if t.reader.isSome then
      scopedLock (.file tw) (pure ()) -- getFileInode
      scopedLock (.file tw) (pure ()) -- getFilePos
      scopedLock (.file tw) (pure ()) -- getFileSize
  scopedLock (.rotateHandler tw) (pure ())

def serializeAll : List (Str × Option WatcherId) → M Unit
  | [] => pure ()
  | (pathPattern, some tw) :: es => do
      if pathPattern ≠ [] then serialize tw
      serializeAll es
  | (_, none) :: es => serializeAll es

/-- `uploadCollectingState`: `getCollectingState`, then `setLogState`. -/
def uploadCollectingState : M Unit := do
  scopedLock .tailWatchers (do serializeAll (← get).tails.entries)
  scopedLock .zhandle (pure ())

def stop : M Unit := do
  modify fun s => { s with refreshTrigger := false }
  scopedLock .tailWatchers do
    stopWatchers cfg env true false (← get).tails.keys.elems
    scopedLock .zhandle (pure ()) -- Zookeeper::close

/-! ## Runs -/

inductive Event
  | refresh (env : Env)
  /-- the timer or the stat trigger of a watcher -/
  | notify (env : Env) (tw : WatcherId)
  | upload
  | stop (env : Env)

/-- The trigger of the event is started. -/
def Enabled (s : Manager) : Event → Prop
  | .refresh _ => s.refreshTrigger = true
  | .notify _ tw => ∃ t, s.watchers tw = some t ∧ t.running = true
  | .upload => True
  | .stop _ => True

instance (s : Manager) : (e : Event) → Decidable (Enabled s e)
  | .refresh _ => inferInstanceAs (Decidable (_ = true))
  | .notify _ tw => inferInstanceAs (Decidable (∃ t, s.watchers tw = some t ∧ t.running = true))
  | .upload => isTrue trivial
  | .stop _ => isTrue trivial

/-- The program of an event. -/
def exec : Event → M Unit
  | .refresh env => do let _ ← refreshWatchers cfg env
  | .notify env tw => TailWatcher.onNotify cfg env tw
  | .upload => uploadCollectingState
  | .stop env => stop cfg env

/-- One event of the main loop; no lock is held when it starts. -/
def step (e : Event) (s : Manager) : Option Manager :=
  if Enabled s e then
    match exec cfg e [] s with
    | .ok ((), s') => some s'
    | .error _ => none
  else none

/-- `start()` with a position file that has the entries `pf`. -/
def init (pf : OrdMap PositionEntryKey Slot) : Manager where
  taskConfs := OrdMap.empty
  tasks := OrdMap.empty
  tails := OrdMap.empty
  tailsDeleted := []
  watchers := fun _ => none
  nextWatcher := 0
  peMap := pf.mapWithKey fun pek _ => ⟨pek, 0⟩
  slots := fun pe => if pe.serial = 0 then pf.find? pe.key else none
  removed := []
  nextSerial := 1
  producers := []
  refreshTrigger := true

end Manager

end Logkafka
