/-
# `Logkafka.TailWatcher.Files` — a watcher and the files at its path

`RotateHandler::onNotify` takes three looks at the disk: `stat` of the path,
`fopen` of the path, and `fstat` of what was opened (in `onRotate`).  Whoever
writes the log acts in between: appends, truncates, renames the file away or
puts a new one in its place.  `World` has the files, the process, of which one
watcher matters, and what the position file holds for it; `step` is one action
of either side.

The process may die at any point, also in the middle of a call of the IO
handler, and be started again: the watcher is gone, the entry's slot stays.

Three fields of a file are no more than its history, and no branch reads them:
the least size since a watcher was last lost, whether it became shorter since a
reader of it was last installed, and whether one ever was.
-/
import Logkafka.TailWatcher.Resume

namespace Logkafka

abbrev Inode := { i : InoT // i ≠ inoNone }

structure LogInode where
  size : Offset
  /-- the least size since a watcher was last lost -/
  lowest : Offset
  lowest_le : lowest.val ≤ size.val
  /-- it became shorter since a reader of it was last installed -/
  shrunk : Bool
  /-- a reader of it was installed -/
  read : Bool
deriving DecidableEq

/-- An empty file. -/
def LogInode.new : LogInode :=
  ⟨⟨0, Int64.le_refl 0⟩, ⟨0, Int64.le_refl 0⟩, Int64.le_refl 0, false, false⟩

structure Files where
  /-- what the watched path names -/
  path : Option Inode
  /-- the files there are, or have been -/
  file : Inode → Option LogInode

namespace Files

def set (fs : Files) (i : Inode) (f : LogInode) : Files :=
  { fs with file := Function.update fs.file i (some f) }

/-- `stat` of a file. -/
def fstat (fs : Files) (i : Inode) : Option FileStat :=
  (fs.file i).map fun f => ⟨i.val, f.size, i.property⟩

/-- `stat` of the path. -/
def stat (fs : Files) : Option FileStat := fs.path.bind fs.fstat

def sizeOf (fs : Files) (i : InoT) : ℤ :=
  if h : i ≠ inoNone then ((fs.file ⟨i, h⟩).map fun f => f.size.val.toInt).getD 0 else 0

/-- A reader of the file was installed. -/
def installed (fs : Files) (i : Inode) : Files :=
  match fs.file i with
  | some f => fs.set i { f with shrunk := false, read := true }
  | none => fs

/-- No watcher is there any more. -/
def lost (fs : Files) : Files :=
  { fs with file := fun i => (fs.file i).map fun f =>
      { f with lowest := f.size, lowest_le := Int64.le_refl _ } }

end Files

/-- What happens to the files. -/
inductive Change
  | append (i : Inode) (size : Offset)
  | truncate (i : Inode) (size : Offset)
  | rename
  | create (i : Inode)
deriving DecidableEq

def LogInode.append (f : LogInode) (size : Offset) : Option LogInode :=
  if h : f.size.val ≤ size.val then
    some { f with size, lowest_le := Int64.le_trans f.lowest_le h }
  else none

def LogInode.truncate (f : LogInode) (size : Offset) : Option LogInode :=
  if size.val < f.size.val then
    if h : f.lowest.val ≤ size.val then some { f with size, lowest_le := h, shrunk := true }
    else some { f with size, lowest := size, lowest_le := Int64.le_refl _, shrunk := true }
  else none

def Change.apply : Change → Files → Option Files
  | .append i size, fs => ((fs.file i).bind (·.append size)).map (fs.set i)
  | .truncate i size, fs => ((fs.file i).bind (·.truncate size)).map (fs.set i)
  | .rename, fs => some { fs with path := none }
  | .create i, fs =>
      match fs.file i with
      | some _ => none
      | none => some { fs.set i LogInode.new with path := some i }

/-- Where a notification stands. -/
inductive Pc
  | idle
  /-- `stat` has answered -/
  | statted (st : Option FileStat)
  /-- `fopen` has opened a file -/
  | opened (st : Option FileStat) (i : Inode)
deriving DecidableEq

structure World where
  files : Files
  watcher : Option TailWatcher
  slot : Slot
  pc : Pc

/-- One call of the IO handler: the file, when, and the answers. -/
structure IoCall where
  file : LogFile
  now : ℤ
  events : List IOHandler.Event

/-- What `updateWatcherRotate` comes to.  The old watcher makes a last call of
its IO handler unless it is still active. -/
inductive HandOver
  | active
  | setupFailed (io : IoCall)
  | replaced (io : IoCall)

inductive Act
  | change (c : Change)
  | stat
  | fopen
  | rotate (initOk : Bool) (now : ℤ) (handOver : HandOver)
  | read (io : IoCall)
  /-- `stop(true)` -/
  | close (io : IoCall)
  | die
  | dieReading (io : IoCall)
  | start (conf : TaskConf)

namespace World

variable (cfg : Config) (key : PositionEntryKey)

/-- No `fread` sees more of the reader's file than there is. -/
def Sees (fs : Files) (tw : TailWatcher) (io : IoCall) : Prop :=
  ∀ r, tw.reader = some r → ∀ e ∈ io.events,
    match e with
    | .fread visible _ _ _ => (visible : ℤ) ≤ fs.sizeOf r.inode
    | .receive _ _ _ => True

instance (fs : Files) (tw : TailWatcher) (io : IoCall) : Decidable (Sees fs tw io) :=
  match h : tw.reader with
  | none => isTrue fun _ hr => by rw [h] at hr; cases hr
  | some r =>
      have : ∀ e : IOHandler.Event, Decidable (match e with
          | .fread visible _ _ _ => (visible : ℤ) ≤ fs.sizeOf r.inode
          | .receive _ _ _ => True) := fun e => by cases e <;> infer_instance
      decidable_of_iff (∀ e ∈ io.events, match e with
          | .fread visible _ _ _ => (visible : ℤ) ≤ fs.sizeOf r.inode
          | .receive _ _ _ => True)
        ⟨fun hall r' hr => by
            obtain rfl : r = r' := Option.some.inj (h.symm.trans hr)
            exact hall,
          fun hall => hall r h⟩

/-- The IO handler is called; with `close`, it is closed afterwards. -/
def io (close : Bool) (c : IoCall) (w : World) (tw : TailWatcher) : Option TailWatcher.Watched :=
  if Sees w.files tw c then
    TailWatcher.life cfg (if close then .stop true c.file c.now c.events
      else .read c.file c.now c.events) ⟨tw, w.slot⟩
  else none

/-- What the entry holds when the process dies within a call. -/
def ioUntil (c : IoCall) (w : World) (tw : TailWatcher) : Option Slot :=
  if Sees w.files tw c then
    match tw.reader with
    | none => none
    | some r =>
        (run (IOHandler.step (tw.ioConf cfg) c.file) c.events
            (IOHandler.enter (tw.ioConf cfg) c.now r.handler)).map fun s =>
          if (IOHandler.answers c.events).any Prod.fst then
            w.slot.updatePos (Int64.ofNat s.2.stored)
          else w.slot
  else none

/-- `updateWatcherRotate` on the watcher that called it: it is closed, its
entry goes back to the head, and a new watcher takes its place. -/
def handOver (w : World) (tw : TailWatcher) : HandOver → Option World
  | .active => some { w with pc := .idle }
  | .setupFailed c => (io cfg true c w tw).map fun s =>
      { w with watcher := some s.tw, slot := s.slot.updatePos 0, pc := .idle }
  | .replaced c => (io cfg true c w tw).map fun s =>
      { w with
        watcher := some (TailWatcher.init key.pathPattern key.path ⟨key, 0⟩ tw.conf)
        slot := s.slot.updatePos 0
        pc := .idle }

/-- `onRotate` on the file that was opened. -/
def onRotate (initOk : Bool) (now : ℤ) (h : HandOver) (st : Option FileStat) (i : Inode)
    (tw : TailWatcher) (w : World) : Option World :=
  (w.files.fstat i).bind fun fst =>
    match tw.onRotate initOk now (Logkafka.fopen fst) w.slot with
    | .returned true tw' slot => some
        { files := w.files.installed i
          watcher := some { tw' with rotateHandler := RotateHandler.record st }
          slot
          pc := .idle }
    | .returned false tw' slot => some { w with watcher := some tw', slot, pc := .idle }
    | .handOver => handOver cfg key w tw h

def step : Act → World → Option World
  | .change c, w => (c.apply w.files).map fun files => { w with files }
  | .stat, w =>
      match w.watcher, w.pc with
      | some _, .idle => some { w with pc := .statted w.files.stat }
      | _, _ => none
  | .fopen, w =>
      match w.watcher, w.pc with
      | some tw, .statted st =>
          if tw.rotateHandler.rotated st then
            match w.files.path with
            | some i => some { w with pc := .opened st i }
            | none => some { w with pc := .idle }
          else some
            { w with
              watcher := some { tw with rotateHandler := tw.rotateHandler.grow st }
              pc := .idle }
      | _, _ => none
  | .rotate initOk now h, w =>
      match w.watcher, w.pc with
      | some tw, .opened st i => onRotate cfg key initOk now h st i tw w
      | _, _ => none
  | .read c, w =>
      match w.watcher, w.pc with
      | some tw, .idle => (io cfg false c w tw).map fun s =>
          { w with watcher := some s.tw, slot := s.slot }
      | _, _ => none
  | .close c, w =>
      match w.watcher, w.pc with
      | some tw, .idle => (io cfg true c w tw).map fun s =>
          { w with watcher := some s.tw, slot := s.slot }
      | _, _ => none
  | .die, w =>
      w.watcher.map fun _ => { w with files := w.files.lost, watcher := none, pc := .idle }
  | .dieReading c, w =>
      match w.watcher, w.pc with
      | some tw, .idle => (ioUntil cfg c w tw).map fun slot =>
          { files := w.files.lost, watcher := none, slot, pc := .idle }
      | _, _ => none
  | .start conf, w =>
      match w.watcher with
      | some _ => none
      | none => some
          { w with watcher := some (TailWatcher.init key.pathPattern key.path ⟨key, 0⟩ conf) }

/-- The process is down, and the path names a file of `size` bytes no reader has
had. -/
def down (i : Inode) (size : Offset) : World where
  files :=
    { path := some i
      file := Function.update (fun _ => none) i
        (some ⟨size, size, Int64.le_refl _, false, false⟩) }
  watcher := none
  slot := ⟨0, 0⟩
  pc := .idle

variable {cfg key} {w : World} {tw tw' : TailWatcher} {slot' : Slot} {initOk : Bool} {now : ℤ}
  {h : HandOver} {st : Option FileStat} {i : Inode} {fst : FileStat}

/-! ## The rotation step -/

theorem onRotate_installed (hf : w.files.fstat i = some fst)
    (hret : tw.onRotate initOk now (Logkafka.fopen fst) w.slot = .returned true tw' slot') :
    onRotate cfg key initOk now h st i tw w = some
      { files := w.files.installed i
        watcher := some { tw' with rotateHandler := RotateHandler.record st }
        slot := slot'
        pc := .idle } := by
  simp only [onRotate, hf, Option.bind_some, hret]

theorem onRotate_failed (hf : w.files.fstat i = some fst)
    (hret : tw.onRotate initOk now (Logkafka.fopen fst) w.slot = .returned false tw' slot') :
    onRotate cfg key initOk now h st i tw w
      = some { w with watcher := some tw', slot := slot', pc := .idle } := by
  simp only [onRotate, hf, Option.bind_some, hret]

theorem onRotate_handOver (hf : w.files.fstat i = some fst)
    (hret : tw.onRotate initOk now (Logkafka.fopen fst) w.slot = .handOver) :
    onRotate cfg key initOk now h st i tw w = handOver cfg key w tw h := by
  simp only [onRotate, hf, Option.bind_some, hret]

/-- With nothing in between, the steps of a notification are
`RotateHandler::onNotify`. -/
theorem notifyRotate_of_steps (hw : w.watcher = some tw) (hidle : w.pc = .idle)
    (hpath : ∀ i, w.files.path = some i → w.files.file i ≠ none) (initOk : Bool) (now : ℤ) :
    ∃ acts w', run (step cfg key) acts w = some w' ∧ w'.pc = .idle ∧
      w'.watcher = some (TailWatcher.notifyRotate w.files.stat w.files.stat initOk now
        (fun s => (false, s)) ⟨tw, w.slot⟩).tw ∧
      w'.slot = (TailWatcher.notifyRotate w.files.stat w.files.stat initOk now
        (fun s => (false, s)) ⟨tw, w.slot⟩).slot := by
  have hstat : step cfg key .stat w = some { w with pc := .statted w.files.stat } := by
    simp only [step, hw, hidle]
  unfold TailWatcher.notifyRotate
  cases hrot : tw.rotateHandler.rotated w.files.stat with
  | false =>
      refine ⟨[.stat, .fopen], { w with
        watcher := some { tw with rotateHandler := tw.rotateHandler.grow w.files.stat }
        pc := .idle }, run_cons_eq_some.mpr ⟨_, hstat, ?_⟩, rfl, rfl, rfl⟩
      simp [run, step, hw, hrot]
  | true =>
      rw [if_pos rfl]
      cases hp : w.files.path with
      | none =>
          have hnone : w.files.stat = none := by simp [Files.stat, hp]
          refine ⟨[.stat, .fopen], { w with pc := .idle },
            run_cons_eq_some.mpr ⟨_, hstat, ?_⟩, rfl, ?_⟩
          · simp [run, step, hw, hrot, hp]
          · rw [hnone]
            exact ⟨hw, rfl⟩
      | some i =>
          obtain ⟨f, hf⟩ := Option.ne_none_iff_exists'.mp (hpath i hp)
          have hfstat : w.files.fstat i = some ⟨i.val, f.size, i.property⟩ := by
            simp [Files.fstat, hf]
          have hopened : w.files.stat = some ⟨i.val, f.size, i.property⟩ := by
            simp [Files.stat, hp, hfstat]
          have hrun : ∀ w', onRotate cfg key initOk now .active w.files.stat i tw
              { w with pc := .opened w.files.stat i } = some w' →
                run (step cfg key) [.stat, .fopen, .rotate initOk now .active] w = some w' := by
            intro w' h'
            refine run_cons_eq_some.mpr ⟨_, hstat, ?_⟩
            simpa [run, step, hw, hrot, hp] using h'
          cases hret : tw.onRotate initOk now (Logkafka.fopen ⟨i.val, f.size, i.property⟩) w.slot with
          | returned ok tw' slot' =>
              cases ok with
              | true =>
                  refine ⟨_, _, hrun _ (onRotate_installed hfstat hret), rfl, ?_⟩
                  simp [hopened, hret]
              | false =>
                  refine ⟨_, _, hrun _ (onRotate_failed hfstat hret), rfl, ?_⟩
                  simp [hopened, hret]
          | handOver =>
              refine ⟨_, _, hrun _ (onRotate_handOver hfstat hret), rfl, ?_⟩
              simp [hopened, hret, hw]

end World

end Logkafka
