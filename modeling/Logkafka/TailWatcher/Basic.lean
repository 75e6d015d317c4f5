/-
# `Logkafka.TailWatcher.Basic` — the watcher of one file

A `TailWatcher` (tail_watcher.cc) owns a `RotateHandler`, which notices that
the file at its path was replaced or became shorter, and at most one
`IOHandler`, which reads.  Here is what it does by itself: the comparison of
the rotate handler, and `onRotate` up to the point where it calls the Manager.

`onRotate` gets a file that was just opened.  It finds the IO handler absent,
open or closed and picks one of four branches:

    absent                                 open the file where the entry says
    present, the inode of the entry        the file was truncated
    closed, another inode                  open the new file
    open, another inode                    hand over to `updateWatcherRotate`

The last one is only named here (`Rotated.handOver`): it is the Manager's.
The offset in the first branch is an `int`.
-/
import Logkafka.IOHandler.Basic
import Logkafka.Position.Line
import Logkafka.TaskConf

namespace Logkafka

/-- What `stat` and `fstat` say of a file.  There is no inode 0. -/
structure FileStat where
  inode : InoT
  size : Offset
  inode_ne : inode ≠ inoNone
deriving DecidableEq

/-- A stream open for reading. -/
structure File where
  stat : FileStat
  /-- `ftell(file)` -/
  pos : ℕ
deriving DecidableEq

/-- `fopen(path, "r")` of a file. -/
def fopen (st : FileStat) : File := ⟨st, 0⟩

/-- `fseek(file, pos, SEEK_SET)`: a negative offset is refused. -/
def fseek (file : File) (pos : OffT) : File :=
  if 0 ≤ pos then { file with pos := pos.toNatClampNeg } else file

/-- What is recorded of the file at the last rotation. -/
structure RotateHandler where
  inode : InoT
  fsize : OffT
deriving DecidableEq

namespace RotateHandler

/-- `RotateHandler::init` -/
def init : RotateHandler := ⟨inoNone, -1⟩

/-- What `onNotify` takes from `stat(m_path)`. -/
def observe : Option FileStat → InoT × OffT
  | some st => (st.inode, st.size)
  | none => (inoNone, 0)

/-- The file was replaced or became shorter: the test of `onNotify`. -/
def rotated (rh : RotateHandler) (st : Option FileStat) : Bool :=
  rh.inode ≠ (observe st).1 || (observe st).2 < rh.fsize

/-- What is recorded once a rotation is done. -/
def record (st : Option FileStat) : RotateHandler := ⟨(observe st).1, (observe st).2⟩

/-- What is recorded when there was none: the file may have grown. -/
def grow (rh : RotateHandler) (st : Option FileStat) : RotateHandler :=
  if rh.fsize < (observe st).2 then { rh with fsize := (observe st).2 } else rh

end RotateHandler

/-- The address of a `FilePositionEntry`, by the key of its line and a number
that tells the entries of one key apart. -/
structure EntryId where
  key : PositionEntryKey
  serial : ℕ
deriving DecidableEq

/-- The sizes of `Config` that watchers are made with, all `unsigned long`. -/
structure Config where
  statSilentMaxMs : UInt64
  lineMaxBytes : UInt64
  readMaxBytes : UInt64
  pathQueueMaxSize : ℕ

/-- An `IOHandler` with the inode of its file. -/
structure Reader where
  inode : InoT
  handler : IOHandler
deriving DecidableEq

structure TailWatcher where
  unwatched : Bool
  pathPattern : Str
  path : Str
  conf : TaskConf
  /-- `m_position_entry` -/
  positionEntry : EntryId
  /-- the timer and the stat trigger are started -/
  running : Bool
  rotateHandler : RotateHandler
  /-- `m_io_handler` -/
  reader : Option Reader
deriving DecidableEq

namespace TailWatcher

/-- `TailWatcher::init`, all of it successful. -/
def init (pathPattern path : Str) (positionEntry : EntryId) (conf : TaskConf) : TailWatcher :=
  { unwatched := false, pathPattern, path, conf, positionEntry, running := true,
    rotateHandler := RotateHandler.init, reader := none }

/-- The parameters `onRotate` gives to `IOHandler::init`: three `unsigned int`. -/
def ioConf (cfg : Config) (tw : TailWatcher) : IOHandler.Conf where
  maxLineAtOnce := tw.conf.logConf.batchsize.toUInt32.toNat
  lineMaxBytes := cfg.lineMaxBytes.toUInt32.toNat
  bufferMaxBytes := cfg.readMaxBytes.toUInt32.toNat
  lineDelimiter := tw.conf.logConf.lineDelimiter
  removeDelimiter := tw.conf.logConf.removeDelimiter
  maxLineAtOnce_lt := UInt32.toNat_lt _
  lineMaxBytes_lt := UInt32.toNat_lt _
  bufferMaxBytes_lt := UInt32.toNat_lt _

def getEnabled (tw : TailWatcher) : Bool := tw.conf.valid

def setEnabled (enabled : Bool) (tw : TailWatcher) : TailWatcher :=
  { tw with conf := { tw.conf with valid := enabled } }

/-- `isActive()` -/
def isActive (cfg : Config) (now : ℤ) (tw : TailWatcher) : Bool :=
  match tw.reader with
  | none => false
  | some r => IOHandler.elapsedMs now r.handler.lastIoTime ≤ cfg.statSilentMaxMs.toNat

/-- What `onRotate` comes to. -/
inductive Rotated
  /-- it returned: the watcher and what its entry holds -/
  | returned (ok : Bool) (tw : TailWatcher) (slot : Slot)
  /-- the IO handler's lock is released and `(*updateWatcher)(..)` called -/
  | handOver
deriving DecidableEq

/-- The new `IOHandler` of an open file; `IOHandler::init` may fail. -/
def openReader (initOk : Bool) (now : ℤ) (file : File) (tw : TailWatcher) (slot : Slot) : Rotated :=
  if initOk then
    .returned true { tw with
      reader := some ⟨file.stat.inode, IOHandler.init file.pos slot.pos.toNat now⟩ } slot
  else .returned false tw slot

/-- The branch `NULL == m_io_handler`: the offset, an `int`, and the entry. -/
def firstPos (file : File) (tw : TailWatcher) (slot : Slot) : Int32 × Slot :=
  let inode := file.stat.inode
  let fsize := file.stat.size.val
  let lastInode := slot.readInode
  if inode = lastInode then
    (slot.readPos.toInt32, slot)
  else if lastInode ≠ 0 then
    (0, slot.update inode 0)
  else
    let pos : Int32 := (if tw.conf.logConf.readFromHead then 0 else fsize).toInt32
    (pos, slot.update inode pos.toInt64)

def onRotate (initOk : Bool) (now : ℤ) (file : File) (tw : TailWatcher) (slot : Slot) : Rotated :=
  match tw.reader with
  | none =>
      let (pos, slot) := firstPos file tw slot
      openReader initOk now (fseek file pos.toInt64) tw slot
  | some r =>
      if file.stat.inode = slot.readInode then -- truncated
        openReader initOk now file tw (slot.updatePos file.stat.size.val)
      else if r.handler.fileOpen = false then
        openReader initOk now file tw (slot.update file.stat.inode (Int64.ofNat file.pos))
      else .handOver

/-- The IO part of `onNotify`: the entry gets what the handler stores. -/
def notifyIo (cfg : Config) (f : LogFile) (now : ℤ) (es : List IOHandler.Event) (tw : TailWatcher)
    (slot : Slot) : Option (TailWatcher × Slot) :=
  match tw.reader with
  | none => some (tw, slot)
  | some r =>
      (IOHandler.onNotify (tw.ioConf cfg) f now es r.handler).map fun h =>
        ({ tw with reader := some { r with handler := h } },
          if (IOHandler.answers es).any Prod.fst then slot.updatePos (Int64.ofNat h.stored)
          else slot)

/-- `m_io_handler->close()` -/
def closeIo (tw : TailWatcher) : TailWatcher :=
  { tw with reader := tw.reader.map fun r => { r with handler := r.handler.close } }

end TailWatcher

end Logkafka
