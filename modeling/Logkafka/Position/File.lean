/-
# `Logkafka.Position.File` — the position file and its map

`PositionFile` (position_file.cc) is a text file, `m_last_pos`, where the next
line goes, and `m_pe_map`, which has for each key the place of its entry.
`operator[]` appends a line of zeros for a new key; `remove` forgets a key and
leaves its line; `parse` first lets `compact` write the file anew, with the
last live line of each pattern, and then finds the places again by counting.

The readers take lines with `fgets` and make C strings of them, so a line is
what ends with a newline and its text stops at a zero byte.

A `Ledger` is a position file with what its entries were last given, which no
operation reads; `step` is one call on it.
-/
import Logkafka.Framing
import Logkafka.OrdMap
import Logkafka.Position.Line
import Logkafka.Run

namespace Logkafka

structure PositionFile where
  file : List Byte
  lastPos : ℕ
  peMap : OrdMap PositionEntryKey FilePositionEntry

namespace PositionFile

/-- `operator[]`; what it returns is then in the map. -/
def subscript (key : PositionEntryKey) (p : PositionFile) : PositionFile :=
  match p.peMap.find? key with
  | some _ => p
  | none =>
      let line := header key ++ Slot.text ⟨0, 0⟩ ++ [10]
      { file := overwrite 0 p.file p.lastPos line
        lastPos := p.lastPos + line.length
        peMap := p.peMap.insert key ⟨p.lastPos + (header key).length⟩ }

def remove (key : PositionEntryKey) (p : PositionFile) : PositionFile :=
  { p with peMap := p.peMap.erase key }

/-- `line_str(line)` -/
def cString (line : List Byte) : List Byte := line.takeWhile (· ≠ 0)

/-- The lines of `fgets(buf, fsize + 1, file)`, to the end of the file. -/
def fgetsLines (file : List Byte) : List (List Byte) :=
  let r := Framing.cuts (· = 10) file.length [] file
  if r.2 = [] then r.1 else r.1 ++ [r.2]

/-- The loop of `compact` over the lines that are left. -/
def existentEntries : List (List Byte) → OrdMap Str (List Byte) → OrdMap Str (List Byte)
  | [], m => m
  | line :: lines, m =>
      let lineStr := cString line
      if lineStr = [] then m
      else
        match parseLine lineStr with
        | none => existentEntries lines m
        | some e =>
            if e.pos = unwatchedPosition then existentEntries lines m
            else
              existentEntries lines
                (m.insert e.key.pathPattern (lineStr.drop e.key.pathPattern.length))

/-- `compact`: the file it leaves. -/
def compact (file : List Byte) : List Byte :=
  (existentEntries (fgetsLines file) OrdMap.empty).entries.flatMap fun e => e.1 ++ e.2

/-- The loop of `parse` over the lines that are left; the file is read up to
`tell`. -/
def parseEntries (file : List Byte) :
    ℕ → List (List Byte) → OrdMap PositionEntryKey FilePositionEntry → PositionFile
  | tell, [], m => ⟨file, tell, m⟩
  | tell, line :: lines, m =>
      let lineStr := cString line
      let tell := tell + line.length
      if lineStr = [] then ⟨file, tell, m⟩
      else
        match parseLine lineStr with
        | none => parseEntries file tell lines m
        | some e =>
            let seek := tell - lineStr.length + e.key.pathPattern.length + 1
              + e.key.path.length + 1
            parseEntries file tell lines (m.insert e.key ⟨seek⟩)

def parse (file : List Byte) : PositionFile :=
  parseEntries (compact file) 0 (fgetsLines (compact file)) OrdMap.empty

/-- The 25 bytes at the place of a key's entry. -/
def slotText (p : PositionFile) (key : PositionEntryKey) : Option (Option (List Byte)) :=
  (p.peMap.find? key).map fun pe => readAt p.file pe.seek 25

end PositionFile

/-! ## Calls on the file -/

/-- A write of an entry. -/
inductive Write
  | update (inode : InoT) (pos : OffT)
  | updatePos (pos : OffT)
deriving DecidableEq

/-- A call on an entry; `unwatch` is `updatePos(UNWATCHED_POSITION)`. -/
inductive EntryCall
  | write (a : Write)
  | unwatch
deriving DecidableEq

/-- What an entry was last given. -/
structure Told where
  inode : InoT
  pos : OffT
deriving DecidableEq

namespace EntryCall

def file (pe : FilePositionEntry) (file : List Byte) : EntryCall → List Byte
  | .write (.update inode pos) => pe.update inode pos file
  | .write (.updatePos pos) => pe.updatePos pos file
  | .unwatch => pe.updatePos PositionFile.unwatchedPosition file

def told (t : Told) : EntryCall → Told
  | .write (.update inode pos) => ⟨inode, pos⟩
  | .write (.updatePos pos) => { t with pos := pos }
  | .unwatch => { t with pos := PositionFile.unwatchedPosition }

end EntryCall

inductive FileCall
  | get (key : PositionEntryKey)
  | entry (key : PositionEntryKey) (a : EntryCall)
  | remove (key : PositionEntryKey)
deriving DecidableEq

structure Ledger where
  pf : PositionFile
  told : OrdMap PositionEntryKey Told

namespace Ledger

open PositionFile

/-- After `parse`, an entry was given what it reads. -/
def ofFile (file : List Byte) : Ledger :=
  let pf := parse file
  ⟨pf, pf.peMap.mapWithKey fun _ pe => ⟨pe.readInode pf.file, pe.readPos pf.file⟩⟩

/-- A call on an entry needs the entry to be there. -/
def step : FileCall → Ledger → Option Ledger
  | .get key, l => some
      { pf := l.pf.subscript key
        told := if l.told.find? key = none then l.told.insert key ⟨0, 0⟩ else l.told }
  | .entry key a, l =>
      match l.pf.peMap.find? key, l.told.find? key with
      | some pe, some t => some
          { pf := { l.pf with file := a.file pe l.pf.file }
            told := l.told.insert key (a.told t) }
      | _, _ => none
  | .remove key, l => some ⟨l.pf.remove key, l.told.erase key⟩

end Ledger

end Logkafka
