/-
# `Logkafka.Position.Entry` — one entry of the position file

A `FilePositionEntry` (file_position_entry.cc) is a place in the position
file: 16 hexadecimal digits of offset, a tab, 8 of inode.

    "%016llx\t%08x"

Its operations seek and write there, or seek and read there; the file is a
list of bytes.  `Slot` is what such a place holds, as two machine words, with
the same four operations and no text.  `FilePositionEntry.Holds` connects the
two: an entry that holds a slot before an operation holds the updated slot
after it, and reads what the slot reads.

What is lost in writing is visible in `Slot`: the inode is cast to
`unsigned int`, and an offset that is read back as `LLONG_MAX` counts as none.
-/
import Logkafka.Splice
import Logkafka.Tools

namespace Logkafka

/-- `m_seek`; the file is passed along. -/
structure FilePositionEntry where
  seek : ℕ
deriving DecidableEq

/-- What an entry's place in the file holds. -/
structure Slot where
  pos : UInt64
  inode : UInt32
deriving DecidableEq

namespace FilePositionEntry

/-- `POS_SIZE` -/
def posSize : ℕ := 16

/-- `INO_OFFSET` -/
def inoOffset : ℕ := 17

/-- `INO_SIZE` -/
def inoSize : ℕ := 8

/-- `%016llx` of `(unsigned long long)pos` -/
def posText (pos : UInt64) : List Byte := hex.fixed 16 pos.toNat

/-- `%08x` of `(unsigned int)inode` -/
def inodeText (inode : UInt32) : List Byte := hex.fixed 8 inode.toNat

def update (pe : FilePositionEntry) (inode : InoT) (pos : OffT) (file : List Byte) : List Byte :=
  overwrite 0 file pe.seek (posText pos.toUInt64 ++ [9] ++ inodeText inode.toUInt32)

def updatePos (pe : FilePositionEntry) (pos : OffT) (file : List Byte) : List Byte :=
  overwrite 0 file pe.seek (posText pos.toUInt64)

def readPos (pe : FilePositionEntry) (file : List Byte) : OffT :=
  match readAt file pe.seek posSize with
  | some buf => hexstr2num buf (-1)
  | none => -1

def readInode (pe : FilePositionEntry) (file : List Byte) : InoT :=
  match readAt file (pe.seek + inoOffset) inoSize with
  | some buf => (hexstr2num buf inoNone.toInt64).toUInt64
  | none => inoNone

end FilePositionEntry

/-- An `off_t` that comes back from an entry: an offset, and not the saturated
value. -/
abbrev Lasting (pos : OffT) : Prop := 0 ≤ pos ∧ pos ≠ Int64.maxValue

/-! ## The slot

The operations without the text, and what does not survive them.
-/

namespace Slot

open FilePositionEntry (posText inodeText)

def text (s : Slot) : List Byte := posText s.pos ++ [9] ++ inodeText s.inode

def update (_ : Slot) (inode : InoT) (pos : OffT) : Slot := ⟨pos.toUInt64, inode.toUInt32⟩

def updatePos (s : Slot) (pos : OffT) : Slot := { s with pos := pos.toUInt64 }

/-- The saturated value, and what is above it, reads as the default. -/
def readPos (s : Slot) : OffT := if s.pos.toNat < 2 ^ 63 - 1 then s.pos.toInt64 else -1

def readInode (s : Slot) : InoT := s.inode.toUInt64

@[simp] theorem length_text (s : Slot) : s.text.length = 25 := by
  simp [text, posText, inodeText]

theorem value_posText (pos : UInt64) : hex.value (posText pos) = pos.toNat :=
  hex.value_fixed_of_lt pos.toNat_lt

theorem value_inodeText (inode : UInt32) : hex.value (inodeText inode) = inode.toNat :=
  hex.value_fixed_of_lt inode.toNat_lt

theorem isDigit_posText (pos : UInt64) : ∀ b ∈ posText pos, hex.isDigit b = true :=
  fun _ => hex.isDigit_of_mem_fixed

theorem isDigit_inodeText (inode : UInt32) : ∀ b ∈ inodeText inode, hex.isDigit b = true :=
  fun _ => hex.isDigit_of_mem_fixed

theorem hexstr2num_posText (s : Slot) : hexstr2num (posText s.pos) (-1) = s.readPos := by
  rw [hexstr2num_digits (isDigit_posText _), value_posText, readPos]
  split
  · exact Int64.toBitVec.inj (by simp)
  · rfl

theorem hexstr2num_inodeText (s : Slot) (defaultNum : OffT) :
    (hexstr2num (inodeText s.inode) defaultNum).toUInt64 = s.readInode := by
  have hlt := s.inode.toNat_lt
  rw [hexstr2num_digits (isDigit_inodeText _), value_inodeText, if_pos (by omega)]
  exact UInt64.toNat.inj (by simp [readInode])

/-- What is read is an offset or none. -/
theorem le_readPos (s : Slot) : -1 ≤ s.readPos := by
  rw [Slot.readPos]
  split
  · next hlt =>
      have hnat : s.pos.toInt64.toInt = s.pos.toNat := by
        show s.pos.toBitVec.toInt = _
        rw [BitVec.toInt_eq_toNat_of_lt]
        · rfl
        · show 2 * s.pos.toNat < 2 ^ 64
          omega
      refine Int64.le_iff_toInt_le.mpr ?_
      rw [show (-1 : Int64).toInt = -1 by decide, hnat]
      omega
  · exact Int64.le_refl _

/-- What does not survive reads as the default. -/
theorem readPos_updatePos (s : Slot) (pos : OffT) :
    (s.updatePos pos).readPos = if Lasting pos then pos else -1 := by
  have hint : pos.toInt = (pos.toUInt64.toNat : ℤ).bmod (2 ^ 64) := BitVec.toInt_eq_toNat_bmod _
  have hwide := pos.toUInt64.toNat_lt
  rw [Int.bmod_def] at hint
  have hmax : pos = Int64.maxValue ↔ pos.toInt = 2 ^ 63 - 1 := by
    rw [← Int64.toInt_inj]
    exact Iff.rfl
  have hnonneg : 0 ≤ pos ↔ 0 ≤ pos.toInt := Int64.le_iff_toInt_le
  have hlasting : Lasting pos ↔ pos.toUInt64.toNat < 2 ^ 63 - 1 := by
    unfold Lasting
    rw [hnonneg, ne_eq, hmax]
    split at hint <;> omega
  show (if pos.toUInt64.toNat < 2 ^ 63 - 1 then pos.toUInt64.toInt64 else -1) = _
  by_cases h : Lasting pos
  · rw [if_pos h, if_pos (hlasting.mp h), Int64.toInt64_toUInt64]
  · rw [if_neg h, if_neg fun hlt => h (hlasting.mpr hlt)]

/-- Of the offsets all survive but the saturated value. -/
theorem readPos_updatePos_iff (s : Slot) {pos : OffT} (h : 0 ≤ pos) :
    (s.updatePos pos).readPos = pos ↔ pos ≠ Int64.maxValue := by
  rw [readPos_updatePos]
  split
  · next hlasting => exact iff_of_true rfl hlasting.2
  · next hnot =>
      refine iff_of_false ?_ fun hmax => hnot ⟨h, hmax⟩
      rintro rfl
      exact absurd h (by decide)

theorem readPos_update (s : Slot) (inode : InoT) (pos : OffT) :
    (s.update inode pos).readPos = if Lasting pos then pos else -1 :=
  readPos_updatePos s pos

theorem readPos_update_iff (s : Slot) (inode : InoT) {pos : OffT} (h : 0 ≤ pos) :
    (s.update inode pos).readPos = pos ↔ pos ≠ Int64.maxValue :=
  readPos_updatePos_iff s h

/-- Which inodes survive: those of 32 bits. -/
theorem readInode_update_iff (s : Slot) (inode : InoT) (pos : OffT) :
    (s.update inode pos).readInode = inode ↔ inode.toNat < 2 ^ 32 := by
  have hread : (s.update inode pos).readInode.toNat = inode.toNat % 2 ^ 32 := by
    simp [readInode, update]
  rw [← UInt64.toNat_inj, hread]
  exact ⟨fun h => h ▸ Nat.mod_lt _ (by decide), Nat.mod_eq_of_lt⟩

end Slot

/-! ## The place in the file -/

namespace FilePositionEntry

open Slot

/-- The entry's place in `file`, between `pre` and `suf`, holds `s`. -/
def Holds (pe : FilePositionEntry) (pre suf file : List Byte) (s : Slot) : Prop :=
  file = pre ++ s.text ++ suf ∧ pe.seek = pre.length

variable {pe : FilePositionEntry} {pre suf file : List Byte} {s : Slot}

theorem Holds.update (h : pe.Holds pre suf file s) (inode : InoT) (pos : OffT) :
    pe.Holds pre suf (pe.update inode pos file) (s.update inode pos) := by
  obtain ⟨rfl, hseek⟩ := h
  refine ⟨overwrite_mid 0 hseek ?_, hseek⟩
  exact (length_text (s.update inode pos)).trans s.length_text.symm

theorem Holds.updatePos (h : pe.Holds pre suf file s) (pos : OffT) :
    pe.Holds pre suf (pe.updatePos pos file) (s.updatePos pos) := by
  obtain ⟨rfl, hseek⟩ := h
  refine ⟨?_, hseek⟩
  -- only the digits of the offset are written
  have hsplit : ∀ s' : Slot, pre ++ s'.text ++ suf
      = pre ++ posText s'.pos ++ ([9] ++ inodeText s'.inode ++ suf) := by
    intro s'
    simp [text]
  rw [hsplit, hsplit, FilePositionEntry.updatePos]
  exact overwrite_mid 0 hseek (by simp [posText])

theorem Holds.readPos (h : pe.Holds pre suf file s) : pe.readPos file = s.readPos := by
  obtain ⟨rfl, hseek⟩ := h
  have hsplit : pre ++ s.text ++ suf
      = pre ++ posText s.pos ++ ([9] ++ inodeText s.inode ++ suf) := by
    simp [text]
  rw [FilePositionEntry.readPos, hsplit, readAt_mid hseek (by simp [posSize, posText])]
  exact s.hexstr2num_posText

theorem Holds.readInode (h : pe.Holds pre suf file s) : pe.readInode file = s.readInode := by
  obtain ⟨rfl, hseek⟩ := h
  have hsplit : pre ++ s.text ++ suf
      = (pre ++ posText s.pos ++ [9]) ++ inodeText s.inode ++ suf := by
    simp [text]
  have hplace : pe.seek + inoOffset = (pre ++ posText s.pos ++ [9]).length := by
    simp [hseek, inoOffset, posText]
  rw [FilePositionEntry.readInode, hsplit, readAt_mid hplace (by simp [inoSize, inodeText])]
  exact s.hexstr2num_inodeText _

end FilePositionEntry

end Logkafka
