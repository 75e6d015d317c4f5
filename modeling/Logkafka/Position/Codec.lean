/-
# `Logkafka.Position.Codec` — what an entry is told and what it says

An entry is written by `update(inode, pos)` and `updatePos(pos)`, in any order.
It is read by `readInode`, `readPos` and, after a restart, by `parseLine` on
its line.  `Decodes` asks that all three give what was last written.

They do not always.  `update` prints the inode as `unsigned int`, so an inode
of more than 32 bits comes back as its lower half; `hexstr2num` takes the
largest offset for an overflow, and a negative `off_t`, which is printed
unsigned, too; and a line whose key is not `Legible` is cut short by `fgets` or
by its zero byte, or not matched, or read as the line of another key.
`codec_iff` says that nothing else goes wrong.  The entry that lives in memory
(`MemoryPositionEntry`) keeps both numbers whole.
-/
import Logkafka.Position.Text
import Logkafka.Run

namespace Logkafka

/-- The position file, and what was last given to an entry of it. -/
structure Written where
  file : List Byte
  inode : InoT
  pos : OffT
deriving DecidableEq

namespace FilePositionEntry

open PositionFile

def write (pe : FilePositionEntry) : Write → Written → Option Written
  | .update inode pos, w => some ⟨pe.update inode pos w.file, inode, pos⟩
  | .updatePos pos, w => some ⟨pe.updatePos pos w.file, w.inode, pos⟩

/-- The line of an entry as `parse` has it: what `fgets` gets there, as a C string. -/
def line (pe : FilePositionEntry) (key : PositionEntryKey) (file : List Byte) : List Byte :=
  cString ((fgetsLines (file.drop (pe.seek - (header key).length))).head?.getD [])

/-- All that reads the entry gives what was last given to it. -/
structure Decodes (pe : FilePositionEntry) (key : PositionEntryKey) (w : Written) : Prop where
  readInode : pe.readInode w.file = w.inode
  readPos : pe.readPos w.file = w.pos
  parseLine : parseLine (pe.line key w.file) = some ⟨key, w.pos, w.inode⟩

/-- The entry of a line that follows `pre`. -/
def ofLine (pre : List Byte) (key : PositionEntryKey) : FilePositionEntry :=
  ⟨(pre ++ header key).length⟩

/-- A file with the line of an entry, before any write. -/
def created (pre suf : List Byte) (key : PositionEntryKey) (s : Slot) : Written :=
  ⟨pre ++ lineOf key s ++ suf, s.readInode, s.readPos⟩

/-- The numbers a write can keep; -1 is what reads for an `off_t` that is lost. -/
def Fits : Write → Prop
  | .update inode pos => inode.toNat < 2 ^ 32 ∧ (Lasting pos ∨ pos = -1)
  | .updatePos pos => Lasting pos ∨ pos = -1

variable {pre suf : List Byte} {key : PositionEntryKey} {s : Slot} {w w' : Written}

theorem line_lineOf (hk : Legible key) (pre suf : List Byte) (s : Slot) :
    (ofLine pre key).line key (pre ++ lineOf key s ++ suf) = lineOf key s := by
  have hstart : (ofLine pre key).seek - (header key).length = pre.length := by
    simp [ofLine]
  have hcomplete : Complete (lineOf key s) := @complete_lineText (key, s) hk
  rw [line, hstart, List.append_assoc, List.drop_left, head?_fgetsLines hcomplete]
  exact @cString_lineText (key, s) hk

/-- Nothing is read at the place of an entry whose key is not legible. -/
theorem legible_of_line {pe : FilePositionEntry} {file : List Byte} {e : ParsedLine}
    (h : parseLine (pe.line key file) = some e) : Legible e.key := by
  rw [line] at h
  cases hhead : (fgetsLines (file.drop (pe.seek - (header key).length))).head? with
  | none =>
      rw [hhead] at h
      cases h
  | some l =>
      rw [hhead] at h
      exact legible_of_parseLine (List.mem_of_mem_head? hhead) h

/-- What an entry of a legible key reads, the slot decides. -/
theorem decodes_iff (hk : Legible key)
    (h : (ofLine pre key).Holds (pre ++ header key) ([10] ++ suf) w.file s) :
    Decodes (ofLine pre key) key w ↔ s.readInode = w.inode ∧ s.readPos = w.pos := by
  have hfile : w.file = pre ++ lineOf key s ++ suf := by
    rw [h.1]
    simp [lineOf]
  constructor
  · intro hd
    exact ⟨h.readInode.symm.trans hd.readInode, h.readPos.symm.trans hd.readPos⟩
  · rintro ⟨hinode, hpos⟩
    refine ⟨h.readInode.trans hinode, h.readPos.trans hpos, ?_⟩
    rw [hfile, line_lineOf hk, parseLine_lineOf hk.plain, ← hinode, ← hpos]

theorem holds_created (pre suf : List Byte) (key : PositionEntryKey) (s : Slot) :
    (ofLine pre key).Holds (pre ++ header key) ([10] ++ suf) (created pre suf key s).file s :=
  ⟨by simp [created, lineOf], rfl⟩

/-- The entry holds some slot, and reads what was last given to it. -/
def Kept (pre suf : List Byte) (key : PositionEntryKey) (w : Written) : Prop :=
  ∃ s, (ofLine pre key).Holds (pre ++ header key) ([10] ++ suf) w.file s ∧
    s.readInode = w.inode ∧ s.readPos = w.pos

theorem ite_lasting_iff {pos : OffT} :
    (if Lasting pos then pos else -1) = pos ↔ Lasting pos ∨ pos = -1 := by
  split
  · next h => exact iff_of_true rfl (Or.inl h)
  · next h => exact ⟨fun heq => Or.inr heq.symm, fun hor => (hor.resolve_left h).symm⟩

/-- One write keeps what it is given exactly when that fits. -/
theorem kept_write_iff {a : Write} (hk : Kept pre suf key w)
    (hw : (ofLine pre key).write a w = some w') :
    ∃ s, (ofLine pre key).Holds (pre ++ header key) ([10] ++ suf) w'.file s ∧
      (s.readInode = w'.inode ∧ s.readPos = w'.pos ↔ Fits a) := by
  obtain ⟨s, hs, hinode, -⟩ := hk
  cases a with
  | update inode pos =>
      obtain rfl := Option.some.inj hw
      refine ⟨_, hs.update inode pos, ?_⟩
      refine and_congr (s.readInode_update_iff inode pos) ?_
      rw [s.readPos_update]
      exact ite_lasting_iff
  | updatePos pos =>
      obtain rfl := Option.some.inj hw
      refine ⟨_, hs.updatePos pos, ?_⟩
      refine (and_iff_right hinode).trans ?_
      rw [s.readPos_updatePos]
      exact ite_lasting_iff

/-- **When the codec is one.**  Whatever is written to an entry, in any order:
`readInode`, `readPos` and `parseLine` give what was last written, at every
moment, if and only if the key is legible, every inode written has at most 32
bits, and every `off_t` written is an offset below the largest, or -1. -/
theorem codec_iff (pre suf : List Byte) (key : PositionEntryKey) (s : Slot) (ws : List Write) :
    (∀ w, Visits (ofLine pre key).write ws (created pre suf key s) w →
        Decodes (ofLine pre key) key w) ↔
      Legible key ∧ ∀ a ∈ ws, Fits a := by
  have hinit := holds_created pre suf key s
  have htotal : ∀ a w, ∃ w', (ofLine pre key).write a w = some w' := by
    intro a w
    cases a <;> exact ⟨_, rfl⟩
  obtain ⟨w, hrun⟩ := exists_run htotal ws (created pre suf key s)
  by_cases hk : Legible key
  · have hexact := visits_iff_along (I := Kept pre suf key)
      (P := Decodes (ofLine pre key) key) (C := fun _ a => Fits a)
      (fun a u u' hI hC hs => by
        obtain ⟨s', hs', hiff⟩ := kept_write_iff hI hs
        exact ⟨⟨s', hs', hiff.mpr hC⟩, (decodes_iff hk hs').mpr (hiff.mpr hC)⟩)
      (fun a u u' hI hC hs hP => by
        obtain ⟨s', hs', hiff⟩ := kept_write_iff hI hs
        exact hC (hiff.mp ((decodes_iff hk hs').mp hP)))
      ⟨s, hinit, rfl, rfl⟩ ((decodes_iff hk hinit).mpr ⟨rfl, rfl⟩) hrun
    rw [hexact]
    exact ⟨fun h => ⟨hk, forall_of_along hrun h⟩, fun h => along_of_forall h.2⟩
  · refine iff_of_false (fun h => hk ?_) fun h => hk h.1
    -- the line cannot be read even before the first write
    exact legible_of_line (h _ (.here ws _)).parseLine

/-- An inode of 33 bits comes back as its lower half. -/
theorem codec_fails :
    ¬ ∀ (pre suf : List Byte) (key : PositionEntryKey) (s : Slot) (ws : List Write) (w : Written),
      Legible key → run (ofLine pre key).write ws (created pre suf key s) = some w →
        Decodes (ofLine pre key) key w := by
  intro h
  have hd := h [] [] ⟨[97], [97]⟩ ⟨0, 0⟩ [.update 4294967301 7] _ (by decide) rfl
  exact absurd hd.readInode (by decide)

end FilePositionEntry

end Logkafka
