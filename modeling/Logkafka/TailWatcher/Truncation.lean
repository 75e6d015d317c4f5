/-
# `Logkafka.TailWatcher.Truncation` — a file that became shorter while no watcher was there

A running watcher notices that its file became shorter by the size its rotate
handler recorded, and reads it from the start.  The record is in memory only:
the first reader after a restart goes by the stored offset alone, if the inode
is that of the entry.

`StartsWithin` asks of every reader that is installed that it starts within the
file, and at the head of a file that has been shorter than the stored offset.
Where the offset is carried on, it holds exactly if the file never was
(`starts_within_iff`).
-/
import Logkafka.TailWatcher.Files

namespace Logkafka

open TailWatcher

/-! ## Where a reader starts

Of the first reader, which goes by the entry, and of the others, which go by what
the rotate handler recorded.
-/

theorem toInt32_le {x : OffT} (h : -1 ≤ x) : x.toInt32.toInt ≤ x.toInt := by
  have h1 : -1 ≤ x.toInt := Int64.le_iff_toInt_le.mp h
  rw [Int64.toInt_toInt32, Int.bmod_def]
  split <;> omega

/-- The first reader of the entry's file starts at the stored offset as an
`int`. -/
theorem starts_at_stored {now : ℤ} {initOk : Bool} {st : FileStat} {tw tw' : TailWatcher}
    {slot slot' : Slot} (hfirst : tw.reader = none) (hsame : st.inode = slot.readInode)
    (h : tw.onRotate initOk now (fopen st) slot = .returned true tw' slot') :
    ∃ r, tw'.reader = some r ∧ (r.handler.filePos : ℤ)
      = if 0 ≤ slot.readPos.toInt32.toInt then slot.readPos.toInt32.toInt else 0 := by
  obtain ⟨-, hreader⟩ := onRotate_first hfirst h
  refine ⟨_, hreader, ?_⟩
  rw [firstPos_same tw (show (fopen st).stat.inode = _ from hsame)]
  exact (toInt_fopen_fseek st _).trans (by rw [Int32.toInt_toInt64])

/-- Every other reader starts within its file, and at the head if the file is
the entry's. -/
theorem starts_within {now : ℤ} {initOk : Bool} {st : FileStat} {tw tw' : TailWatcher}
    {slot slot' : Slot} (hother : ¬ (tw.reader = none ∧ st.inode = slot.readInode))
    (h : tw.onRotate initOk now (fopen st) slot = .returned true tw' slot') :
    ∃ r, tw'.reader = some r ∧ (r.handler.filePos : ℤ) ≤ st.size.val.toInt ∧
      (st.inode = slot.readInode → r.handler.filePos = 0) := by
  have hsize : 0 ≤ st.size.val.toInt := Int64.le_iff_toInt_le.mp st.size.2
  have hopened : ∀ (slot : Slot) (tw : TailWatcher),
      openReader initOk now (fopen st) tw slot = .returned true tw' slot' →
        ∃ r, tw'.reader = some r ∧ r.handler.filePos = 0 := by
    intro slot tw hopen
    unfold openReader at hopen
    split at hopen
    · simp only [Rotated.returned.injEq, true_and] at hopen
      obtain ⟨rfl, -⟩ := hopen
      exact ⟨_, rfl, rfl⟩
    · simp at hopen
  cases hr : tw.reader with
  | none =>
      have hne : st.inode ≠ slot.readInode := fun hsame => hother ⟨hr, hsame⟩
      obtain ⟨-, hreader⟩ := onRotate_first hr h
      refine ⟨_, hreader, ?_, fun hsame => absurd hsame hne⟩
      refine le_of_eq_of_le (toInt_fopen_fseek st _) ?_
      rw [Int32.toInt_toInt64]
      by_cases hstored : slot.readInode = inoNone
      · rw [firstPos_new tw hstored]
        cases tw.conf.logConf.readFromHead with
        | true => exact hsize
        | false =>
            have hle := toInt32_le (Int64.le_trans (show (-1 : OffT) ≤ 0 by decide) st.size.2)
            show (if 0 ≤ st.size.val.toInt32.toInt then st.size.val.toInt32.toInt else 0) ≤ _
            split
            · exact hle
            · exact hsize
      · rw [firstPos_other tw (show (fopen st).stat.inode ≠ _ from hne) hstored]
        exact hsize
  | some r =>
      unfold onRotate at h
      simp only [hr] at h
      have hzero : ∃ r, tw'.reader = some r ∧ r.handler.filePos = 0 := by
        split at h
        · exact hopened _ _ h
        · split at h
          · exact hopened _ _ h
          · simp at h
      obtain ⟨r', hr', hpos⟩ := hzero
      exact ⟨r', hr', by rw [hpos]; exact hsize, fun _ => hpos⟩

namespace World

variable {cfg : Config} {key : PositionEntryKey}

/-! ## The law

How small a file has been is part of its history, so the law can be asked of a
single step.
-/

/-- The reader an action installs, and its file. -/
def installs (w : World) : Act → Option (Inode × Reader)
  | .rotate initOk now _ =>
      match w.watcher, w.pc with
      | some tw, .opened _ i =>
          (w.files.fstat i).bind fun fst =>
            match tw.onRotate initOk now (Logkafka.fopen fst) w.slot with
            | .returned true tw' _ => tw'.reader.map fun r => (i, r)
            | _ => none
      | _, _ => none
  | _ => none

/-- A reader that is installed starts within the file; and at its head, if it is
the entry's file and has been shorter than the stored offset. -/
def StartsWithin (w : World) (a : Act) : Prop :=
  ∀ i r f, w.installs a = some (i, r) → w.files.file i = some f →
    (r.handler.filePos : ℤ) ≤ f.size.val.toInt ∧
      (w.slot.readInode = i.val → f.lowest.val < w.slot.readPos → r.handler.filePos = 0)

/-- A first reader of the entry's file finds that the file has not been shorter
than the stored offset since a watcher was last lost, or an offset that is not
positive as an `int`. -/
def NotCut (w : World) (a : Act) : Prop :=
  ∀ i r f tw, w.installs a = some (i, r) → w.files.file i = some f → w.watcher = some tw →
    tw.reader = none → w.slot.readInode = i.val →
      w.slot.readPos.toInt32.toInt ≤ 0 ∨ w.slot.readPos ≤ f.lowest.val

theorem installs_eq_some {w : World} {a : Act} {i : Inode} {r : Reader}
    (h : w.installs a = some (i, r)) :
    ∃ initOk now hand st tw f tw' slot', a = .rotate initOk now hand ∧ w.watcher = some tw ∧
      w.pc = .opened st i ∧ w.files.file i = some f ∧
      tw.onRotate initOk now (Logkafka.fopen ⟨i.val, f.size, i.property⟩) w.slot
        = .returned true tw' slot' ∧ tw'.reader = some r := by
  cases a with
  | rotate initOk now hand =>
      simp only [installs] at h
      split at h
      · next tw st j hw hpc =>
          obtain ⟨fst, hfst, h⟩ := Option.bind_eq_some_iff.mp h
          obtain ⟨f, hf, rfl⟩ := Option.map_eq_some_iff.mp hfst
          split at h
          · next tw' slot' hret =>
              obtain ⟨r', hr', heq⟩ := Option.map_eq_some_iff.mp h
              obtain ⟨rfl, rfl⟩ := Prod.mk.inj heq
              exact ⟨_, _, _, st, tw, f, tw', slot', rfl, hw, hpc, hf, hret, hr'⟩
          · cases h
      · cases h
  | _ => cases h

theorem starts_within_step_iff (w : World) (a : Act) : StartsWithin w a ↔ NotCut w a := by
  constructor
  · intro hstart i r f tw hi hf hw hnone hsame
    obtain ⟨hle, hhead⟩ := hstart i r f hi hf
    obtain ⟨_, _, _, _, tw₁, f₁, tw', slot', -, hw₁, -, hf₁, hret, hr⟩ := installs_eq_some hi
    obtain rfl : tw = tw₁ := Option.some.inj (hw.symm.trans hw₁)
    obtain rfl : f = f₁ := Option.some.inj (hf.symm.trans hf₁)
    obtain ⟨r', hr', hpos⟩ := starts_at_stored hnone hsame.symm hret
    obtain rfl : r = r' := Option.some.inj (hr.symm.trans hr')
    by_contra hcut
    obtain ⟨hpositive, hlow⟩ := not_or.mp hcut
    have hzero := hhead hsame (Int64.not_le.mp hlow)
    rw [hzero, if_pos (by omega)] at hpos
    exact hpositive (by omega)
  · intro hcut i r f hi hf
    obtain ⟨_, _, _, _, tw, f₁, tw', slot', -, hw, -, hf₁, hret, hr⟩ := installs_eq_some hi
    obtain rfl : f = f₁ := Option.some.inj (hf.symm.trans hf₁)
    by_cases hfirst : tw.reader = none ∧ i.val = w.slot.readInode
    · obtain ⟨hnone, hsame⟩ := hfirst
      obtain ⟨r', hr', hpos⟩ := starts_at_stored hnone hsame hret
      obtain rfl : r = r' := Option.some.inj (hr.symm.trans hr')
      have hsize : 0 ≤ f.size.val.toInt := Int64.le_iff_toInt_le.mp f.size.2
      rcases hcut i r f tw hi hf hw hnone hsame.symm with hneg | hlow
      · have hzero : r.handler.filePos = 0 := by
          split at hpos <;> omega
        exact ⟨by rw [hzero]; exact hsize, fun _ _ => hzero⟩
      · refine ⟨?_, fun _ hcut => absurd hlow (Int64.not_le.mpr hcut)⟩
        have hlowest := Int64.le_iff_toInt_le.mp (Int64.le_trans hlow f.lowest_le)
        have hle := toInt32_le w.slot.le_readPos
        split at hpos <;> omega
    · obtain ⟨r', hr', hle, hhead⟩ := starts_within hfirst hret
      obtain rfl : r = r' := Option.some.inj (hr.symm.trans hr')
      exact ⟨hle, fun hsame _ => hhead hsame.symm⟩

/-- **When truncation is noticed across restarts.**  In every run of the files
and the process: every reader that is installed starts within its file, and at
the head of one that was cut below the stored offset, if and only if no first
reader found the entry's file cut. -/
theorem starts_within_iff (as : List Act) (w : World) :
    Along (step cfg key) StartsWithin as w ↔ Along (step cfg key) NotCut as w :=
  along_congr starts_within_step_iff as w

theorem five_ne : (5 : InoT) ≠ inoNone := by decide

theorem zero_le_two : (0 : OffT) ≤ 2 := by decide

theorem zero_le_five : (0 : OffT) ≤ 5 := by decide

/-- The inode 5. -/
def inode5 : Inode := ⟨5, five_ne⟩

/-- Eight bytes and a newline. -/
def nineBytes : LogFile := ⟨[97, 98, 99, 100, 101, 102, 103, 104, 10], by decide⟩

/-- A log of nine bytes is read and sent; the process dies, the log is cut down
to two bytes and grows to five; the process is started and opens it. -/
def cutWhileDown : List Act :=
  [.start (TailWatcher.fresh true).conf, .stat, .fopen, .rotate true 0 .active,
    .read ⟨nineBytes, 0, [.fread 9 9 false 0, .fread 9 0 false 0, .receive true [.taken] 0]⟩, .die,
    .change (.truncate inode5 ⟨2, zero_le_two⟩), .change (.append inode5 ⟨5, zero_le_five⟩),
    .start (TailWatcher.fresh true).conf, .stat, .fopen]

/-- The reader starts at byte nine. -/
theorem starts_within_fails :
    ¬ ∀ (cfg : Config) (key : PositionEntryKey) (as : List Act) (w : World),
      Along (step cfg key) StartsWithin as w := by
  intro hall
  have hdown : (run (step ⟨10000, 1048576, 2097152, 10⟩ ⟨[97], [97]⟩) cutWhileDown
      (down inode5 ⟨9, by decide⟩)).bind (fun w => (w.installs (.rotate true 20 .active)).bind
        fun r => (w.files.file r.1).map fun f => (r.2.handler.filePos, f.size.val)) = some (9, 5) := by
    decide +kernel
  obtain ⟨w, hr, hw⟩ := Option.bind_eq_some_iff.mp hdown
  obtain ⟨⟨i, r⟩, hi, hw⟩ := Option.bind_eq_some_iff.mp hw
  obtain ⟨f, hf, hw⟩ := Option.map_eq_some_iff.mp hw
  obtain ⟨hpos, hsize⟩ := Prod.mk.inj hw
  have hstart := cond_of_along hr (hall _ _ (cutWhileDown ++ [.rotate true 20 .active]) _)
  have hle := (hstart i r f hi hf).1
  rw [show r.handler.filePos = 9 from hpos, show f.size.val = 5 from hsize] at hle
  exact absurd hle (by decide)

end World

end Logkafka
