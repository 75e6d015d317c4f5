/-
# `Logkafka.TailWatcher.Resume` — where a new reader starts

Two laws of a restart.

The first reader a watcher installs starts at the stored offset, if the entry
is the file's, and at the end of the file, if there is no entry and the file is
not to be read from its head.  `onRotate` carries the offset in an `int`, and
`fseek` refuses a negative one: the law holds below `2 ^ 31` and nowhere else
(`first_start_iff`).

Whatever the branch, the entry says where the new reader starts and which file
it reads, so that a process that dies before it sends anything starts again at
the same byte.  The branches compute the two sides apart from each other;
`agrees_iff` gives the condition under which they meet, branch by branch, and
`stored_agrees_iff` carries it through the life of a watcher.
-/
import Logkafka.Run
import Logkafka.TailWatcher.Basic

namespace Logkafka.TailWatcher

/-! ## Narrowing -/

theorem toInt_fopen_fseek (st : FileStat) (p : OffT) :
    ((fseek (fopen st) p).pos : ℤ) = if 0 ≤ p.toInt then p.toInt else 0 := by
  unfold fseek
  by_cases h : 0 ≤ p
  · have h' : 0 ≤ p.toInt := Int64.le_iff_toInt_le.mp h
    rw [if_pos h, if_pos h']
    exact Int.toNat_of_nonneg h'
  · have h' : ¬ 0 ≤ p.toInt := fun hp => h (Int64.le_iff_toInt_le.mpr hp)
    rw [if_neg h, if_neg h']
    rfl

/-- An offset that went through an `int` is where the stream stands exactly
when it is in the range of one. -/
theorem narrowed_start_iff (st : FileStat) (p : OffT) :
    ((fseek (fopen st) p.toInt32.toInt64).pos : ℤ) = p.toInt ↔ 0 ≤ p.toInt ∧ p.toInt < 2 ^ 31 := by
  rw [toInt_fopen_fseek, Int32.toInt_toInt64, Int64.toInt_toInt32, Int.bmod_def]
  have h1 := p.le_toInt
  have h2 := p.toInt_lt
  split <;> split <;> omega

/-! ## The first reader

The offset a watcher begins with, branch by branch, and where the stream then
stands.
-/

theorem firstPos_same {file : File} {slot : Slot} (tw : TailWatcher)
    (h : file.stat.inode = slot.readInode) :
    firstPos file tw slot = (slot.readPos.toInt32, slot) := if_pos h

theorem firstPos_other {file : File} {slot : Slot} (tw : TailWatcher)
    (h : file.stat.inode ≠ slot.readInode) (hstored : slot.readInode ≠ inoNone) :
    firstPos file tw slot = (0, slot.update file.stat.inode 0) :=
  (if_neg h).trans (if_pos hstored)

theorem firstPos_new {file : File} {slot : Slot} (tw : TailWatcher)
    (hstored : slot.readInode = inoNone) :
    firstPos file tw slot
      = ((if tw.conf.logConf.readFromHead then 0 else file.stat.size.val).toInt32,
        slot.update file.stat.inode
          (if tw.conf.logConf.readFromHead then 0 else file.stat.size.val).toInt32.toInt64) := by
  have hne : file.stat.inode ≠ slot.readInode := by
    rw [hstored]
    exact file.stat.inode_ne
  exact (if_neg hne).trans (if_neg (not_not.mpr hstored))

/-- The watcher's reader starts at `p`, with nothing read. -/
def StartsAt (tw : TailWatcher) (p : OffT) : Prop :=
  ∃ r, tw.reader = some r ∧ r.handler.buffer = [] ∧ (r.handler.filePos : ℤ) = p.toInt

theorem onRotate_first {initOk : Bool} {now : ℤ} {file : File} {tw tw' : TailWatcher}
    {slot slot' : Slot} (hfirst : tw.reader = none)
    (h : onRotate initOk now file tw slot = .returned true tw' slot') :
    slot' = (firstPos file tw slot).2 ∧
      tw'.reader = some ⟨file.stat.inode, IOHandler.init
        (fseek file (firstPos file tw slot).1.toInt64).pos slot'.pos.toNat now⟩ := by
  unfold onRotate at h
  rw [hfirst] at h
  simp only [openReader] at h
  split at h
  · have hstat : ∀ (f : File) (p : OffT), (fseek f p).stat = f.stat := by
      intro f p
      unfold fseek
      split <;> rfl
    simp only [Rotated.returned.injEq, true_and] at h
    obtain ⟨rfl, rfl⟩ := h
    exact ⟨rfl, by rw [hstat]⟩
  · simp at h

/-- **Where the first reader starts.**  With the file's own entry, at the
stored offset, exactly when that is below `2 ^ 31`; without an entry and not
from the head, at the end of the file, and the end is what is stored, exactly
when the file is shorter than `2 ^ 31`. -/
theorem first_start_iff {now : ℤ} {initOk : Bool} {st : FileStat} {tw tw' : TailWatcher}
    {slot slot' : Slot} (hfirst : tw.reader = none)
    (h : onRotate initOk now (fopen st) tw slot = .returned true tw' slot') :
    (slot.readInode = st.inode → 0 ≤ slot.readPos → slot.readPos ≤ st.size.val →
      (StartsAt tw' slot.readPos ↔ slot.readPos.toInt < 2 ^ 31)) ∧
    (slot.readInode = inoNone → tw.conf.logConf.readFromHead = false →
      (StartsAt tw' st.size.val ∧ slot'.readPos = st.size.val ↔ st.size.val.toInt < 2 ^ 31)) := by
  obtain ⟨hslot, hreader⟩ := onRotate_first hfirst h
  have hstarts : ∀ p : OffT, StartsAt tw' p ↔
      ((fseek (fopen st) (firstPos (fopen st) tw slot).1.toInt64).pos : ℤ) = p.toInt := by
    intro p
    unfold StartsAt
    rw [hreader]
    simp [IOHandler.init]
  constructor
  · intro hinode hpos _
    have hnonneg : 0 ≤ slot.readPos.toInt := Int64.le_iff_toInt_le.mp hpos
    rw [hstarts, firstPos_same tw (show (fopen st).stat.inode = _ from hinode.symm),
      narrowed_start_iff]
    exact and_iff_right hnonneg
  · intro hnone hhead
    have hnonneg : 0 ≤ st.size.val.toInt := Int64.le_iff_toInt_le.mp st.size.2
    have hfp := @firstPos_new (fopen st) slot tw hnone
    rw [hhead, if_neg Bool.false_ne_true] at hfp
    rw [hstarts, hslot, hfp]
    show ((fseek (fopen st) st.size.val.toInt32.toInt64).pos : ℤ) = _ ∧ _ ↔ _
    rw [narrowed_start_iff, and_iff_right hnonneg]
    refine and_iff_left_of_imp fun hlt => ?_
    -- what fits an `int` is not changed by it, and is read back
    have hsame : st.size.val.toInt32.toInt64 = st.size.val := by
      rw [← Int64.toInt_inj, Int32.toInt_toInt64, Int64.toInt_toInt32, Int.bmod_def]
      split <;> omega
    show (slot.update st.inode st.size.val.toInt32.toInt64).readPos = _
    rw [hsame, slot.readPos_update_iff st.inode st.size.2]
    intro hmax
    rw [hmax] at hlt
    exact absurd hlt (by decide)

/-- A watcher that has installed no reader yet. -/
def fresh (readFromHead : Bool) : TailWatcher :=
  init [97] [97] ⟨⟨[97], [97]⟩, 0⟩
    { valid := true
      logConf := ⟨[97], true, 200, readFromHead, 10, true⟩
      kafkaTopicConf := ⟨[], [116], [], 1, [], -1, 0⟩
      filterConf := ⟨[]⟩ }

/-- A file of `size` bytes with inode 5. -/
def fileOf (size : Offset) : FileStat := ⟨5, size, by decide⟩

/-- A file of 10 bytes: with an entry at 4, and with none where the head is not read. -/
theorem first_start_iff_small :
    (∃ tw slot, onRotate true 0 (fopen (fileOf ⟨10, by decide⟩)) (fresh true) ⟨4, 5⟩
      = .returned true tw slot ∧ StartsAt tw 4) ∧
    ∃ tw slot, onRotate true 0 (fopen (fileOf ⟨10, by decide⟩)) (fresh false) ⟨0, 0⟩
      = .returned true tw slot ∧ StartsAt tw 10 ∧ slot.readPos = 10 := by
  have hsaved : onRotate true 0 (fopen (fileOf ⟨10, by decide⟩)) (fresh true) ⟨4, 5⟩
      = .returned true { fresh true with reader := some ⟨5, IOHandler.init 4 4 0⟩ } ⟨4, 5⟩ := by
    decide
  have hnew : onRotate true 0 (fopen (fileOf ⟨10, by decide⟩)) (fresh false) ⟨0, 0⟩
      = .returned true { fresh false with reader := some ⟨5, IOHandler.init 10 10 0⟩ } ⟨10, 5⟩ := by
    decide
  refine ⟨⟨_, _, hsaved, ?_⟩, _, _, hnew, ?_⟩
  · exact ((first_start_iff rfl hsaved).1 (by decide) (by decide) (by decide)).mpr (by decide)
  · exact ((first_start_iff rfl hnew).2 rfl rfl).mpr (by decide)

/-- A file of 2 GiB, all of it sent, is sent again from its first byte. -/
theorem first_start_fails :
    ¬ ∀ (now : ℤ) (initOk : Bool) (st : FileStat) (tw tw' : TailWatcher) (slot slot' : Slot),
      tw.reader = none → onRotate initOk now (fopen st) tw slot = .returned true tw' slot' →
        slot.readInode = st.inode → 0 ≤ slot.readPos → slot.readPos ≤ st.size.val →
          StartsAt tw' slot.readPos := by
  intro hall
  have h := hall 0 true (fileOf ⟨2147483648, by decide⟩) (fresh true)
    { fresh true with reader := some ⟨5, IOHandler.init 0 2147483648 0⟩ } ⟨2147483648, 5⟩
    ⟨2147483648, 5⟩ rfl (by decide) (by decide) (by decide) (by decide)
  obtain ⟨r, hr, -, hpos⟩ := h
  obtain rfl := Option.some.inj hr
  exact absurd hpos (by decide)

/-! ## The entry and the reader

Each branch writes the entry by one computation and the reader by another.
-/

/-- The entry says where the reader starts, and in which file. -/
def Agrees (tw : TailWatcher) (slot : Slot) : Prop :=
  ∃ r, tw.reader = some r ∧ r.handler.buffer = [] ∧
    slot.readPos.toInt = r.handler.filePos ∧ slot.readInode = r.inode

/-- When they meet, branch by branch.
* no reader, the entry's file: the stored offset fits an `int`;
* no reader, another file: the inode has 32 bits, and the size as an `int` is
  not negative if that is where to start;
* the file of the entry, truncated: it is empty;
* a closed reader: the inode has 32 bits. -/
def Resumable (st : FileStat) (tw : TailWatcher) (slot : Slot) : Prop :=
  match tw.reader with
  | none =>
      if st.inode = slot.readInode then
        0 ≤ slot.readPos.toInt ∧ slot.readPos.toInt < 2 ^ 31
      else
        st.inode.toNat < 2 ^ 32 ∧
          (slot.readInode = inoNone → tw.conf.logConf.readFromHead = false →
            0 ≤ st.size.val.toInt32.toInt)
  | some r =>
      if st.inode = slot.readInode then st.size.val = 0
      else r.handler.fileOpen = false → st.inode.toNat < 2 ^ 32

theorem agrees_openReader {initOk : Bool} {now : ℤ} {file : File} {tw tw' : TailWatcher}
    {slot slot' : Slot} (h : openReader initOk now file tw slot = .returned true tw' slot') :
    Agrees tw' slot' ↔ slot.readPos.toInt = file.pos ∧ slot.readInode = file.stat.inode := by
  unfold openReader at h
  split at h
  · simp only [Rotated.returned.injEq, true_and] at h
    obtain ⟨rfl, rfl⟩ := h
    simp [Agrees, IOHandler.init]
  · simp at h

/-- What is stored as an `int` reads as that `int` if it is an offset. -/
theorem readPos_narrowed_iff (st : FileStat) (slot : Slot) (p : Int32) :
    (slot.updatePos p.toInt64).readPos.toInt = (fseek (fopen st) p.toInt64).pos ↔
      0 ≤ p.toInt := by
  have hlt := p.toInt_lt
  rw [toInt_fopen_fseek, Int32.toInt_toInt64]
  by_cases h : 0 ≤ p.toInt
  · have hle : 0 ≤ p.toInt64 := Int64.le_iff_toInt_le.mpr (by rw [Int32.toInt_toInt64]; exact h)
    have hmax : p.toInt64 ≠ Int64.maxValue := by
      intro hmax
      have hint := congrArg Int64.toInt hmax
      rw [Int32.toInt_toInt64, show Int64.maxValue.toInt = 2 ^ 63 - 1 by decide] at hint
      omega
    rw [(slot.readPos_updatePos_iff hle).mpr hmax, Int32.toInt_toInt64, if_pos h]
    exact iff_of_true rfl h
  · -- a negative `int` is printed as a huge number, and read as none
    have hneg : (slot.updatePos p.toInt64).readPos = -1 := by
      have hbig : ¬ p.toInt64.toUInt64.toNat < 2 ^ 63 - 1 := by
        have h64 : p.toInt64.toInt < 0 := by rw [Int32.toInt_toInt64]; omega
        have hcast : p.toInt64.toInt = (p.toInt64.toUInt64.toNat : ℤ).bmod (2 ^ 64) :=
          BitVec.toInt_eq_toNat_bmod _
        rw [Int.bmod_def] at hcast
        have hnat := p.toInt64.toUInt64.toNat_lt
        split at hcast <;> omega
      exact if_neg hbig
    rw [hneg, if_neg h]
    exact iff_of_false (by decide) h

/-- An entry made for a file and a start given as an `int`. -/
theorem made_agrees_iff (st : FileStat) (slot : Slot) (p : Int32) :
    ((slot.update st.inode p.toInt64).readPos.toInt = (fseek (fopen st) p.toInt64).pos ∧
        (slot.update st.inode p.toInt64).readInode = st.inode) ↔
      st.inode.toNat < 2 ^ 32 ∧ 0 ≤ p.toInt := by
  rw [slot.readInode_update_iff, and_comm]
  exact and_congr Iff.rfl (readPos_narrowed_iff st slot p)

theorem agrees_iff {now : ℤ} {initOk : Bool} {st : FileStat} {tw tw' : TailWatcher}
    {slot slot' : Slot} (h : onRotate initOk now (fopen st) tw slot = .returned true tw' slot') :
    Agrees tw' slot' ↔ Resumable st tw slot := by
  have hstat : ∀ p, (fseek (fopen st) p).stat = st := by
    intro p
    unfold fseek
    split <;> rfl
  unfold onRotate at h
  unfold Resumable
  cases hr : tw.reader with
  | none =>
      rw [hr] at h
      simp only at h ⊢
      rw [agrees_openReader h, hstat]
      by_cases hino : st.inode = slot.readInode
      · rw [if_pos hino, firstPos_same tw (show (fopen st).stat.inode = _ from hino), eq_comm,
          narrowed_start_iff]
        exact and_iff_left hino.symm
      · rw [if_neg hino]
        by_cases hnone : slot.readInode = inoNone
        · rw [firstPos_new tw hnone]
          refine (made_agrees_iff st slot _).trans (and_congr Iff.rfl ?_)
          cases tw.conf.logConf.readFromHead with
          | true => exact iff_of_true (Int.le_refl 0) fun _ hc => by cases hc
          | false => exact ⟨fun hp _ _ => hp, fun hp => hp hnone rfl⟩
        · rw [firstPos_other tw (show (fopen st).stat.inode ≠ _ from hino) hnone]
          refine (made_agrees_iff st slot 0).trans (and_congr Iff.rfl ?_)
          exact iff_of_true (by decide) fun hc => absurd hc hnone
  | some r =>
      rw [hr] at h
      simp only at h ⊢
      by_cases hino : st.inode = slot.readInode
      · rw [if_pos hino]
        rw [show (fopen st).stat = st from rfl, if_pos hino] at h
        rw [agrees_openReader h]
        have hread : (slot.updatePos st.size.val).readInode = (fopen st).stat.inode := hino.symm
        rw [and_iff_left hread]
        show (slot.updatePos st.size.val).readPos.toInt = 0 ↔ _
        constructor
        · intro hzero
          by_cases hmax : st.size.val = Int64.maxValue
          · have hnot : (slot.updatePos st.size.val).readPos = -1 := by
              rw [hmax]
              exact if_neg (show ¬ Int64.maxValue.toUInt64.toNat < 2 ^ 63 - 1 by decide)
            rw [hnot] at hzero
            exact absurd hzero (by decide)
          · rw [(slot.readPos_updatePos_iff st.size.2).mpr hmax] at hzero
            exact Int64.toInt_inj.mp hzero
        · intro hzero
          rw [hzero]
          rfl
      · rw [if_neg hino]
        rw [show (fopen st).stat = st from rfl, if_neg hino] at h
        cases hopen : r.handler.fileOpen with
        | true => simp [hopen] at h
        | false =>
            rw [hopen, if_pos rfl] at h
            rw [agrees_openReader h, show (fopen st).stat.inode = st.inode from rfl,
              slot.readInode_update_iff, and_comm]
            exact ⟨fun hp _ => hp.1, fun hp => ⟨hp rfl, rfl⟩⟩

/-! ## The life of a watcher

Readers are installed by rotations; the other steps install none.
-/

/-- A watcher and what its entry holds. -/
structure Watched where
  tw : TailWatcher
  slot : Slot

/-- What happens to a watcher.  `updateWatcher` is the callback: its answer and
what it does to the watcher that called it. -/
inductive Op
  | rotate (stat opened : Option FileStat) (initOk : Bool) (now : ℤ)
      (updateWatcher : Watched → Bool × Watched)
  | read (f : LogFile) (now : ℤ) (es : List IOHandler.Event)
  | stop (closeIo : Bool) (f : LogFile) (now : ℤ) (es : List IOHandler.Event)
  | start

/-- `RotateHandler::onNotify`; the record is renewed only when the rotation is
done. -/
def notifyRotate (stat opened : Option FileStat) (initOk : Bool) (now : ℤ)
    (updateWatcher : Watched → Bool × Watched) (s : Watched) : Watched :=
  if s.tw.rotateHandler.rotated stat then
    match opened with
    | none => s
    | some st =>
        let (ok, s') : Bool × Watched :=
          match s.tw.onRotate initOk now (fopen st) s.slot with
          | .returned ok tw slot => (ok, ⟨tw, slot⟩)
          | .handOver => updateWatcher s
        if ok then ⟨{ s'.tw with rotateHandler := RotateHandler.record stat }, s'.slot⟩ else s'
  else ⟨{ s.tw with rotateHandler := s.tw.rotateHandler.grow stat }, s.slot⟩

def life (cfg : Config) : Op → Watched → Option Watched
  | .rotate stat opened initOk now updateWatcher, s =>
      some (notifyRotate stat opened initOk now updateWatcher s)
  | .read f now es, s => (notifyIo cfg f now es s.tw s.slot).map fun r => ⟨r.1, r.2⟩
  | .stop closeIo f now es, s =>
      let tw := { s.tw with running := false }
      if closeIo then (notifyIo cfg f now es tw s.slot).map fun r => ⟨r.1.closeIo, r.2⟩
      else some ⟨tw, s.slot⟩
  | .start, s => some ⟨{ s.tw with running := true }, s.slot⟩

/-- The step installs a reader of the file `st`: the file was opened for a
rotation, and the reader there is, if any, is closed or has the entry's file. -/
def Installs (st : FileStat) (s : Watched) : Op → Prop
  | .rotate stat opened initOk _ _ =>
      s.tw.rotateHandler.rotated stat = true ∧ opened = some st ∧ initOk = true ∧
        ∀ r, s.tw.reader = some r → r.handler.fileOpen = true → st.inode = s.slot.readInode
  | .read _ _ _ => False
  | .stop _ _ _ _ => False
  | .start => False

/-- A rotation that is not handed over and does not fail installs a reader. -/
theorem onRotate_installs {now : ℤ} {st : FileStat} {tw : TailWatcher} {slot : Slot}
    (h : ∀ r, tw.reader = some r → r.handler.fileOpen = true → st.inode = slot.readInode) :
    ∃ tw' slot', onRotate true now (fopen st) tw slot = .returned true tw' slot' := by
  unfold onRotate
  cases hr : tw.reader with
  | none => exact ⟨_, _, rfl⟩
  | some r =>
      simp only
      by_cases hino : (fopen st).stat.inode = slot.readInode
      · rw [if_pos hino]
        exact ⟨_, _, rfl⟩
      · rw [if_neg hino]
        cases hopen : r.handler.fileOpen with
        | true => exact absurd (h r hr hopen) hino
        | false => exact ⟨_, _, rfl⟩

theorem step_agrees_iff (cfg : Config) {st : FileStat} {s s' : Watched} {op : Op}
    (hi : Installs st s op) (hs : life cfg op s = some s') :
    Agrees s'.tw s'.slot ↔ Resumable st s.tw s.slot := by
  cases op with
  | rotate stat opened initOk now updateWatcher =>
      obtain ⟨hrot, rfl, rfl, hopen⟩ := hi
      obtain rfl := Option.some.inj hs
      obtain ⟨tw', slot', hret⟩ := @onRotate_installs now st s.tw s.slot hopen
      rw [← agrees_iff hret]
      simp only [notifyRotate, hrot, if_true, hret]
      exact Iff.rfl
  | read => exact hi.elim
  | stop => exact hi.elim
  | start => exact hi.elim

/-- **When the entry agrees with every new reader.**  Through the life of a
watcher: after each step that installs a reader the entry says where it starts
and in which file, if and only if each of these steps found its branch's
condition. -/
theorem stored_agrees_iff (cfg : Config) (ops : List Op) (s : Watched) :
    Along (life cfg) (fun s op => ∀ st, Installs st s op →
        ∀ s', life cfg op s = some s' → Agrees s'.tw s'.slot) ops s ↔
      Along (life cfg) (fun s op => ∀ st, Installs st s op → Resumable st s.tw s.slot) ops s := by
  refine along_congr (fun s op => forall_congr' fun st => ⟨fun h hi => ?_, fun h hi s' hs => ?_⟩)
    ops s
  · cases op with
    | rotate stat opened initOk now updateWatcher =>
        exact (step_agrees_iff cfg hi rfl).mp (h hi _ rfl)
    | read => exact hi.elim
    | stop => exact hi.elim
    | start => exact hi.elim
  · exact (step_agrees_iff cfg hi hs).mpr (h hi)

/-- A log of nine bytes is opened and then cut down to seven: it is read again
from its first byte, and the entry says that seven were read. -/
theorem stored_agrees_fails :
    ¬ ∀ (cfg : Config) (ops : List Op) (s : Watched),
      Along (life cfg) (fun s op => ∀ st, Installs st s op →
        ∀ s', life cfg op s = some s' → Agrees s'.tw s'.slot) ops s := by
  intro hall
  have h := hall ⟨10000, 1048576, 2097152, 10⟩
    [.rotate (some (fileOf ⟨9, by decide⟩)) (some (fileOf ⟨9, by decide⟩)) true 0 fun s => (true, s),
      .rotate (some (fileOf ⟨7, by decide⟩)) (some (fileOf ⟨7, by decide⟩)) true 1 fun s => (true, s)]
    ⟨fresh true, ⟨0, 0⟩⟩
  have hcut := (h.2 _ rfl).1 (fileOf ⟨7, by decide⟩)
    ⟨by decide, rfl, rfl, fun _ _ _ => by decide⟩ _ rfl
  obtain ⟨r, hr, -, hpos, -⟩ := hcut
  obtain rfl := Option.some.inj hr
  exact absurd hpos (by decide)

end Logkafka.TailWatcher
