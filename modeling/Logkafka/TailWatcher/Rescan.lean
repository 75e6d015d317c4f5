/-
# `Logkafka.TailWatcher.Rescan` — when a file is read from its start again

`onRotate` takes the file it is given for a truncated one if its inode is that
of the entry.  That it was called at all rests on what the rotate handler
recorded, and the record is made of a `stat` before the file was opened; if the
path was given another file in between, the record is of one file and the
reader and the entry are of another.

`OnlyShrunk` asks that only a file that became shorter since a reader of it was
installed is taken for truncated or read once more.  It holds in every run in
which each reader is installed on the file that was statted, not shorter than
it was then (`only_shrunk`): the invariant is `Tracks`.
-/
import Logkafka.TailWatcher.Truncation

namespace Logkafka

open TailWatcher

/-! ## What happens to the files

Anything may happen to them, but a file keeps its inode and its history.
-/

/-- What the writer of the log can do: a file stays or becomes shorter, no file
gets a path again, and a new one was not there before. -/
structure Evolves (fs fs' : Files) : Prop where
  file : ∀ i f, fs.file i = some f → ∃ f', fs'.file i = some f' ∧ f'.read = f.read ∧
    (f'.shrunk = true ∨ f'.shrunk = f.shrunk ∧ f.size.val ≤ f'.size.val)
  new : ∀ i f', fs'.file i = some f' → f'.read = true → fs.file i ≠ none
  path : ∀ i, fs'.path = some i → fs.path = some i ∨ fs.file i = none
  exist : (∀ i, fs.path = some i → fs.file i ≠ none) → ∀ i, fs'.path = some i → fs'.file i ≠ none

theorem Files.file_set (fs : Files) (i j : Inode) (f : LogInode) :
    (fs.set i f).file j = if j = i then some f else fs.file j := by
  simp only [Files.set, Function.update_apply]

/-- One file is changed. -/
theorem evolves_set {fs : Files} {i : Inode} {f f' : LogInode} (hf : fs.file i = some f)
    (hread : f'.read = f.read)
    (hsize : f'.shrunk = true ∨ f'.shrunk = f.shrunk ∧ f.size.val ≤ f'.size.val) :
    Evolves fs (fs.set i f') where
  file j g hg := by
    rw [Files.file_set]
    split
    · next hj =>
        subst hj
        obtain rfl : f = g := Option.some.inj (hf.symm.trans hg)
        exact ⟨f', rfl, hread, hsize⟩
    · exact ⟨g, hg, rfl, Or.inr ⟨rfl, Int64.le_refl _⟩⟩
  new j g hg _ := by
    rw [Files.file_set] at hg
    split at hg
    · next hj =>
        subst hj
        rw [hf]
        exact Option.some_ne_none _
    · rw [hg]
      exact Option.some_ne_none _
  path j hj := Or.inl hj
  exist hexist j hj := by
    rw [Files.file_set]
    split
    · exact Option.some_ne_none _
    · exact hexist j hj

theorem evolves_apply {c : Change} {fs fs' : Files} (h : c.apply fs = some fs') :
    Evolves fs fs' := by
  cases c with
  | append i size =>
      obtain ⟨f', hf', rfl⟩ := Option.map_eq_some_iff.mp h
      obtain ⟨f, hf, hf'⟩ := Option.bind_eq_some_iff.mp hf'
      unfold LogInode.append at hf'
      split at hf'
      · next hle =>
          obtain rfl := Option.some.inj hf'
          exact evolves_set hf rfl (Or.inr ⟨rfl, hle⟩)
      · cases hf'
  | truncate i size =>
      obtain ⟨f', hf', rfl⟩ := Option.map_eq_some_iff.mp h
      obtain ⟨f, hf, hf'⟩ := Option.bind_eq_some_iff.mp hf'
      unfold LogInode.truncate at hf'
      split at hf'
      · split at hf' <;>
        · obtain rfl := Option.some.inj hf'
          exact evolves_set hf rfl (Or.inl rfl)
      · cases hf'
  | rename =>
      obtain rfl := Option.some.inj h
      refine ⟨fun i f hf => ⟨f, hf, rfl, Or.inr ⟨rfl, Int64.le_refl _⟩⟩, fun i f hf _ => ?_,
        fun i hi => (by cases hi), fun _ i hi => (by cases hi)⟩
      have hf : fs.file i = some f := hf
      rw [hf]
      exact Option.some_ne_none _
  | create i =>
      simp only [Change.apply] at h
      split at h
      · cases h
      · next hnone =>
          obtain rfl := Option.some.inj h
          have hfile : ∀ j, (fs.set i LogInode.new).file j = if j = i then some LogInode.new
              else fs.file j := fun j => fs.file_set i j _
          refine ⟨fun j f hf => ⟨f, (hfile j).trans ?_, rfl, Or.inr ⟨rfl, Int64.le_refl _⟩⟩,
            fun j f hf hread => ?_, fun j hj => ?_, fun _ j hj => ?_⟩
          · rw [if_neg ?_]
            · exact hf
            · rintro rfl
              rw [hnone] at hf
              cases hf
          · have hf := (hfile j).symm.trans hf
            split at hf
            · obtain rfl := Option.some.inj hf
              cases hread
            · rw [hf]
              exact Option.some_ne_none _
          · obtain rfl : i = j := Option.some.inj hj
            exact Or.inr hnone
          · obtain rfl : i = j := Option.some.inj hj
            refine fun hc => absurd ((hfile i).symm.trans hc) ?_
            rw [if_pos rfl]
            exact Option.some_ne_none _

namespace World

variable {cfg : Config} {key : PositionEntryKey} {w w' : World} {tw tw' : TailWatcher}

/-! ## The law -/

/-- The file an action takes for truncated. -/
def truncates (w : World) : Act → Option Inode
  | .rotate _ _ _ =>
      match w.watcher, w.pc with
      | some tw, .opened _ i =>
          if tw.reader.isSome ∧ i.val = w.slot.readInode then some i else none
      | _, _ => none
  | _ => none

/-- A file that is taken for truncated, or gets one more reader, became shorter
since the last one was installed. -/
def OnlyShrunk (w : World) (a : Act) : Prop :=
  ∀ i f, w.files.file i = some f →
    w.truncates a = some i ∨ (∃ r, w.installs a = some (i, r)) ∧ f.read = true →
      f.shrunk = true

/-- A reader is installed on the file that was statted, not shorter than it was
then, and with an inode that fits the entry; and the new file of a closed reader
gets one. -/
def SameFile (w : World) (a : Act) : Prop :=
  ∀ initOk now hand st i f tw, a = .rotate initOk now hand → w.watcher = some tw →
    w.pc = .opened st i → w.files.file i = some f →
      (∀ r, w.installs a = some (i, r) →
        (RotateHandler.observe st).1 = i.val ∧ (RotateHandler.observe st).2 ≤ f.size.val ∧
          i.val.toNat < 2 ^ 32) ∧
      (∀ r, tw.reader = some r → r.handler.fileOpen = false → i.val ≠ w.slot.readInode →
        initOk = true)

/-- `SameFile` where a file was opened for the watcher. -/
def sameFile (w : World) (initOk : Bool) (now : ℤ) (hand : HandOver) :
    Option TailWatcher → Pc → Bool
  | some tw, .opened st i => (w.files.file i).all fun f =>
      ((w.installs (.rotate initOk now hand)).all fun ir => ir.1 ≠ i ||
        decide ((RotateHandler.observe st).1 = i.val ∧
          (RotateHandler.observe st).2 ≤ f.size.val ∧ i.val.toNat < 2 ^ 32)) &&
        tw.reader.all fun r => r.handler.fileOpen || i.val = w.slot.readInode || initOk
  | _, _ => true

theorem sameFile_iff (w : World) (initOk : Bool) (now : ℤ) (hand : HandOver) :
    w.sameFile initOk now hand w.watcher w.pc = true ↔ SameFile w (.rotate initOk now hand) := by
  constructor
  · intro h _ _ _ st i f tw ha hw hpc hf
    cases ha
    rw [hw, hpc] at h
    obtain ⟨hinstalls, hclosed⟩ := Bool.and_eq_true_iff.mp ((Option.all_eq_true _ _).mp h f hf)
    refine ⟨fun r hr => ?_, fun r hr hopen hne => ?_⟩
    · simpa using (Option.all_eq_true _ _).mp hinstalls (i, r) hr
    · simpa [hopen, hne] using (Option.all_eq_true _ _).mp hclosed r hr
  · intro h
    unfold sameFile
    split
    · next tw st i hw hpc =>
        refine (Option.all_eq_true _ _).mpr fun f hf => ?_
        obtain ⟨hinstalls, hclosed⟩ := h initOk now hand st i f tw rfl hw hpc hf
        refine Bool.and_eq_true_iff.mpr ⟨(Option.all_eq_true _ _).mpr fun ⟨j, r⟩ hr => ?_,
          (Option.all_eq_true _ _).mpr fun r hr => ?_⟩
        · by_cases hj : j = i
          · simpa [hj] using hinstalls r (hj ▸ hr)
          · simp [hj]
        · by_cases hopen : r.handler.fileOpen = false
          · by_cases hne : i.val = w.slot.readInode
            · simp [hne]
            · simp [hclosed r hr hopen hne]
          · simp [eq_true_of_ne_false hopen]
    · rfl

instance (w : World) : (a : Act) → Decidable (SameFile w a)
  | .rotate initOk now hand => decidable_of_iff _ (sameFile_iff w initOk now hand)
  | .change _ | .stat | .fopen | .read _ | .close _ | .die | .dieReading _ | .start _ =>
      isTrue fun _ _ _ _ _ _ _ ha => by cases ha

/-- The process goes on. -/
def Running : Act → Prop
  | .die => False
  | .dieReading _ => False
  | .start _ => False
  | _ => True

instance : (a : Act) → Decidable (Running a)
  | .change _ => isTrue trivial
  | .stat => isTrue trivial
  | .fopen => isTrue trivial
  | .rotate _ _ _ => isTrue trivial
  | .read _ => isTrue trivial
  | .close _ => isTrue trivial
  | .die => isFalse id
  | .dieReading _ => isFalse id
  | .start _ => isFalse id

/-! ## The invariant

What the rotate handler has recorded, at each point between its three looks at the
disk.
-/

/-- The file of the reader, as the entry says. -/
def Current (w : World) (tw : TailWatcher) (i : Inode) : Prop :=
  tw.reader.isSome = true ∧ w.slot.readInode = i.val

/-- What a `stat` that was made some time ago says of the reader's file. -/
structure Seen (w : World) (tw : TailWatcher) (st : Option FileStat) : Prop where
  same : ∀ i f, Current w tw i → w.files.file i = some f → (RotateHandler.observe st).1 = i.val →
    f.shrunk = true ∨ tw.rotateHandler.fsize ≤ (RotateHandler.observe st).2 ∧
      (RotateHandler.observe st).2 ≤ f.size.val
  other : ∀ i, Current w tw i → (RotateHandler.observe st).1 ≠ i.val → w.files.path ≠ some i

structure Opened (w : World) (tw : TailWatcher) (st : Option FileStat) (j : Inode) : Prop where
  seen : Seen w tw st
  file : w.files.file j ≠ none
  rotated : tw.rotateHandler.rotated st = true
  read : ∀ f, w.files.file j = some f → f.read = true → Current w tw j
  statted : Current w tw j → (RotateHandler.observe st).1 = j.val
  gone : ∀ i, Current w tw i → i ≠ j → w.files.path ≠ some i

structure Tracks (w : World) (tw : TailWatcher) : Prop where
  watcher : w.watcher = some tw
  path : ∀ i, w.files.path = some i → w.files.file i ≠ none
  gone : ∀ i f, w.files.file i = some f → f.read = true →
    w.files.path ≠ some i ∨ Current w tw i
  recorded : ∀ r, tw.reader = some r → ∃ i f, w.slot.readInode = i.val ∧ w.files.file i = some f ∧
    tw.rotateHandler.inode = i.val ∧ (f.shrunk = true ∨ tw.rotateHandler.fsize ≤ f.size.val)
  statted : ∀ st, w.pc = .statted st → Seen w tw st
  opened : ∀ st j, w.pc = .opened st j → Opened w tw st j

/-- The reader's file is there, and recorded. -/
theorem Tracks.current (h : Tracks w tw) {i : Inode} (hi : Current w tw i) :
    ∃ f, w.files.file i = some f ∧ tw.rotateHandler.inode = i.val ∧
      (f.shrunk = true ∨ tw.rotateHandler.fsize ≤ f.size.val) := by
  obtain ⟨r, hr⟩ := Option.isSome_iff_exists.mp hi.1
  obtain ⟨j, f, hslot, hf, hinode, hsize⟩ := h.recorded r hr
  obtain rfl : i = j := Subtype.ext (hi.2.symm.trans hslot)
  exact ⟨f, hf, hinode, hsize⟩

/-! ### The files change

A change of the files is no step of the watcher, and what was seen of a file says
less afterwards.
-/

section Evolves

variable {files : Files} (he : Evolves w.files files)
include he

theorem seen_evolves (h : Tracks w tw) {st : Option FileStat} (hs : Seen w tw st) :
    Seen { w with files } tw st where
  same i f' hi hf' hst := by
    obtain ⟨f, hf, -⟩ := h.current hi
    obtain ⟨f'', hf'', -, hsize⟩ := he.file i f hf
    obtain rfl : f' = f'' := Option.some.inj (hf'.symm.trans hf'')
    rcases hsize with hshrunk | ⟨hshrunk, hsize⟩
    · exact Or.inl hshrunk
    · rcases hs.same i f hi hf hst with hold | ⟨hrec, hle⟩
      · exact Or.inl (hshrunk.trans hold)
      · exact Or.inr ⟨hrec, Int64.le_trans hle hsize⟩
  other i hi hst hpath := by
    obtain ⟨f, hf, -⟩ := h.current hi
    rcases he.path i hpath with hold | hnone
    · exact hs.other i hi hst hold
    · rw [hf] at hnone
      cases hnone

theorem tracks_evolves (h : Tracks w tw) : Tracks { w with files } tw where
  watcher := h.watcher
  path := he.exist h.path
  gone i f' hf' hread := by
    obtain ⟨f, hf⟩ := Option.ne_none_iff_exists'.mp (he.new i f' hf' hread)
    obtain ⟨f'', hf'', hsame, -⟩ := he.file i f hf
    obtain rfl : f' = f'' := Option.some.inj (hf'.symm.trans hf'')
    rcases h.gone i f hf (hsame.symm.trans hread) with hgone | hcur
    · refine Or.inl fun hpath => ?_
      rcases he.path i hpath with hold | hnone
      · exact hgone hold
      · rw [hf] at hnone
        cases hnone
    · exact Or.inr hcur
  recorded r hr := by
    obtain ⟨i, f, hslot, hf, hinode, hsize⟩ := h.recorded r hr
    obtain ⟨f', hf', -, hchange⟩ := he.file i f hf
    refine ⟨i, f', hslot, hf', hinode, ?_⟩
    rcases hchange with hshrunk | ⟨hshrunk, hgrown⟩
    · exact Or.inl hshrunk
    · rcases hsize with hold | hle
      · exact Or.inl (hshrunk.trans hold)
      · exact Or.inr (Int64.le_trans hle hgrown)
  statted st hpc := seen_evolves he h (h.statted st hpc)
  opened st j hpc := by
    have ho := h.opened st j hpc
    obtain ⟨f, hf⟩ := Option.ne_none_iff_exists'.mp ho.file
    obtain ⟨f', hf', hread, -⟩ := he.file j f hf
    refine ⟨seen_evolves he h ho.seen, ?_, ho.rotated, fun g hg hgread => ?_, ho.statted,
      fun i hi hne hpath => ?_⟩
    · rw [show files.file j = some f' from hf']
      exact Option.some_ne_none _
    · obtain rfl : f' = g := Option.some.inj (hf'.symm.trans hg)
      exact ho.read f hf (hread.symm.trans hgread)
    · obtain ⟨g, hg, -⟩ := h.current hi
      rcases he.path i hpath with hold | hnone
      · exact ho.gone i hi hne hold
      · rw [hg] at hnone
        cases hnone

end Evolves

/-! ### A notification goes on -/

theorem observe_stat (hpath : ∀ i, w.files.path = some i → w.files.file i ≠ none) {i : Inode} :
    (RotateHandler.observe w.files.stat).1 = i.val ↔ w.files.path = some i := by
  cases hp : w.files.path with
  | none =>
      have hnone : w.files.stat = none := by simp [Files.stat, hp]
      rw [hnone]
      exact iff_of_false (Ne.symm i.property) (by simp)
  | some j =>
      obtain ⟨f, hf⟩ := Option.ne_none_iff_exists'.mp (hpath j hp)
      have hstat : w.files.stat = some ⟨j.val, f.size, j.property⟩ := by
        simp [Files.stat, Files.fstat, hp, hf]
      rw [hstat]
      exact Subtype.ext_iff.symm.trans (by rw [Option.some_inj])

/-- What `stat` says now. -/
theorem seen_now (h : Tracks w tw) : Seen w tw w.files.stat where
  same i f hi hf hst := by
    obtain ⟨f', hf', -, hsize⟩ := h.current hi
    obtain rfl : f = f' := Option.some.inj (hf.symm.trans hf')
    have hp := (observe_stat h.path).mp hst
    have hsees : (RotateHandler.observe w.files.stat).2 = f.size.val := by
      simp [Files.stat, Files.fstat, hp, hf, RotateHandler.observe]
    rw [hsees]
    rcases hsize with hshrunk | hle
    · exact Or.inl hshrunk
    · exact Or.inr ⟨hle, Int64.le_refl _⟩
  other i _ hst hp := hst ((observe_stat h.path).mpr hp)

theorem tracks_pc (h : Tracks w tw) {pc : Pc} (hs : ∀ st, pc = .statted st → Seen w tw st)
    (ho : ∀ st j, pc = .opened st j → Opened w tw st j) : Tracks { w with pc } tw where
  watcher := h.watcher
  path := h.path
  gone := h.gone
  recorded := h.recorded
  statted st hpc := ⟨(hs st hpc).same, (hs st hpc).other⟩
  opened st j hpc :=
    have h := ho st j hpc
    ⟨⟨h.seen.same, h.seen.other⟩, h.file, h.rotated, h.read, h.statted, h.gone⟩

theorem tracks_stat (h : Tracks w tw) : Tracks { w with pc := .statted w.files.stat } tw :=
  tracks_pc h (fun st hpc => by cases hpc; exact seen_now h) fun st j hpc => by cases hpc

theorem tracks_idle (h : Tracks w tw) : Tracks { w with pc := .idle } tw :=
  tracks_pc h (fun st hpc => by cases hpc) fun st j hpc => by cases hpc

theorem tracks_fopen (h : Tracks w tw) {st : Option FileStat} (hs : Seen w tw st)
    (hrot : tw.rotateHandler.rotated st = true) {j : Inode} (hp : w.files.path = some j) :
    Tracks { w with pc := .opened st j } tw := by
  refine tracks_pc h (fun st hpc => by cases hpc) fun st' j' hpc => ?_
  cases hpc
  refine ⟨hs, h.path j hp, hrot, fun f hf hread => ?_, fun hcur => ?_, fun i _ hne hpi => ?_⟩
  · rcases h.gone j f hf hread with hgone | hcur
    · exact absurd hp hgone
    · exact hcur
  · -- had `stat` seen another file, this one were gone
    by_contra hother
    exact hs.other j hcur hother hp
  · exact hne (Option.some.inj (hpi.symm.trans hp))

theorem tracks_grow (h : Tracks w tw) {st : Option FileStat} (hs : Seen w tw st)
    (hrot : tw.rotateHandler.rotated st = false) :
    Tracks { w with
      watcher := some { tw with rotateHandler := tw.rotateHandler.grow st }, pc := .idle }
      { tw with rotateHandler := tw.rotateHandler.grow st } where
  watcher := rfl
  path := h.path
  gone := h.gone
  recorded r hr := by
    obtain ⟨i, f, hslot, hf, hinode, hsize⟩ := h.recorded r hr
    have hcur : Current w tw i := ⟨Option.isSome_iff_exists.mpr ⟨r, hr⟩, hslot⟩
    simp only [RotateHandler.rotated, Bool.or_eq_false_iff, decide_eq_false_iff_not, not_not] at hrot
    have hsame : (RotateHandler.observe st).1 = i.val := hrot.1.symm.trans hinode
    refine ⟨i, f, hslot, hf, ?_, ?_⟩
    · show (tw.rotateHandler.grow st).inode = _
      simp only [RotateHandler.grow]
      split <;> exact hinode
    · rcases hs.same i f hcur hf hsame with hshrunk | ⟨-, hle⟩
      · exact Or.inl hshrunk
      · rcases hsize with hshrunk | hold
        · exact Or.inl hshrunk
        · refine Or.inr ?_
          show (tw.rotateHandler.grow st).fsize ≤ _
          simp only [RotateHandler.grow]
          split
          · exact hle
          · exact hold
  statted st hpc := by cases hpc
  opened st j hpc := by cases hpc

/-! ### The IO handler is called -/

/-- A call of the IO handler changes neither the record nor the inode of the
entry. -/
theorem io_spec {close : Bool} {c : IoCall} {s : TailWatcher.Watched}
    (h : io cfg close c w tw = some s) :
    s.tw.rotateHandler = tw.rotateHandler ∧ s.tw.reader.isSome = tw.reader.isSome ∧
      s.slot.readInode = w.slot.readInode := by
  have hread : ∀ (tw₁ : TailWatcher) (r : TailWatcher × Slot), tw₁.reader = tw.reader →
      tw₁.rotateHandler = tw.rotateHandler → notifyIo cfg c.file c.now c.events tw₁ w.slot = some r →
        r.1.rotateHandler = tw.rotateHandler ∧ r.1.reader.isSome = tw.reader.isSome ∧
          r.2.readInode = w.slot.readInode := by
    intro tw₁ r hreader hrecord hn
    unfold notifyIo at hn
    cases hr : tw₁.reader with
    | none =>
        simp only [hr] at hn
        obtain rfl := Option.some.inj hn
        exact ⟨hrecord, congrArg _ hreader, rfl⟩
    | some reader =>
        simp only [hr] at hn
        obtain ⟨h', -, rfl⟩ := Option.map_eq_some_iff.mp hn
        refine ⟨hrecord, ?_, ?_⟩
        · rw [← hreader, hr]
          rfl
        · show (if _ then _ else _ : Slot).readInode = _
          split <;> rfl
  unfold io at h
  split at h
  · cases close with
    | false =>
        obtain ⟨r, hr, rfl⟩ := Option.map_eq_some_iff.mp h
        exact hread tw r rfl rfl hr
    | true =>
        simp only [if_true, life] at h
        obtain ⟨r, hr, rfl⟩ := Option.map_eq_some_iff.mp h
        obtain ⟨hrecord, hsome, hinode⟩ := hread { tw with running := false } r rfl rfl hr
        refine ⟨hrecord, ?_, hinode⟩
        show (r.1.reader.map _).isSome = _
        rw [Option.isSome_map, hsome]
  · cases h

/-- A watcher that reads the same file, and has recorded the same. -/
theorem tracks_same (h : Tracks w tw) {slot' : Slot}
    (hrecord : tw'.rotateHandler = tw.rotateHandler)
    (hsome : tw'.reader.isSome = tw.reader.isSome) (hinode : slot'.readInode = w.slot.readInode) :
    Tracks { w with watcher := some tw', slot := slot', pc := .idle } tw' where
  watcher := rfl
  path := h.path
  gone i f hf hread := by
    refine (h.gone i f hf hread).imp_right fun hcur => ?_
    exact ⟨hsome.trans hcur.1, hinode.trans hcur.2⟩
  recorded r' hr' := by
    obtain ⟨r, hr⟩ := Option.isSome_iff_exists.mp
      (hsome.symm.trans (Option.isSome_iff_exists.mpr ⟨r', hr'⟩))
    obtain ⟨i, f, hslot, hf, hrest⟩ := h.recorded r hr
    exact ⟨i, f, hinode.trans hslot, hf, hrecord ▸ hrest⟩
  statted st hpc := by cases hpc
  opened st j hpc := by cases hpc

/-- A watcher without a reader, when the file of the last one is gone. -/
theorem tracks_unread (h : Tracks w tw) {slot' : Slot} (hnone : tw'.reader = none)
    (hgone : ∀ i, Current w tw i → w.files.path ≠ some i) :
    Tracks { w with watcher := some tw', slot := slot', pc := .idle } tw' where
  watcher := rfl
  path := h.path
  gone i f hf hread := by
    rcases h.gone i f hf hread with hi | hcur
    · exact Or.inl hi
    · exact Or.inl (hgone i hcur)
  recorded r hr := by
    rw [hnone] at hr
    cases hr
  statted st hpc := by cases hpc
  opened st j hpc := by cases hpc

/-! ### A file is given to `onRotate`

The step that installs a reader.  It is here that what was seen and what was opened
have to be one file.
-/

theorem openReader_installed {initOk : Bool} {now : ℤ} {file : File} {slot slot' : Slot}
    (h : openReader initOk now file tw slot = .returned true tw' slot') :
    slot' = slot ∧ tw'.reader.isSome = true := by
  unfold openReader at h
  split at h
  · simp only [Rotated.returned.injEq, true_and] at h
    obtain ⟨rfl, rfl⟩ := h
    exact ⟨rfl, rfl⟩
  · simp at h

theorem openReader_failed {initOk : Bool} {now : ℤ} {file : File} {slot slot' : Slot}
    (h : openReader initOk now file tw slot = .returned false tw' slot') :
    initOk = false ∧ slot' = slot ∧ tw' = tw := by
  unfold openReader at h
  split at h
  · simp at h
  · next hok =>
      simp only [Rotated.returned.injEq, true_and] at h
      obtain ⟨rfl, rfl⟩ := h
      exact ⟨by simpa using hok, rfl, rfl⟩

/-- The entry of a new reader has the inode of its file, if that fits. -/
theorem onRotate_readInode {initOk : Bool} {now : ℤ} {fst : FileStat} {slot slot' : Slot}
    (h : tw.onRotate initOk now (Logkafka.fopen fst) slot = .returned true tw' slot') :
    tw'.reader.isSome = true ∧ (fst.inode.toNat < 2 ^ 32 → slot'.readInode = fst.inode) := by
  have hupdate : ∀ pos, fst.inode.toNat < 2 ^ 32 → (slot.update fst.inode pos).readInode = fst.inode :=
    fun pos => (slot.readInode_update_iff fst.inode pos).mpr
  unfold TailWatcher.onRotate at h
  cases hr : tw.reader with
  | none =>
      simp only [hr] at h
      obtain ⟨rfl, hsome⟩ := openReader_installed h
      refine ⟨hsome, fun hfits => ?_⟩
      by_cases hsame : fst.inode = slot.readInode
      · rw [firstPos_same tw (show (Logkafka.fopen fst).stat.inode = _ from hsame)]
        exact hsame.symm
      · by_cases hstored : slot.readInode = inoNone
        · rw [firstPos_new tw hstored]
          exact hupdate _ hfits
        · rw [firstPos_other tw (show (Logkafka.fopen fst).stat.inode ≠ _ from hsame) hstored]
          exact hupdate _ hfits
  | some r =>
      simp only [hr] at h
      split at h
      · next hsame =>
          obtain ⟨rfl, hsome⟩ := openReader_installed h
          exact ⟨hsome, fun _ => hsame.symm⟩
      · split at h
        · obtain ⟨rfl, hsome⟩ := openReader_installed h
          exact ⟨hsome, fun hfits => hupdate _ hfits⟩
        · simp at h

/-- What is left when no handler could be made. -/
theorem onRotate_unchanged {initOk : Bool} {now : ℤ} {fst : FileStat} {slot slot' : Slot}
    (h : tw.onRotate initOk now (Logkafka.fopen fst) slot = .returned false tw' slot') :
    initOk = false ∧ tw' = tw ∧ (tw.reader = none ∨ slot'.readInode = slot.readInode ∨
      ∃ r, tw.reader = some r ∧ r.handler.fileOpen = false ∧ fst.inode ≠ slot.readInode) := by
  unfold TailWatcher.onRotate at h
  cases hr : tw.reader with
  | none =>
      simp only [hr] at h
      obtain ⟨hok, -, rfl⟩ := openReader_failed h
      exact ⟨hok, rfl, Or.inl rfl⟩
  | some r =>
      simp only [hr] at h
      split at h
      · obtain ⟨hok, rfl, rfl⟩ := openReader_failed h
        exact ⟨hok, rfl, Or.inr (Or.inl rfl)⟩
      · next hother =>
          split at h
          · next hclosed =>
              obtain ⟨hok, -, rfl⟩ := openReader_failed h
              exact ⟨hok, rfl, Or.inr (Or.inr ⟨r, rfl, hclosed, hother⟩)⟩
          · simp at h

theorem onRotate_open {initOk : Bool} {now : ℤ} {fst : FileStat} {slot : Slot}
    (h : tw.onRotate initOk now (Logkafka.fopen fst) slot = .handOver) :
    fst.inode ≠ slot.readInode := by
  unfold TailWatcher.onRotate at h
  cases hr : tw.reader with
  | none =>
      simp only [hr, openReader] at h
      split at h <;> cases h
  | some r =>
      simp only [hr] at h
      split at h
      · simp only [openReader] at h
        split at h <;> cases h
      · next hother => exact hother

theorem tracks_installed (h : Tracks w tw) {st : Option FileStat} {j : Inode} {f : LogInode}
    {slot' : Slot} (ho : Opened w tw st j) (hf : w.files.file j = some f)
    (hsome : tw'.reader.isSome = true) (hinode : slot'.readInode = j.val)
    (hst : (RotateHandler.observe st).1 = j.val) (hsize : (RotateHandler.observe st).2 ≤ f.size.val) :
    Tracks
      { files := w.files.installed j
        watcher := some { tw' with rotateHandler := RotateHandler.record st }
        slot := slot'
        pc := .idle }
      { tw' with rotateHandler := RotateHandler.record st } := by
  have hfile : ∀ i, (w.files.installed j).file i
      = if i = j then some { f with shrunk := false, read := true } else w.files.file i := by
    intro i
    simp only [Files.installed, hf]
    exact w.files.file_set j i _
  have hpath : (w.files.installed j).path = w.files.path := by
    simp only [Files.installed, hf]
    rfl
  refine ⟨rfl, fun i hi => ?_, fun i g hg hread => ?_, fun r _ => ?_, fun st hpc => (by cases hpc),
    fun st j hpc => (by cases hpc)⟩
  · rw [show (w.files.installed j).file i = _ from hfile i]
    split
    · exact Option.some_ne_none _
    · exact h.path i (hpath.symm.trans hi)
  · by_cases hij : i = j
    · subst hij
      exact Or.inr ⟨hsome, hinode⟩
    · have hg := (hfile i).symm.trans hg
      rw [if_neg hij] at hg
      refine Or.inl fun hp => ?_
      have hp : w.files.path = some i := hpath.symm.trans hp
      rcases h.gone i g hg hread with hgone | hcur
      · exact hgone hp
      · exact ho.gone i hcur hij hp
  · refine ⟨j, _, hinode, (hfile j).trans (if_pos rfl), hst, Or.inr hsize⟩

theorem tracks_rotate (h : Tracks w tw) {initOk : Bool} {now : ℤ} {hand : HandOver}
    {st : Option FileStat} {j : Inode} (hpc : w.pc = .opened st j)
    (hsame : SameFile w (.rotate initOk now hand))
    (hs : onRotate cfg key initOk now hand st j tw w = some w') : ∃ tw', Tracks w' tw' := by
  have ho := h.opened st j hpc
  obtain ⟨f, hf⟩ := Option.ne_none_iff_exists'.mp ho.file
  have hfst : w.files.fstat j = some ⟨j.val, f.size, j.property⟩ := by simp [Files.fstat, hf]
  obtain ⟨hinstall, hclosed⟩ := hsame initOk now hand st j f tw rfl h.watcher hpc hf
  cases hret : tw.onRotate initOk now (Logkafka.fopen ⟨j.val, f.size, j.property⟩) w.slot with
  | returned ok tw' slot' =>
      cases ok with
      | true =>
          rw [onRotate_installed hfst hret] at hs
          obtain rfl := Option.some.inj hs
          obtain ⟨hsome, hinode⟩ := onRotate_readInode hret
          obtain ⟨r, hr⟩ := Option.isSome_iff_exists.mp hsome
          have hinstalls : w.installs (.rotate initOk now hand) = some (j, r) := by
            simp only [installs, h.watcher, hpc, hfst, Option.bind_some, hret, hr, Option.map_some]
          obtain ⟨hst, hsize, hfits⟩ := hinstall r hinstalls
          exact ⟨_, tracks_installed h ho hf hsome (hinode hfits) hst hsize⟩
      | false =>
          rw [onRotate_failed hfst hret] at hs
          obtain rfl := Option.some.inj hs
          obtain ⟨hok, rfl, hnone | hinode | ⟨r, hr, hc, hother⟩⟩ := onRotate_unchanged hret
          · refine ⟨_, tracks_unread h hnone fun i hcur => ?_⟩
            rw [Current, hnone] at hcur
            cases hcur.1
          · exact ⟨_, tracks_same h rfl rfl hinode⟩
          · rw [hclosed r hr hc hother] at hok
            cases hok
  | handOver =>
      rw [onRotate_handOver hfst hret] at hs
      have hother := onRotate_open hret
      cases hand with
      | active =>
          obtain rfl := Option.some.inj hs
          exact ⟨tw, tracks_idle h⟩
      | setupFailed c =>
          obtain ⟨s, hio, rfl⟩ := Option.map_eq_some_iff.mp hs
          obtain ⟨hrecord, hsome, hinode⟩ := io_spec hio
          exact ⟨_, tracks_same h hrecord hsome hinode⟩
      | replaced c =>
          obtain ⟨s, hio, rfl⟩ := Option.map_eq_some_iff.mp hs
          refine ⟨_, tracks_unread h rfl fun i hcur => ho.gone i hcur ?_⟩
          rintro rfl
          exact hother hcur.2.symm

/-- **What a step keeps.** -/
theorem tracks_step {a : Act} (h : Tracks w tw) (hrun : Running a) (hsame : SameFile w a)
    (hs : step cfg key a w = some w') : ∃ tw', Tracks w' tw' := by
  have hw := h.watcher
  cases a with
  | change c =>
      obtain ⟨files, hfiles, rfl⟩ := Option.map_eq_some_iff.mp hs
      exact ⟨tw, tracks_evolves (evolves_apply hfiles) h⟩
  | stat =>
      cases hpc : w.pc with
      | idle =>
          simp only [step, hw, hpc] at hs
          obtain rfl := Option.some.inj hs
          exact ⟨tw, hw ▸ tracks_stat h⟩
      | _ => simp [step, hw, hpc] at hs
  | fopen =>
      cases hpc : w.pc with
      | statted st =>
          simp only [step, hw, hpc] at hs
          have hseen := h.statted st hpc
          split at hs
          · next hrot =>
              cases hp : w.files.path with
              | some j =>
                  simp only [hp] at hs
                  obtain rfl := Option.some.inj hs
                  exact ⟨tw, hw ▸ tracks_fopen h hseen hrot hp⟩
              | none =>
                  simp only [hp] at hs
                  obtain rfl := Option.some.inj hs
                  exact ⟨tw, hw ▸ tracks_idle h⟩
          · next hrot =>
              obtain rfl := Option.some.inj hs
              exact ⟨_, tracks_grow h hseen (by simpa using hrot)⟩
      | _ => simp [step, hw, hpc] at hs
  | rotate initOk now hand =>
      cases hpc : w.pc with
      | opened st j =>
          simp only [step, hw, hpc] at hs
          exact tracks_rotate h hpc hsame hs
      | _ => simp [step, hw, hpc] at hs
  | read c =>
      cases hpc : w.pc with
      | idle =>
          simp only [step, hw, hpc] at hs
          obtain ⟨s, hio, rfl⟩ := Option.map_eq_some_iff.mp hs
          obtain ⟨hrecord, hsome, hinode⟩ := io_spec hio
          exact ⟨_, tracks_same h hrecord hsome hinode⟩
      | _ => simp [step, hw, hpc] at hs
  | close c =>
      cases hpc : w.pc with
      | idle =>
          simp only [step, hw, hpc] at hs
          obtain ⟨s, hio, rfl⟩ := Option.map_eq_some_iff.mp hs
          obtain ⟨hrecord, hsome, hinode⟩ := io_spec hio
          exact ⟨_, tracks_same h hrecord hsome hinode⟩
      | _ => simp [step, hw, hpc] at hs
  | die => exact hrun.elim
  | dieReading c => exact hrun.elim
  | start conf => exact hrun.elim

/-- **What the invariant says of a rotation.** -/
theorem onlyShrunk_of_tracks (h : Tracks w tw) (a : Act) : OnlyShrunk w a := by
  intro i f hf hor
  -- either way the file is the reader's
  have hcur : ∃ st, w.pc = .opened st i ∧ Current w tw i := by
    rcases hor with ht | ⟨⟨r, hi⟩, hread⟩
    · cases a with
      | rotate initOk now hand =>
          cases hpc : w.pc with
          | opened st j =>
              simp only [truncates, h.watcher, hpc] at ht
              split at ht
              · next hc =>
                  obtain rfl : j = i := Option.some.inj ht
                  exact ⟨st, rfl, hc.1, hc.2.symm⟩
              · cases ht
          | _ => simp [truncates, h.watcher, hpc] at ht
      | _ => cases ht
    · obtain ⟨_, _, _, st, tw₁, _, _, _, -, -, hpc, -⟩ := installs_eq_some hi
      exact ⟨st, hpc, (h.opened st i hpc).read f hf hread⟩
  obtain ⟨st, hpc, hcur⟩ := hcur
  have ho := h.opened st i hpc
  obtain ⟨f', hf', hinode, -⟩ := h.current hcur
  have hst := ho.statted hcur
  -- the inode is the recorded one, so the size made the handler open the file
  have hrot := ho.rotated
  simp only [RotateHandler.rotated, Bool.or_eq_true, decide_eq_true_eq] at hrot
  have hless : (RotateHandler.observe st).2 < tw.rotateHandler.fsize := by
    rcases hrot with hne | hless
    · exact absurd (hinode.trans hst.symm) hne
    · exact hless
  rcases ho.seen.same i f hcur hf hst with hshrunk | ⟨hle, -⟩
  · exact hshrunk
  · exact absurd hle (Int64.not_le.mpr hless)

/-- A watcher that has installed no reader, and files none of which had one. -/
def Untouched (w : World) : Prop :=
  (∃ tw, w.watcher = some tw ∧ tw.reader = none) ∧ w.pc = .idle ∧
    (∀ i, w.files.path = some i → w.files.file i ≠ none) ∧
    ∀ i f, w.files.file i = some f → f.read = false

theorem tracks_untouched (h : Untouched w) : ∃ tw, Tracks w tw := by
  obtain ⟨⟨tw, hw, hnone⟩, hpc, hpath, hread⟩ := h
  refine ⟨tw, hw, hpath, fun i f hf hr => ?_, fun r hr => ?_, fun st hst => ?_, fun st j hst => ?_⟩
  · rw [hread i f hf] at hr
    cases hr
  · rw [hnone] at hr
    cases hr
  · rw [hpc] at hst
    cases hst
  · rw [hpc] at hst
    cases hst

/-- **When only a file that became shorter is read again.**  In every run of
the files and of a watcher: if each reader is installed on the file that was
statted, not shorter than it was then, only a file that became shorter since
its last reader is taken for truncated, and only such a file gets a second
reader. -/
theorem only_shrunk {as : List Act} (h : Untouched w) (hrun : ∀ a ∈ as, Running a)
    (hsame : Along (step cfg key) SameFile as w) (hr : run (step cfg key) as w = some w') (a : Act) :
    OnlyShrunk w' a := by
  obtain ⟨tw, ht⟩ := run_inv_along (I := fun w => ∃ tw, Tracks w tw)
    (fun _ _ _ ⟨_, ht⟩ ha hs => tracks_step ht ha.1 ha.2 hs) as w w' (tracks_untouched h)
    (along_and_of_forall hsame hrun) hr
  exact onlyShrunk_of_tracks ht a

/-- A file of nine bytes, and a watcher that has not looked at it yet. -/
def unread : World := { down inode5 ⟨9, by decide⟩ with watcher := some (TailWatcher.fresh true) }

theorem untouched_unread : Untouched unread := by
  have hfile : ∀ i f, unread.files.file i = some f → i = inode5 ∧ f.read = false := by
    intro i f hf
    have hf : Function.update (fun _ => none) inode5 _ i = some f := hf
    rw [Function.update_apply] at hf
    split at hf
    · next hi => exact ⟨hi, by cases hf; rfl⟩
    · cases hf
  exact ⟨⟨_, rfl, rfl⟩, rfl, fun i hi => by cases hi; decide, fun i f hf => (hfile i f hf).2⟩

/-- The inode 6. -/
def inode6 : Inode := ⟨6, by decide⟩

/-- A watcher reads the file, which grows and then becomes shorter. -/
def shortened : List Act :=
  [.stat, .fopen, .rotate true 0 .active,
    .read ⟨⟨[120, 10, 121], by decide⟩, 1,
      [.fread 3 3 false 1, .fread 3 0 false 1, .receive true [.taken] 1]⟩,
    .change (.append inode5 ⟨12, by decide⟩), .stat, .fopen,
    .change (.truncate inode5 ⟨4, by decide⟩), .stat, .fopen]

/-- It is read once more; then it is renamed, another file gets the path and a
new watcher, which the old one hands over to, and becomes shorter in turn. -/
def renamed : List Act :=
  [.rotate true 2 .active, .change .rename, .stat, .fopen, .change (.create inode6),
    .change (.append inode6 ⟨8, by decide⟩), .stat, .fopen,
    .rotate true 3 (.replaced ⟨⟨[99, 10, 100, 10], by decide⟩, 3,
      [.fread 4 4 false 3, .fread 4 0 false 3, .receive true [.taken, .dropped] 3]⟩),
    .stat, .fopen, .rotate true 4 .active,
    .change (.append inode6 ⟨9, by decide⟩), .stat, .fopen,
    .change (.truncate inode6 ⟨2, by decide⟩), .stat, .fopen]

/-- Both times the file that is taken for truncated became shorter. -/
theorem only_shrunk_renamed :
    ∃ w w' f f', run (step ⟨10000, 1048576, 2097152, 10⟩ ⟨[97], [97]⟩) shortened unread = some w ∧
      w.truncates (.rotate true 2 .active) = some inode5 ∧ w.files.file inode5 = some f ∧
      f.shrunk = true ∧
      run (step ⟨10000, 1048576, 2097152, 10⟩ ⟨[97], [97]⟩) (shortened ++ renamed) unread
        = some w' ∧
      w'.truncates (.rotate true 5 .active) = some inode6 ∧ w'.files.file inode6 = some f' ∧
      f'.shrunk = true := by
  have hfirst : (run (step ⟨10000, 1048576, 2097152, 10⟩ ⟨[97], [97]⟩) shortened unread).any
      (fun w => decide (w.truncates (.rotate true 2 .active) = some inode5) &&
        (w.files.file inode5).isSome) = true := by
    decide +kernel
  have hsecond : (run (step ⟨10000, 1048576, 2097152, 10⟩ ⟨[97], [97]⟩) (shortened ++ renamed)
      unread).any (fun w => decide (w.truncates (.rotate true 5 .active) = some inode6) &&
        (w.files.file inode6).isSome) = true := by
    decide +kernel
  have hsame : Along (step ⟨10000, 1048576, 2097152, 10⟩ ⟨[97], [97]⟩) SameFile
      (shortened ++ renamed) unread := by
    decide +kernel
  obtain ⟨w, hr, hw⟩ := Option.any_eq_true _ _ |>.mp hfirst
  obtain ⟨w', hr', hw'⟩ := Option.any_eq_true _ _ |>.mp hsecond
  obtain ⟨htrunc, hf⟩ := Bool.and_eq_true_iff.mp hw
  obtain ⟨htrunc', hf'⟩ := Bool.and_eq_true_iff.mp hw'
  have htrunc := of_decide_eq_true htrunc
  have htrunc' := of_decide_eq_true htrunc'
  obtain ⟨f, hf⟩ := Option.isSome_iff_exists.mp hf
  obtain ⟨f', hf'⟩ := Option.isSome_iff_exists.mp hf'
  have hshrunk := only_shrunk untouched_unread (by decide) (by decide +kernel) hr _ _ _ hf
    (Or.inl htrunc)
  have hshrunk' := only_shrunk untouched_unread (by decide) hsame hr' _ _ _ hf' (Or.inl htrunc')
  exact ⟨w, w', f, f', hr, htrunc, hf, hshrunk, hr', htrunc', hf', hshrunk'⟩

/-- Between `stat` and `fopen` another file gets the path; three bytes are
written to it, read and sent. -/
def replacedBetween : List Act :=
  [.stat, .change (.create inode6), .fopen, .rotate true 0 .active,
    .change (.append inode6 ⟨3, by decide⟩),
    .read ⟨⟨[97, 98, 10], by decide⟩, 1,
      [.fread 3 3 false 1, .fread 3 0 false 1, .receive true [.taken] 1]⟩,
    .stat, .fopen]

/-- The new file is taken for truncated, and never became shorter. -/
theorem only_shrunk_fails :
    ¬ ∀ (cfg : Config) (key : PositionEntryKey) (as : List Act) (a : Act) (w w' : World),
      Untouched w → (∀ a ∈ as, Running a) → run (step cfg key) as w = some w' →
        OnlyShrunk w' a := by
  intro hall
  have hagain : (run (step ⟨10000, 1048576, 2097152, 10⟩ ⟨[97], [97]⟩) replacedBetween unread).bind
      (fun w => (w.truncates (.rotate true 2 .active)).bind fun i =>
        (w.files.file i).map fun f => f.shrunk) = some false := by
    decide +kernel
  obtain ⟨w, hr, hw⟩ := Option.bind_eq_some_iff.mp hagain
  obtain ⟨i, hi, hw⟩ := Option.bind_eq_some_iff.mp hw
  obtain ⟨f, hf, hshrunk⟩ := Option.map_eq_some_iff.mp hw
  have h := hall _ _ replacedBetween (.rotate true 2 .active) _ w untouched_unread (by decide) hr
    i f hf (Or.inl hi)
  rw [hshrunk] at h
  cases h

end World

end Logkafka
