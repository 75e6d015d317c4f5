/-
# `Logkafka.Manager.Quiet` — work that leaves the tables as they are

Most of what the Manager calls works on one watcher or one entry and touches
neither `m_tasks` nor `m_tails`, makes no watcher and no producer, and takes no
entry away.  Nor does it dereference `NULL`.  That is `Quietly K x`, for the
locks `K` that are held; it needs no fact about the state, so it is composed
along the text of the program alone.

    Twin t t'         the two are for the same path, and have the same entry
    Held s            the map has the entries that are alive, each by its key
    Quiet s s'        the watchers are twins of what they were, no entry is gone,
                      and `Held` is kept

A watcher that is started under the lock of `refreshWatchers` is quiet too:
where it would hand over, it stops at the lock.
-/
import Logkafka.Manager.Refresh

namespace Logkafka

open Manager PositionFile Prog

variable {cfg : Config} {env : Env} {K L : List Mutex} {α β : Type}
  {P : Str} {tw : WatcherId} {t t' t'' : TailWatcher} {s s' s'' : Manager}

/-- No `NULL` is dereferenced. -/
def NotNull (e : Fault Mutex Crash) : Prop := e ≠ .crash .nullPointer

/-- They watch the same path and write the same entry. -/
structure Twin (t t' : TailWatcher) : Prop where
  pathPattern : t'.pathPattern = t.pathPattern
  path : t'.path = t.path
  positionEntry : t'.positionEntry = t.positionEntry

theorem Twin.refl : Twin t t := ⟨rfl, rfl, rfl⟩

theorem Twin.trans (h : Twin t t') (h' : Twin t' t'') : Twin t t'' :=
  ⟨h'.1.trans h.1, h'.2.trans h.2, h'.3.trans h.3⟩

theorem Kept.twin (h : Kept t t') : Twin t t' := ⟨h.pathPattern, h.path, h.positionEntry⟩

/-- The entries in the map are those that are alive, each under its own key. -/
def Manager.Held (s : Manager) : Prop :=
  ∀ pek pe, s.peMap.find? pek = some pe ↔ pe.key = pek ∧ (s.slots pe).isSome

theorem Manager.Held.entriesOk (h : s.Held) : s.EntriesOk := fun pek pe hpe => (h pek pe).mp hpe

structure Quiet (s s' : Manager) : Prop where
  tasks : s'.tasks = s.tasks
  taskConfs : s'.taskConfs = s.taskConfs
  tails : s'.tails = s.tails
  producers : s'.producers = s.producers
  nextWatcher : s'.nextWatcher = s.nextWatcher
  removed : s'.removed = s.removed
  refreshTrigger : s'.refreshTrigger = s.refreshTrigger
  watcher : ∀ v t', s'.watchers v = some t' → ∃ t, s.watchers v = some t ∧ Twin t t'
  there : ∀ v, (s.watchers v).isSome → (s'.watchers v).isSome
  peMap : ∀ pek pe, s.peMap.find? pek = some pe → s'.peMap.find? pek = some pe
  alive : ∀ pe, (s.slots pe).isSome → (s'.slots pe).isSome
  held : s.Held → s'.Held

theorem Quiet.refl : Quiet s s :=
  ⟨rfl, rfl, rfl, rfl, rfl, rfl, rfl, fun _ t h => ⟨t, h, Twin.refl⟩, fun _ h => h,
    fun _ _ h => h, fun _ h => h, fun h => h⟩

theorem Quiet.trans (h : Quiet s s') (h' : Quiet s' s'') : Quiet s s'' where
  tasks := h'.tasks.trans h.tasks
  taskConfs := h'.taskConfs.trans h.taskConfs
  tails := h'.tails.trans h.tails
  producers := h'.producers.trans h.producers
  nextWatcher := h'.nextWatcher.trans h.nextWatcher
  removed := h'.removed.trans h.removed
  refreshTrigger := h'.refreshTrigger.trans h.refreshTrigger
  watcher v t'' hv := by
    obtain ⟨t', hv', ht'⟩ := h'.watcher v t'' hv
    obtain ⟨t, hv, ht⟩ := h.watcher v t' hv'
    exact ⟨t, hv, ht.trans ht'⟩
  there v hv := h'.there v (h.there v hv)
  peMap pek pe hpe := h'.peMap pek pe (h.peMap pek pe hpe)
  alive pe hpe := h'.alive pe (h.alive pe hpe)
  held hs := h'.held (h.held hs)

theorem Quiet.wf (hq : Quiet s s') (hs : s.Wf) (hheld : s.Held) : s'.Wf where
  watchers_lt v t' hv := by
    obtain ⟨t, hv, -⟩ := hq.watcher v t' hv
    exact hq.nextWatcher ▸ hs.watchers_lt v t hv
  tails_lt P v hv := hq.nextWatcher ▸ hs.tails_lt P v (hq.tails ▸ hv)
  tails_pattern P v t' hP hv := by
    obtain ⟨t, hv, ht⟩ := hq.watcher v t' hv
    rw [ht.pathPattern]
    exact hs.tails_pattern P v t (hq.tails ▸ hP) hv
  entry_pattern v t' hv := by
    obtain ⟨t, hv, ht⟩ := hq.watcher v t' hv
    rw [ht.pathPattern, ht.positionEntry]
    exact hs.entry_pattern v t hv
  entries := (hq.held hheld).entriesOk

/-! ## One watcher, one entry -/

theorem Quiet.setWatcher (hw : s.watchers tw = some t) (ht : Twin t t') :
    Quiet s { s with watchers := Function.update s.watchers tw (some t') } where
  tasks := rfl
  taskConfs := rfl
  tails := rfl
  producers := rfl
  nextWatcher := rfl
  removed := rfl
  refreshTrigger := rfl
  watcher v t₁ hv := by
    have hv : Function.update s.watchers tw (some t') v = some t₁ := hv
    by_cases hvw : v = tw
    · subst hvw
      rw [Function.update_self] at hv
      cases hv
      exact ⟨t, hw, ht⟩
    · rw [Function.update_of_ne hvw] at hv
      exact ⟨t₁, hv, Twin.refl⟩
  there v hv := by
    show (Function.update s.watchers tw (some t') v).isSome
    by_cases hvw : v = tw
    · subst hvw
      rw [Function.update_self]
      rfl
    · rwa [Function.update_of_ne hvw]
  peMap _ _ h := h
  alive _ h := h
  held h := h

theorem Quiet.setSlot {pe : EntryId} {slot : Slot} (halive : (s.slots pe).isSome) :
    Quiet s { s with slots := Function.update s.slots pe (some slot) } where
  tasks := rfl
  taskConfs := rfl
  tails := rfl
  producers := rfl
  nextWatcher := rfl
  removed := rfl
  refreshTrigger := rfl
  watcher _ t h := ⟨t, h, Twin.refl⟩
  there _ h := h
  peMap _ _ h := h
  alive _ h := isSome_update_slots h
  held h pek pe' := by
    show s.peMap.find? pek = some pe' ↔
      pe'.key = pek ∧ (Function.update s.slots pe (some slot) pe').isSome
    rw [h pek pe']
    by_cases hpe : pe' = pe
    · subst hpe
      rw [Function.update_self]
      exact and_congr_right fun _ => iff_of_true halive rfl
    · rw [Function.update_of_ne hpe]

theorem Quiet.newEntry {pek : PositionEntryKey} (hnone : s.peMap.find? pek = none) :
    Quiet s { s with
      nextSerial := s.nextSerial + 1
      peMap := s.peMap.insert pek ⟨pek, s.nextSerial⟩
      slots := Function.update s.slots ⟨pek, s.nextSerial⟩ (some ⟨0, 0⟩) } where
  tasks := rfl
  taskConfs := rfl
  tails := rfl
  producers := rfl
  nextWatcher := rfl
  removed := rfl
  refreshTrigger := rfl
  watcher _ t h := ⟨t, h, Twin.refl⟩
  there _ h := h
  peMap pek' pe h := by
    show (s.peMap.insert pek _).find? pek' = some pe
    rw [OrdMap.find?_insert_ne]
    · exact h
    · rintro rfl
      rw [hnone] at h
      cases h
  alive _ h := isSome_update_slots h
  held h pek' pe := by
    show (s.peMap.insert pek _).find? pek' = some pe ↔
      pe.key = pek' ∧ (Function.update s.slots ⟨pek, s.nextSerial⟩ (some ⟨0, 0⟩) pe).isSome
    rw [OrdMap.find?_insert_eq_some]
    by_cases hpe : pe = ⟨pek, s.nextSerial⟩
    · subst hpe
      rw [Function.update_self]
      constructor
      · rintro (⟨rfl, -⟩ | ⟨-, h'⟩)
        · exact ⟨rfl, rfl⟩
        · exact ⟨((h _ _).mp h').1, rfl⟩
      · rintro ⟨rfl, -⟩
        exact Or.inl ⟨rfl, rfl⟩
    · rw [Function.update_of_ne hpe]
      constructor
      · rintro (⟨-, h'⟩ | ⟨-, h'⟩)
        · exact absurd h'.symm hpe
        · exact (h pek' pe).mp h'
      · intro h'
        have hfound := (h pek' pe).mpr h'
        refine Or.inr ⟨?_, hfound⟩
        rintro rfl
        rw [hnone] at hfound
        cases hfound

/-! ## The calls

The functions that only work on one watcher, from the bottom up.  For `stop` and
`close` it is also said which entry they write.
-/

/-- Whatever it finds, with `K` held, `x` is quiet and dereferences no `NULL`. -/
def Quietly (K : List Mutex) (x : M α) : Prop := Moves K Quiet NotNull x

theorem Quietly.bind {x : M α} {f : α → M β} (hx : Quietly K x) (hf : ∀ a, Quietly K (f a)) :
    Quietly K (x >>= f) :=
  Moves.bind Quiet.trans hx hf

/-- A quiet call in the middle of a program. -/
theorem Quietly.wp {x : M α} {E : Fault Mutex Crash → Prop} (hx : Quietly K x) (hK : K ⊆ L)
    (hE : ∀ e, NotNull e → E e) : wp x (fun _ => Quiet s) E L s :=
  (hx L s hK).mono (fun _ _ h => h) hE

theorem Quietly.pure (a : α) : Quietly K (pure a) := Moves.pure (fun _ => Quiet.refl) a

theorem Quietly.scopedLock {m : Mutex} {x : M α} (hx : Quietly K x) :
    Quietly K (Prog.scopedLock m x) :=
  Moves.scopedLock (by simp [NotNull]) hx

theorem quietly_getWatcher (tw : WatcherId) : Quietly K (getWatcher tw) := fun _ _ _ =>
  wp_getWatcher_of (by simp [NotNull]) fun _ _ => Quiet.refl

theorem quietly_modifyWatcher {f : TailWatcher → TailWatcher} (hf : ∀ t, Twin t (f t)) :
    Quietly K (modifyWatcher tw f) := by
  intro L s _
  unfold modifyWatcher
  rw [wp_bind]
  refine wp_getWatcher_of (by simp [NotNull]) fun t hw => ?_
  exact Quiet.setWatcher hw (hf t)

theorem quietly_notifyIoHandler (io : Io) (tw : WatcherId) :
    Quietly K (TailWatcher.notifyIoHandler cfg io tw) := by
  intro L s _
  refine wp_notifyIoHandler_of (fun _ => by simp [NotNull]) (by simp [NotNull])
    (fun _ => by simp [NotNull]) (fun _ _ _ => by simp [NotNull]) (fun _ _ => Quiet.refl) ?_
  intro t t' slot slot' hw heq
  have hset := Quiet.setWatcher hw (Kept.of_notifyIo heq).1.twin
  refine ⟨hset, fun hslot => hset.trans (Quiet.setSlot ?_)⟩
  show (s.slots t.positionEntry).isSome
  rw [hslot]
  rfl

theorem quietly_closeIoHandler (tw : WatcherId) : Quietly K (TailWatcher.closeIoHandler tw) := by
  intro L s _
  unfold TailWatcher.closeIoHandler
  rw [wp_bind]
  refine wp_getWatcher_of (by simp [NotNull]) fun t hw => ?_
  rw [wp_ite]
  split
  · refine wp_scopedLock_any (by simp [NotNull]) ?_
    exact Quiet.setWatcher hw ⟨rfl, rfl, rfl⟩
  · exact Quiet.refl

theorem quietly_stop (tw : WatcherId) (closeIo : Bool) :
    Quietly K (TailWatcher.stop cfg env tw closeIo) := by
  unfold TailWatcher.stop
  refine Quietly.bind (quietly_modifyWatcher fun t => ?_) fun _ => ?_
  · exact ⟨rfl, rfl, rfl⟩
  · refine Quietly.scopedLock (Moves.ite ?_ (Quietly.pure _))
    exact (quietly_notifyIoHandler _ tw).bind fun _ => quietly_closeIoHandler tw

theorem quietly_active (tw : WatcherId) : Quietly K (TailWatcher.active cfg env tw) :=
  (quietly_getWatcher tw).bind fun _ => Quietly.scopedLock (Quietly.pure _)

theorem wp_delete_any {E : Fault Mutex Crash → Prop} {Q : Unit → Manager → Prop}
    (hE : ∀ e, NotNull e → E e)
    (h : Q () { s with watchers := Function.update s.watchers tw none }) :
    wp (TailWatcher.delete tw) Q E L s := by
  unfold TailWatcher.delete
  rw [wp_bind]
  refine wp_getWatcher_of (hE _ (by simp [NotNull])) fun _ _ => ?_
  rw [wp_bind]
  refine wp_scopedLock_any (hE _ (by simp [NotNull])) ?_
  rw [wp_pure, wp_bind]
  refine wp_scopedLock_any (hE _ (by simp [NotNull])) ?_
  exact h

/-- What `stop` does to the watcher: of the entries it may write the watcher's own. -/
structure Halted (tw : WatcherId) (t : TailWatcher) (s s' : Manager) : Prop where
  peMap : s'.peMap = s.peMap
  slots : ∀ pe, pe ≠ t.positionEntry → s'.slots pe = s.slots pe
  alive : ∀ pe, (s'.slots pe).isSome → (s.slots pe).isSome
  watcher : ∃ t', s'.watchers tw = some t' ∧ Twin t t' ∧ t'.unwatched = t.unwatched

theorem Halted.setSlot {slot : Slot} (h : Halted tw t s s')
    (halive : (s'.slots t.positionEntry).isSome) :
    Halted tw t s { s' with slots := Function.update s'.slots t.positionEntry (some slot) } where
  peMap := h.peMap
  slots pe hpe := (Function.update_of_ne hpe _ _).trans (h.slots pe hpe)
  alive pe hpe := by
    by_cases heq : pe = t.positionEntry
    · rw [heq]
      exact h.alive _ halive
    · have hpe : (Function.update s'.slots t.positionEntry (some slot) pe).isSome := hpe
      rw [Function.update_of_ne heq] at hpe
      exact h.alive pe hpe
  watcher := h.watcher

theorem Halted.setWatcher (h : Halted tw t s s') {t'' : TailWatcher} (ht : Twin t t'')
    (hun : t''.unwatched = t.unwatched) :
    Halted tw t s { s' with watchers := Function.update s'.watchers tw (some t'') } :=
  ⟨h.peMap, h.slots, h.alive, t'', Function.update_self .., ht, hun⟩

theorem halted_closeIoHandler {E : Fault Mutex Crash → Prop} (hE : ∀ e, NotNull e → E e)
    (h : Halted tw t s s') :
    wp (TailWatcher.closeIoHandler tw) (fun _ => Halted tw t s) E L s' := by
  obtain ⟨t', hw', ht, hun⟩ := h.watcher
  unfold TailWatcher.closeIoHandler
  rw [wp_bind, wp_getWatcher hw', wp_ite]
  split
  · refine wp_scopedLock_any (hE _ (by simp [NotNull])) ?_
    exact h.setWatcher (ht.trans ⟨rfl, rfl, rfl⟩) hun
  · exact h

theorem halted_notifyIoHandler {E : Fault Mutex Crash → Prop} {io : Io}
    (hE : ∀ e, NotNull e → E e) (h : Halted tw t s s') :
    wp (TailWatcher.notifyIoHandler cfg io tw) (fun _ => Halted tw t s) E L s' := by
  obtain ⟨t', hw', ht, hun⟩ := h.watcher
  refine wp_notifyIoHandler_of (fun _ => hE _ (by simp [NotNull])) (hE _ (by simp [NotNull]))
    (fun _ => hE _ (by simp [NotNull])) (fun _ _ _ => hE _ (by simp [NotNull])) (fun _ _ => h) ?_
  intro t₁ t'' slot slot' hw₁ heq
  cases hw'.symm.trans hw₁
  obtain ⟨hk, -, hun'⟩ := Kept.of_notifyIo heq
  have hset := h.setWatcher (ht.trans hk.twin) (hun'.trans hun)
  refine ⟨hset, fun hslot => ?_⟩
  rw [ht.positionEntry] at hslot ⊢
  refine hset.setSlot ?_
  show (s'.slots t.positionEntry).isSome
  rw [hslot]
  rfl

theorem halted_stop {closeIo : Bool} {E : Fault Mutex Crash → Prop} (hE : ∀ e, NotNull e → E e)
    (hw : s.watchers tw = some t) :
    wp (TailWatcher.stop cfg env tw closeIo) (fun _ => Halted tw t s) E L s := by
  have hfirst : Halted tw t s { s with
      watchers := Function.update s.watchers tw (some { t with running := false }) } :=
    ⟨rfl, fun _ _ => rfl, fun _ h => h, _, Function.update_self .., ⟨rfl, rfl, rfl⟩, rfl⟩
  unfold TailWatcher.stop
  rw [wp_bind, wp_modifyWatcher hw]
  refine wp_scopedLock_any (hE _ (by simp [NotNull])) ?_
  rw [wp_ite]
  split
  · rw [wp_bind]
    exact (halted_notifyIoHandler hE hfirst).conseq fun _ _ h => halted_closeIoHandler hE h
  · exact hfirst

/-- The entry of `pek` is marked as unwatched. -/
def Marked (pek : PositionEntryKey) (s : Manager) : Prop :=
  ∀ pe slot, s.peMap.find? pek = some pe → s.slots pe = some slot →
    slot.readPos = unwatchedPosition

/-- Quiet, and the only entry that may be new is that of `pek`. -/
structure Opens (pek : PositionEntryKey) (s s' : Manager) : Prop where
  quiet : Quiet s s'
  opens : ∀ pe, (s'.slots pe).isSome → (s.slots pe).isSome ∨ pe.key = pek

theorem Opens.refl {pek : PositionEntryKey} : Opens pek s s := ⟨Quiet.refl, fun _ => Or.inl⟩

theorem Opens.setSlot {pek : PositionEntryKey} {pe : EntryId} {slot : Slot} (h : Opens pek s s')
    (halive : (s'.slots pe).isSome) :
    Opens pek s { s' with slots := Function.update s'.slots pe (some slot) } where
  quiet := h.quiet.trans (Quiet.setSlot halive)
  opens pe' hpe' := by
    have hpe' : (Function.update s'.slots pe (some slot) pe').isSome := hpe'
    refine h.opens pe' ?_
    by_cases heq : pe' = pe
    · exact heq ▸ halive
    · rwa [Function.update_of_ne heq] at hpe'

/-- `operator[]`, by what the map holds then. -/
theorem wp_getEntry_opens {pek : PositionEntryKey} {E : Fault Mutex Crash → Prop}
    {Q : EntryId → Manager → Prop}
    (h : ∀ pe s', Opens pek s s' → s'.peMap.find? pek = some pe → Q pe s') :
    wp (getEntry pek) Q E L s := by
  simp only [getEntry, wp_bind, wp_get]
  split
  · next pe hpe => exact h pe s Opens.refl hpe
  · next hnone =>
      refine h _ _ ⟨Quiet.newEntry hnone, fun pe' halive => ?_⟩ (OrdMap.find?_insert_self _ _ _)
      by_cases hpe' : pe' = ⟨pek, s.nextSerial⟩
      · exact Or.inr (hpe' ▸ rfl)
      · have halive : (Function.update s.slots ⟨pek, s.nextSerial⟩ (some ⟨0, 0⟩) pe').isSome :=
          halive
        rw [Function.update_of_ne hpe'] at halive
        exact Or.inl halive

/-- What closing does before the entry of `pek` is removed. -/
structure Closing (pek : PositionEntryKey) (unwatched : Bool) (s s' : Manager) : Prop
    extends Opens pek s s' where
  marked : unwatched = true → Marked pek s'

theorem readPos_unwatched (slot : Slot) :
    (slot.updatePos unwatchedPosition).readPos = unwatchedPosition := by
  show (if unwatchedPosition.toUInt64.toNat < 2 ^ 63 - 1 then
    unwatchedPosition.toUInt64.toInt64 else -1) = unwatchedPosition
  decide

/-- Closing is quiet up to the entry that is removed, which is that of the
watcher's path. -/
theorem wp_closeWatcher_quiet {closeIo removePosEntry : Bool} {E : Fault Mutex Crash → Prop}
    {Q : Unit → Manager → Prop} (hE : ∀ e, NotNull e → E e)
    (h : ∀ s₁ t, Closing ⟨t.pathPattern, t.path⟩ t.unwatched s s₁ → s.watchers tw = some t →
      wp (if removePosEntry then removeEntry ⟨t.pathPattern, t.path⟩ else pure ()) Q E L s₁) :
    wp (closeWatcher cfg env tw closeIo removePosEntry) Q E L s := by
  unfold closeWatcher
  rw [wp_bind]
  cases hw : s.watchers tw with
  | none =>
      unfold TailWatcher.stop modifyWatcher
      simp only [wp_bind]
      exact wp_getWatcher_of (hE _ (by simp [NotNull])) fun t hw' => absurd (hw.symm.trans hw')
        (by simp)
  | some t =>
  refine (((quietly_stop tw closeIo).wp (List.Subset.refl L) hE).and
    (halted_stop hE hw)).conseq ?_
  rintro _ s₁ ⟨hq₁, hh₁⟩
  obtain ⟨t₁, hw₁, ht, hun⟩ := hh₁.watcher
  rw [wp_bind, wp_getWatcher hw₁, ht.pathPattern, ht.path, hun, wp_ite]
  split
  · rw [wp_bind]
    refine wp_getEntry_opens fun pe s₂ ho₂ hpe => ?_
    have ho : Opens ⟨t.pathPattern, t.path⟩ s s₂ :=
      ⟨hq₁.trans ho₂.quiet, fun pe' hpe' => (ho₂.opens pe' hpe').imp_left (hh₁.alive pe')⟩
    unfold modifySlot
    simp only [wp_bind]
    refine wp_getSlot (fun _ => hE _ (by simp [NotNull])) fun slot _ => ?_
    refine wp_setSlot (fun _ => hE _ (by simp [NotNull])) fun halive => ?_
    refine h _ t ⟨ho.setSlot halive, fun _ pe' slot' hpe' hslot' => ?_⟩ hw
    cases hpe.symm.trans hpe'
    cases (Function.update_self ..).symm.trans hslot'
    exact readPos_unwatched slot
  · next hun' =>
      refine h s₁ t ⟨⟨hq₁, fun pe hpe => ?_⟩, fun hyes => absurd hyes hun'⟩ hw
      exact Or.inl (hh₁.alive pe hpe)

theorem quietly_closeWatcher (tw : WatcherId) (closeIo : Bool) :
    Quietly K (closeWatcher cfg env tw closeIo false) := by
  intro L s _
  refine wp_closeWatcher_quiet (fun _ h => h) fun s₁ t hc _ => ?_
  rw [if_neg (by simp)]
  exact hc.quiet

/-! ## Rotation and starting, under the lock of the refresh

Under that lock a hand-over does not happen: it would take the lock again, which
stops the program.
-/

theorem quietly_rotateIo (tw : WatcherId) (file : File) :
    Quietly K (TailWatcher.rotateIo env tw file) := by
  intro L s _
  refine wp_rotateIo_of (fun _ => by simp [NotNull]) (fun _ => by simp [NotNull])
    (fun _ _ _ => by simp [NotNull]) ?_ (fun _ _ _ _ _ => Quiet.refl)
  intro t t' slot slot' ok hw hslot heq
  refine (Quiet.setWatcher hw (Kept.of_onRotate heq).1.twin).trans (Quiet.setSlot ?_)
  show (s.slots t.positionEntry).isSome
  rw [hslot]
  rfl

theorem quietly_rotate (hK : .tailWatchers ∈ K) (tw : WatcherId) (file : File) :
    Quietly K (TailWatcher.rotate cfg env tw file) := by
  unfold TailWatcher.rotate
  refine (Quietly.scopedLock (quietly_rotateIo tw file)).bind fun r => ?_
  cases r with
  | some ok => exact Quietly.pure ok
  | none =>
      refine (quietly_getWatcher tw).bind fun t => ?_
      exact Moves.scopedLock_held hK (by simp [NotNull])

theorem quietly_notifyRotateHandler (hK : .tailWatchers ∈ K) (tw : WatcherId) :
    Quietly K (TailWatcher.notifyRotateHandler cfg env tw) := by
  intro L s hL
  unfold TailWatcher.notifyRotateHandler
  rw [wp_bind]
  refine wp_getWatcher_of (by simp [NotNull]) fun t hw => ?_
  simp only [wp_ite]
  split
  · split
    · exact Quiet.refl
    · next opened _ =>
      have hrest : Quietly K (do
          if ← TailWatcher.rotate cfg env tw (fopen opened) then
            modifyWatcher tw fun t' =>
              { t' with rotateHandler := RotateHandler.record (env.stat t.path) } : M Unit) := by
        refine (quietly_rotate hK tw _).bind fun ok => ?_
        refine Moves.ite (quietly_modifyWatcher fun t => ?_) (Quietly.pure _)
        exact ⟨rfl, rfl, rfl⟩
      exact hrest L s hL
  · exact Quiet.setWatcher hw ⟨rfl, rfl, rfl⟩

theorem quietly_start (hK : .tailWatchers ∈ K) (tw : WatcherId) :
    Quietly K (TailWatcher.start cfg env tw) := by
  unfold TailWatcher.start TailWatcher.onNotify
  refine Quietly.bind (quietly_modifyWatcher fun t => ?_) fun _ => ?_
  · exact ⟨rfl, rfl, rfl⟩
  · refine (Quietly.scopedLock (quietly_notifyRotateHandler hK tw)).bind fun _ => ?_
    exact Quietly.scopedLock (quietly_notifyIoHandler _ tw)

theorem quietly_followEnabled (hK : .tailWatchers ∈ K) (task : Task) (tw : WatcherId) :
    Quietly K (followEnabled cfg env task tw) := by
  have hset : ∀ enabled, Quietly K (modifyWatcher tw (·.setEnabled enabled)) := fun enabled =>
    quietly_modifyWatcher fun t => ⟨rfl, rfl, rfl⟩
  have hstop : Quietly K (do
      let t ← getWatcher tw
      if ¬ task.getEnabled ∧ t.getEnabled then
        TailWatcher.stop cfg env tw false
        modifyWatcher tw (·.setEnabled false) : M Unit) := by
    refine (quietly_getWatcher tw).bind fun t => ?_
    refine Moves.ite ?_ (Quietly.pure _)
    exact (quietly_stop tw false).bind fun _ => hset false
  unfold followEnabled
  refine (quietly_getWatcher tw).bind fun t => ?_
  refine Moves.ite ?_ hstop
  refine (quietly_start hK tw).bind fun _ => ?_
  exact (hset true).bind fun _ => hstop

end Logkafka
