/-
# `Logkafka.Manager.Events` — every event, and runs of the main loop

The rules for the events other than a refresh.  A trigger's `onNotify` stays
with its own watcher (`Local`), unless the watcher hands over to
`updateWatcherRotate`; that one works on the watcher it finds under the path,
and registers a new one under the pattern.

`wf_run` carries `Wf` along every run, whatever goes wrong in it.
-/
import Logkafka.Manager.Refresh

namespace Logkafka

open Manager PositionFile Prog

variable {cfg : Config} {env : Env} {E : Fault Mutex Crash → Prop}
  {P : Str} {tw : WatcherId} {t t' : TailWatcher} {s s' s'' : Manager}

/-! ## Rotation

`updateWatcherRotate` works on two patterns at once: it closes the watcher it finds
under the path and registers one under the pattern of the caller.
-/

/-- The new watcher registered, and the old one queued for deletion. -/
def Manager.handedOver (s : Manager) (P : Str) (ps : List Str) (old : WatcherId)
    (new : TailWatcher) : Manager :=
  { s.register P ps new with tailsDeleted := s.tailsDeleted ++ [old] }

theorem Manager.handedOver_of_lt {ps : List Str} {old v : WatcherId} (hv : v < s.nextWatcher) :
    (s.handedOver P ps old t).watchers v = s.watchers v :=
  Function.update_of_ne (Nat.ne_of_lt hv) _ _

/-- The watcher `tw` was found under `path` and is not active; it was closed,
and the entry of `P` was set back. -/
structure Relieved (cfg : Config) (env : Env) (P path : Str) (s : Manager) (tw : WatcherId)
    (t : TailWatcher) (s' : Manager) (t' : TailWatcher) : Prop where
  tail : s.tails.find? path = some (some tw)
  watcher : s.watchers tw = some t
  inactive : t.isActive cfg env.now = false
  changes : ∃ s₁, Local tw t.pathPattern s s₁ ∧ Local tw P s₁ s'
  wf : s'.Wf
  closed : s'.watchers tw = some t'
  kept : Kept t t'
  stopped : t'.running = false

/-- The watcher that was found is closed, and the entry of `P` set back. -/
theorem wp_relieve {L : List Mutex} {pe : EntryId} {path : Str} {Q : Unit → Manager → Prop}
    (hs : s.Wf) (hP : pe.key.pathPattern = P) (htail : s.tails.find? path = some (some tw))
    (hw : s.watchers tw = some t) (hinactive : t.isActive cfg env.now = false)
    (hio : .ioHandler tw ∉ L) (hfile : .file tw ∉ L) (hu : E (.crash .unanswered))
    (hd : s.slots t.positionEntry = none → E (.crash .dangling))
    (hpe : s.slots pe = none → E (.crash .dangling))
    (h : ∀ s' t', Relieved cfg env P path s tw t s' t' → Q () s') :
    wp (closeWatcher cfg env tw true false)
      (fun _ s' => wp (modifySlot pe (·.updatePos 0)) Q E L s') E L s := by
  refine wp_closeWatcher hw hs.entries (hs.entry_pattern tw t hw) hio hfile hu hd ?_
  intro s₁ t₁ hl₁ hw₁ hk₁ hrun₁ _
  rw [if_neg (by simp), wp_pure]
  have hs₁ : s₁.Wf := hs.local hl₁ hw hw₁ hk₁.pathPattern hk₁.positionEntry
  refine wp_modifySlot (fun hnone => hpe ?_) fun slot => ?_
  · cases hslot : s.slots pe with
    | none => rfl
    | some slot =>
        have halive := hl₁.alive pe (by rw [hslot]; rfl)
        rw [hnone] at halive
        cases halive
  · have hl₂ : Local tw P s₁ { s₁ with slots := Function.update s₁.slots pe (some slot) } :=
      Local.setSlot hP
    exact h _ t₁ ⟨htail, hw, hinactive, ⟨s₁, hl₁, hl₂⟩, hs₁.of_watchers hl₂ rfl, hw₁, hk₁, hrun₁⟩

theorem wp_updateWatcherRotate {caller : WatcherId} {pe : EntryId} {path : Str}
    {Q : Bool → Manager → Prop} (hs : s.Wf) (hP : pe.key.pathPattern = P)
    (hcaller : caller < s.nextWatcher) (hu : E (.crash .unanswered))
    (hh : E (.crash .halfInitialised))
    (hnull : (∀ tw, s.tails.find? path ≠ some (some tw)) ∨ s.tasks.find? P = none →
      E (.crash .nullPointer))
    (hd : s.slots pe = none ∨ (∃ tw, s.tails.find? path = some (some tw) ∧
        ∀ t, s.watchers tw = some t → s.slots t.positionEntry = none) → E (.crash .dangling))
    (hactive : ∀ tw t, s.tails.find? path = some (some tw) → s.watchers tw = some t →
      t.isActive cfg env.now = true → Q false s)
    (hrest : ∀ tw t s' t', Relieved cfg env P path s tw t s' t' →
      (¬ env.SetsUp s'.producers t.conf → Q false s') ∧
        ∀ ps, s'.producers ⊆ ps →
          Q true (s'.handedOver P ps tw (TailWatcher.init P path pe t.conf))) :
    wp (updateWatcherRotate cfg env P path pe) Q E [.rotateHandler caller] s := by
  unfold updateWatcherRotate
  rw [wp_scopedLock (by simp)]
  simp only [wp_bind, wp_get]
  split
  · next tw htail =>
      simp only [wp_bind]
      refine wp_active (by simp) (fun hnone => hd (Or.inr ⟨tw, htail, fun t ht => ?_⟩))
        fun t hw => ?_
      · rw [hnone] at ht
        cases ht
      rw [wp_ite]
      split
      · next hact => exact hactive tw t htail hw hact
      · next hact =>
          have hact : t.isActive cfg env.now = false := by simpa using hact
          simp only [wp_bind]
          refine wp_relieve hs hP htail hw hact (by simp) (by simp) hu
            (fun hnone => hd (Or.inr ⟨tw, htail, fun t' ht' => ?_⟩)) (fun hnone => hd (Or.inl hnone))
            fun s' t' hrel => ?_
          · cases hw.symm.trans ht'
            exact hnone
          obtain ⟨s₁, hl₁, hl₂⟩ := hrel.changes
          obtain ⟨hfail, hdone⟩ := hrest tw t s' t' hrel
          rw [wp_getWatcher hrel.closed]
          simp only [wp_get]
          split
          · next task _ =>
              have hne : s'.nextWatcher ≠ caller := Nat.ne_of_gt
                ((hl₂.nextWatcher.trans hl₁.nextWatcher).symm ▸ hcaller)
              rw [wp_bind, hrel.kept.conf]
              refine wp_setupWatcher (by simp) (by simp [hne]) hh (fun ps hps => ?_) hfail
              simp only [Option.isSome_some, if_true, wp_bind, wp_modify]
              rw [wp_scopedLock (by simp)]
              exact hdone ps hps
          · next hnone =>
              refine hnull (Or.inr ?_)
              rw [← hl₁.tasks, ← hl₂.tasks]
              exact hnone
  · next hnone => exact hnull (Or.inl fun tw htail => hnone tw htail)

/-- One trigger of a watcher. -/
theorem wp_onNotify {Q : Unit → Manager → Prop} (hs : s.Wf) (hE : ∀ c, E (.crash c))
    (hw : s.watchers tw = some t)
    (hstay : ∀ s' t', Local tw t.pathPattern s s' → s'.watchers tw = some t' → Kept t t' →
      t'.running = t.running → Q () s')
    (hup : HandsOver env s t →
      wp (updateWatcherRotate cfg env t.pathPattern t.path t.positionEntry) (fun _ s₁ =>
        ∃ t₁, s₁.watchers tw = some t₁ ∧ Kept t t₁ ∧
          ∀ s' t', Local tw t.pathPattern s₁ s' → s'.watchers tw = some t' → Kept t₁ t' →
            t'.running = t₁.running → Q () s') E [.rotateHandler tw] s) :
    wp (TailWatcher.onNotify cfg env tw) Q E [] s := by
  have hP := hs.entry_pattern tw t hw
  unfold TailWatcher.onNotify
  rw [wp_bind, wp_scopedLock (by simp)]
  refine wp_notifyRotateHandler hw hP (by simp) (by simp) (fun _ => hE _) ?_ fun hover => ?_
  · intro s₁ t₁ hl₁ hw₁ hk₁ hrun₁
    rw [wp_scopedLock (by simp)]
    refine wp_notifyIoHandler hw₁ (hk₁.positionEntry ▸ hP) (by simp) (hE _) (fun _ => hE _) ?_
    intro s₂ t₂ hl₂ hw₂ hk₂ hrun₂ _
    exact hstay s₂ t₂ (hl₁.trans hl₂) hw₂ (hk₁.trans hk₂) (hrun₂.trans hrun₁)
  · rw [wp_bind]
    refine (hup hover).conseq ?_
    rintro ok s₁ ⟨t₁, hw₁, hk₁, hQ⟩
    rw [wp_ite]
    have hio : ∀ s₂ t₂, Local tw t.pathPattern s₁ s₂ → s₂.watchers tw = some t₂ → Kept t₁ t₂ →
        t₂.running = t₁.running →
        wp (scopedLock (.ioHandler tw) (TailWatcher.notifyIoHandler cfg (env.notifyIo tw) tw)) Q E
          [] s₂ := by
      intro s₂ t₂ hl₂ hw₂ hk₂ hrun₂
      rw [wp_scopedLock (by simp)]
      have hP₂ : t₂.positionEntry.key.pathPattern = t.pathPattern :=
        (hk₁.trans hk₂).positionEntry ▸ hP
      refine wp_notifyIoHandler hw₂ hP₂ (by simp) (hE _) (fun _ => hE _) ?_
      intro s₃ t₃ hl₃ hw₃ hk₃ hrun₃ _
      exact hQ s₃ t₃ (hl₂.trans hl₃) hw₃ (hk₂.trans hk₃) (hrun₃.trans hrun₂)
    split
    · rw [wp_modifyWatcher hw₁]
      exact hio _ _ Local.setWatcher (Function.update_self ..) ⟨rfl, rfl, rfl, rfl⟩ rfl
    · exact hio s₁ t₁ Local.refl hw₁ Kept.refl rfl

/-! ## Upload and stop -/

theorem wp_serialize {L : List Mutex} {Q : Unit → Manager → Prop} (hE : ∀ c, E (.crash c))
    (hio : .ioHandler tw ∉ L) (hrotate : .rotateHandler tw ∉ L) (hfile : .file tw ∉ L)
    (h : Q () s) : wp (serialize tw) Q E L s := by
  have hfile' : Mutex.file tw ∉ Mutex.ioHandler tw :: L := by simpa using hfile
  unfold serialize
  rw [wp_bind]
  refine wp_getWatcher_of (hE _) fun t _ => ?_
  rw [wp_bind, wp_scopedLock hio, wp_ite]
  simp only [wp_bind, wp_scopedLock hfile', wp_scopedLock hrotate, wp_pure]
  split
  · exact h
  · exact h

theorem wp_serializeAll {Q : Unit → Manager → Prop} (hE : ∀ c, E (.crash c)) (h : Q () s) :
    ∀ es, wp (serializeAll es) Q E [.tailWatchers] s
  | [] => h
  | (pathPattern, some tw) :: es => by
      simp only [serializeAll, wp_bind, wp_ite]
      split
      · exact wp_serialize hE (by simp) (by simp) (by simp) (wp_serializeAll hE h es)
      · exact wp_serializeAll hE h es
  | (_, none) :: es => by
      unfold serializeAll
      exact wp_serializeAll hE h es

theorem wp_uploadCollectingState {Q : Unit → Manager → Prop} (hE : ∀ c, E (.crash c))
    (h : Q () s) : wp uploadCollectingState Q E [] s := by
  unfold uploadCollectingState
  rw [wp_bind, wp_scopedLock (by simp), wp_bind, wp_get]
  refine wp_serializeAll hE ?_ _
  rw [wp_scopedLock (by simp)]
  exact h

theorem Manager.Wf.stopTrigger (hs : s.Wf) : ({ s with refreshTrigger := false } : Manager).Wf :=
  ⟨hs.watchers_lt, hs.tails_lt, hs.tails_pattern, hs.entry_pattern, hs.entries⟩

theorem wp_stop_manager {Q : Unit → Manager → Prop} (hs : s.Wf) (hE : ∀ c, E (.crash c))
    (h : ∀ s', Stopped (· ∈ s.tails.keys) { s with refreshTrigger := false } s' → Q () s') :
    wp (Manager.stop cfg env) Q E [] s := by
  unfold Manager.stop
  rw [wp_bind, wp_modify, wp_scopedLock (by simp), wp_bind, wp_get, wp_bind]
  refine (wp_stopWatchers hE s.tails.keys.elems _ hs.stopTrigger).conseq fun _ s' hstop => ?_
  rw [wp_scopedLock (by simp)]
  exact h s' hstop

/-! ## Runs -/

theorem step_eq_some {e : Event} :
    step cfg e s = some s' ↔ Enabled s e ∧ exec cfg e [] s = .ok ((), s') := by
  unfold step
  split
  · next henabled =>
      cases exec cfg e [] s with
      | ok r =>
          obtain ⟨⟨⟩, s₁⟩ := r
          simp [henabled]
      | error f => simp
  · next hdisabled => simp [hdisabled]

/-- What a step establishes, from the rule of its program. -/
theorem of_step {e : Event} {R : Manager → Prop} (h : step cfg e s = some s')
    (hwp : Enabled s e → wp (exec cfg e) (fun _ => R) (fun _ => True) [] s) : R s' := by
  obtain ⟨henabled, hexec⟩ := step_eq_some.mp h
  exact (hwp henabled).ok hexec

theorem Manager.Wf.setTaskConfs (hs : s.Wf) {confs : OrdMap Str TaskConf} :
    ({ s with taskConfs := confs } : Manager).Wf :=
  ⟨hs.watchers_lt, hs.tails_lt, hs.tails_pattern, hs.entry_pattern, hs.entries⟩

theorem Manager.Wf.handedOver (hs : s.Wf) {ps : List Str} {old : WatcherId}
    (ht : t.pathPattern = P) (hpe : t.positionEntry.key.pathPattern = P) :
    (s.handedOver P ps old t).Wf := by
  have h : (s.register P ps t).Wf := hs.register ht hpe
  exact ⟨h.watchers_lt, h.tails_lt, h.tails_pattern, h.entry_pattern, h.entries⟩

/-- Who is registered was so before, or is new. -/
structure Fresh (s s' : Manager) : Prop where
  nextWatcher : s.nextWatcher ≤ s'.nextWatcher
  tails : ∀ P v, s'.tails.find? P = some (some v) →
    s.tails.find? P = some (some v) ∨ s.nextWatcher ≤ v

theorem Fresh.refl : Fresh s s := ⟨Nat.le_refl _, fun _ _ => Or.inl⟩

theorem Fresh.trans (h : Fresh s s') (h' : Fresh s' s'') : Fresh s s'' where
  nextWatcher := Nat.le_trans h.nextWatcher h'.nextWatcher
  tails P v hv := by
    rcases h'.tails P v hv with hv | hv
    · exact h.tails P v hv
    · exact Or.inr (Nat.le_trans h.nextWatcher hv)

theorem Frame.isFresh {T : Str → Prop} (h : Frame T s s') : Fresh s s' := ⟨h.nextWatcher, h.fresh⟩

theorem Local.fresh (h : Local tw P s s') : Fresh s s' :=
  ⟨Nat.le_of_eq h.nextWatcher.symm, fun _ _ hv => Or.inl (h.tails ▸ hv)⟩

theorem TasksRefreshed.fresh {confs : OrdMap Str TaskConf} (h : TasksRefreshed confs s s') :
    Fresh s s' :=
  ⟨Nat.le_of_eq h.nextWatcher.symm, fun _ _ hv => Or.inl (h.tails ▸ hv)⟩

theorem Fresh.handedOver {ps : List Str} {old : WatcherId} :
    Fresh s (s.handedOver P ps old t) where
  nextWatcher := Nat.le_succ _
  tails Q v hv := by
    rcases OrdMap.find?_insert_eq_some.mp hv with ⟨-, h⟩ | ⟨-, h⟩
    · cases h
      exact Or.inr (Nat.le_refl _)
    · exact Or.inl h

/-- A trigger keeps what any local work on its watcher keeps, if handing over
keeps it; the caller of `updateWatcherRotate` is there when it returns. -/
theorem wp_onNotify_inv {I : Manager → Prop} (hs : s.Wf) (hE : ∀ c, E (.crash c))
    (hw : s.watchers tw = some t) (hI : I s)
    (hlocal : ∀ s₁ t₁ s' t', I s₁ → s₁.watchers tw = some t₁ → Local tw t.pathPattern s₁ s' →
      s'.watchers tw = some t' → Kept t t₁ → Kept t₁ t' → t'.running = t₁.running → I s')
    (hover : HandsOver env s t → ∀ tw' t' s₂ t₂,
      Relieved cfg env t.pathPattern t.path s tw' t' s₂ t₂ →
        (¬ env.SetsUp s₂.producers t'.conf → I s₂) ∧ ∀ ps, s₂.producers ⊆ ps →
          I (s₂.handedOver t.pathPattern ps tw'
            (TailWatcher.init t.pathPattern t.path t.positionEntry t'.conf))) :
    wp (TailWatcher.onNotify cfg env tw) (fun _ => I) E [] s := by
  have hstays : ∀ s₁ t₁, I s₁ → s₁.watchers tw = some t₁ → Kept t t₁ →
      ∃ t₁, s₁.watchers tw = some t₁ ∧ Kept t t₁ ∧ ∀ s' t', Local tw t.pathPattern s₁ s' →
        s'.watchers tw = some t' → Kept t₁ t' → t'.running = t₁.running → I s' :=
    fun s₁ t₁ hI₁ hw₁ hk₁ => ⟨t₁, hw₁, hk₁, fun s' t' hl hw' hk hrun =>
      hlocal s₁ t₁ s' t' hI₁ hw₁ hl hw' hk₁ hk hrun⟩
  refine wp_onNotify hs hE hw ?_ fun hhand => ?_
  · intro s' t' hl hw' hk hrun
    exact hlocal s t s' t' hI hw hl hw' Kept.refl hk hrun
  · refine wp_updateWatcherRotate hs (hs.entry_pattern tw t hw) (hs.watchers_lt tw t hw) (hE _)
      (hE _) (fun _ => hE _) (fun _ => hE _) (fun _ _ _ _ _ => hstays s t hI hw Kept.refl) ?_
    intro tw' t' s₂ t₂ hrel
    obtain ⟨s₁, hl₁, hl₂⟩ := hrel.changes
    obtain ⟨t₃, hw₃, hk₃⟩ : ∃ t₃, s₂.watchers tw = some t₃ ∧ Kept t t₃ := by
      by_cases heq : tw = tw'
      · subst heq
        cases hw.symm.trans hrel.watcher
        exact ⟨t₂, hrel.closed, hrel.kept⟩
      · refine ⟨t, ?_, Kept.refl⟩
        rw [hl₂.others tw heq, hl₁.others tw heq]
        exact hw
    obtain ⟨hfail, hdone⟩ := hover hhand tw' t' s₂ t₂ hrel
    refine ⟨fun hsets => hstays s₂ t₃ (hfail hsets) hw₃ hk₃, fun ps hps => ?_⟩
    refine hstays _ t₃ (hdone ps hps) ?_ hk₃
    exact (handedOver_of_lt (hrel.wf.watchers_lt tw t₃ hw₃)).trans hw₃

theorem wf_onNotify (hs : s.Wf) (hE : ∀ c, E (.crash c)) (hw : s.watchers tw = some t) :
    wp (TailWatcher.onNotify cfg env tw) (fun _ s' => s'.Wf ∧ Fresh s s') E [] s := by
  refine wp_onNotify_inv hs hE hw ⟨hs, Fresh.refl⟩ ?_ ?_
  · rintro s₁ t₁ s' t' ⟨hs₁, hf₁⟩ hw₁ hl hw' _ hk _
    exact ⟨hs₁.local hl hw₁ hw' hk.pathPattern hk.positionEntry, hf₁.trans hl.fresh⟩
  · intro _ tw' t' s₂ t₂ hrel
    obtain ⟨s₁, hl₁, hl₂⟩ := hrel.changes
    have hf₂ : Fresh s s₂ := hl₁.fresh.trans hl₂.fresh
    exact ⟨fun _ => ⟨hrel.wf, hf₂⟩, fun ps _ => ⟨hrel.wf.handedOver rfl (hs.entry_pattern tw t hw),
      hf₂.trans Fresh.handedOver⟩⟩

theorem stable_true : Stable fun _ _ => True := fun _ _ _ _ _ _ _ _ _ => trivial

theorem wf_refreshWatchers (hs : s.Wf) :
    wp (refreshWatchers cfg env) (fun _ s' => s'.Wf ∧ Fresh s s') (fun _ => True) [] s := by
  refine wp_refreshWatchers hs (fun _ => trivial)
    (fun _ => ⟨hs.setTaskConfs, Nat.le_refl _, fun _ _ => Or.inl⟩) ?_
  intro members s₁ s₂ _ hr _ hstop
  refine (wp_startWatchers (fun _ => trivial) _ s₂ hstop.wf).conseq fun _ s₃ hstart => ?_
  refine (wp_updateWatchers (fun _ => trivial) stable_true stable_true
    (fun _ _ _ _ => trivial) (fun _ _ _ _ _ _ _ _ => trivial) _ s₃ (OrdSet.nodup _) hstart.wf
    fun _ _ => trivial).conseq fun _ s₄ h => ?_
  exact ⟨h.1, hr.fresh.trans (hstop.frame.isFresh.trans
    (hstart.frame.isFresh.trans h.2.1.isFresh))⟩

theorem wf_exec {e : Event} (hs : s.Wf) (henabled : Enabled s e) :
    wp (exec cfg e) (fun _ s' => s'.Wf ∧ Fresh s s') (fun _ => True) [] s := by
  cases e with
  | refresh env =>
      unfold exec
      rw [wp_bind]
      exact (wf_refreshWatchers hs).conseq fun _ _ h => h
  | notify env tw =>
      obtain ⟨t, hw, -⟩ := henabled
      exact wf_onNotify hs (fun _ => trivial) hw
  | upload => exact wp_uploadCollectingState (fun _ => trivial) ⟨hs, Fresh.refl⟩
  | stop env =>
      refine wp_stop_manager hs (fun _ => trivial) fun s' hstop => ⟨hstop.wf, ?_⟩
      exact ⟨hstop.frame.nextWatcher, hstop.frame.fresh⟩

theorem wf_init (pf : OrdMap PositionEntryKey Slot) : (Manager.init pf).Wf where
  watchers_lt _ _ h := by cases h
  tails_lt _ _ h := by cases h
  tails_pattern _ _ _ h := by cases h
  entry_pattern _ _ h := by cases h
  entries pek pe h := by
    have h : (pf.mapWithKey fun pek _ => (⟨pek, 0⟩ : EntryId)).find? pek = some pe := h
    rw [OrdMap.find?_mapWithKey] at h
    obtain ⟨slot, hslot, rfl⟩ := Option.map_eq_some_iff.mp h
    refine ⟨rfl, ?_⟩
    show (if 0 = 0 then pf.find? pek else none).isSome
    rw [if_pos rfl, hslot]
    rfl

theorem wf_step (e : Event) (s s' : Manager) (hs : s.Wf) (h : step cfg e s = some s') : s'.Wf :=
  (of_step h (wf_exec hs)).1

/-- Who is registered in the course of a run was so before, or is new. -/
theorem fresh_run (es : List Event) (s s' : Manager) (hs : s.Wf)
    (h : run (step cfg) es s = some s') : Fresh s s' := by
  have hstep : ∀ e u u', (u.Wf ∧ Fresh s u) → step cfg e u = some u' → u'.Wf ∧ Fresh s u' := by
    rintro e u u' ⟨hu, hf⟩ hstep
    obtain ⟨hu', hf'⟩ := of_step hstep (wf_exec hu)
    exact ⟨hu', hf.trans hf'⟩
  exact (run_inv hstep es s s' ⟨hs, Fresh.refl⟩ h).2

end Logkafka
