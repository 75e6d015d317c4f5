/-
# `Logkafka.Manager.Unwatched` — what is left of a pattern that is unwatched

When the configuration no longer has a pattern, `stopWatchers` closes its
watcher as unwatched: it marks and removes the entry of the watcher's path.
Other entries of the pattern, of a path that was followed by this one in an
earlier session, stay in the map, and `getPath` and the next session find them.

    Sane s        the map has the entries that are alive, and until `stop` every
                  line without an entry is marked
    Gone P s      no entry of `P`, and no line of `P` that is not marked

`Gone` is kept, from session to session, until the configuration has the
pattern again; a refresh that unwatches a pattern establishes it exactly when
the map has no entry of the pattern but the watcher's own.
-/
import Logkafka.Manager.Keys
import Logkafka.Manager.Sessions

namespace Logkafka

open Manager PositionFile Prog

variable {cfg : Config} {env : Env} {L : List Mutex} {P : Str} {tw : WatcherId}
  {t : TailWatcher} {s s' s'' : Manager} {T : Str → Prop}

/-! ## Lines without an entry

A line stays when its entry is removed, and then it has to be marked: the next
session would find it.
-/

/-- The lines whose entries were removed are marked as unwatched. -/
def Manager.LinesMarked (s : Manager) : Prop :=
  ∀ l ∈ s.removed, l.2.readPos = unwatchedPosition

theorem Manager.LinesMarked.dropEntry {pek : PositionEntryKey} (h : s.LinesMarked)
    (hmarked : Marked pek s) : (s.dropEntry pek).LinesMarked := by
  cases hpe : s.peMap.find? pek with
  | none => rwa [dropEntry_of_none hpe]
  | some pe =>
      rw [dropEntry_of_some hpe]
      intro l hl
      rcases List.mem_append.mp hl with hl | hl
      · exact h l hl
      · obtain ⟨slot, hslot, rfl⟩ := List.mem_map.mp hl
        exact hmarked pe slot hpe (Option.mem_toList.mp hslot)

theorem dropEntry_refreshTrigger (pek : PositionEntryKey) :
    (s.dropEntry pek).refreshTrigger = s.refreshTrigger :=
  dropEntry_field _ pek fun _ _ _ => rfl

/-- What the tables say of the entries, whatever is registered. -/
def Manager.Tidy (s : Manager) : Prop := s.Held ∧ s.LinesMarked

theorem tableInv_tidy : TableInv true Manager.Tidy where
  quiet _ _ hq h := ⟨hq.held h.1, fun l hl => h.2 l (hq.removed ▸ hl)⟩
  register _ _ _ _ _ _ _ h := h
  unregister s s₁ P tw t _ _ hc h := by
    have hlines : s₁.LinesMarked := fun l hl => h.2 l (hc.quiet.removed ▸ hl)
    exact ⟨(hc.quiet.held h.1).dropEntry _, hlines.dropEntry (hc.marked rfl)⟩

theorem tidy_updateWatchersBody (hL : .tailWatchers ∈ L) (h : s.Tidy) :
    wp (updateWatchersBody cfg env P) (fun _ s' => s'.Tidy ∧ Sourced env s s' ∧ True)
      (fun _ => True) L s := by
  have hE : ∀ e, NotNull e → True := fun _ _ => trivial
  refine wp_updateWatchersBody_quiet hE hL (fun _ => trivial) ?_ ?_ ?_
  · intro task tw t hp _
    refine (tableInv_tidy.moveWatcher hE (fun _ _ _ => trivial) hp.task h).conseq ?_
    exact fun _ s₁ hwp => hwp.conseq fun _ s' h' => ⟨h'.1, h'.2, trivial⟩
  · exact fun task tw t s' _ _ hq => ⟨tableInv_tidy.quiet s s' hq h, hq.sourced, trivial⟩
  · intro task tw t s₁ s' pe _ _ hq₁ _
    have h₁ : s₁.Tidy := tableInv_tidy.quiet s s₁ hq₁ h
    refine ⟨fun _ ps hps hq => ?_, fun _ hq => ?_⟩
    · exact ⟨tableInv_tidy.quiet _ _ hq h₁, ⟨hq.tasks.trans hq₁.tasks, hq.producers ▸ hps⟩,
        trivial⟩
    · exact ⟨tableInv_tidy.quiet _ _ hq h₁,
        ⟨hq.tasks.trans hq₁.tasks, hq.producers.trans hq₁.producers ▸ Grows.refl⟩, trivial⟩

theorem TasksRefreshed.held {confs : OrdMap Str TaskConf} (hr : TasksRefreshed confs s s')
    (h : s.Held) : s'.Held := by
  intro pek pe
  rw [hr.peMap, hr.slots]
  exact h pek pe

theorem TasksRefreshed.tidy {confs : OrdMap Str TaskConf} (hr : TasksRefreshed confs s s')
    (h : s.Tidy) : s'.Tidy := ⟨hr.held h.1, fun l hl => h.2 l (hr.removed ▸ hl)⟩

theorem tidy_refreshWatchers (hs : s.Wf) (h : s.Tidy) :
    wp (refreshWatchers cfg env) (fun _ => Manager.Tidy) (fun _ => True) [] s := by
  refine tableInv_tidy.refreshWatchers hs (fun _ _ => trivial) (fun _ _ _ _ => trivial) h ?_ ?_ ?_
  · exact fun _ _ => h
  · exact fun _ s₁ _ hr => hr.tidy h
  · intro members s₁ s₃ _ _ _ _ hs₃ h₃ _ _
    refine (wp_updateWatchers_rounds (I := Manager.Tidy) (C := fun _ _ => True)
      (R := fun _ _ => True) (fun _ _ _ _ _ _ _ _ _ _ => trivial)
      (fun _ _ _ _ _ _ _ _ _ => trivial) ?_ _ s₃ (OrdSet.nodup _) hs₃ h₃
      fun _ _ => trivial).conseq fun _ _ h' => h'.2.1
    exact fun P s _ h _ => tidy_updateWatchersBody (by simp) h

/-- Until the session is stopped, every line that has lost its entry is marked. -/
structure Sane (s : Manager) : Prop where
  wf : s.Wf
  held : s.Held
  marked : s.refreshTrigger = true → s.LinesMarked

theorem sane_init (pf : OrdMap PositionEntryKey Slot) : Sane (Manager.init pf) where
  wf := wf_init pf
  held := (tied_init pf).held
  marked _ _ hl := (List.not_mem_nil hl).elim

theorem Quiet.marked (hq : Quiet s s') (h : s.refreshTrigger = true → s.LinesMarked) :
    s'.refreshTrigger = true → s'.LinesMarked := by
  intro htrigger l hl
  exact h (hq.refreshTrigger ▸ htrigger) l (hq.removed ▸ hl)

theorem tableInv_stopped : TableInv false fun s => s.Held ∧ s.refreshTrigger = false where
  quiet _ _ hq h := ⟨hq.held h.1, hq.refreshTrigger.trans h.2⟩
  register _ _ _ _ _ _ _ h := h
  unregister s s₁ P tw t _ _ hc h := by
    refine ⟨(hc.quiet.held h.1).dropEntry _, ?_⟩
    exact (dropEntry_refreshTrigger _).trans (hc.quiet.refreshTrigger.trans h.2)

theorem sane_step {a : SessionEvent} (h : Sane s) (hstep : sessionStep cfg a s = some s') :
    Sane s' := by
  cases a with
  | restart =>
      obtain ⟨-, rfl⟩ := sessionStep_restart hstep
      exact sane_init _
  | event e =>
      have hstep : step cfg e s = some s' := hstep
      have hrest : s'.Held ∧ (s'.refreshTrigger = true → s'.LinesMarked) := by
        refine of_step (R := fun s' => s'.Held ∧ (s'.refreshTrigger = true → s'.LinesMarked)) hstep
          fun henabled => ?_
        cases e with
        | refresh env =>
            have htidy : s.Tidy := ⟨h.held, h.marked henabled⟩
            unfold exec
            rw [wp_bind]
            exact (tidy_refreshWatchers h.wf htidy).conseq fun _ _ h' => ⟨h'.1, fun _ => h'.2⟩
        | notify env tw =>
            refine wp_onNotify_quiet (fun s s' hq h' => ⟨hq.held h'.1, hq.marked h'.2⟩) ?_
              ⟨h.held, h.marked⟩
            exact fun s s' t ps old conf h' _ hq _ => ⟨hq.held h'.1, hq.marked h'.2⟩
        | upload => exact wp_uploadCollectingState (fun _ => trivial) ⟨h.held, h.marked⟩
        | stop env =>
            unfold exec Manager.stop
            rw [wp_bind, wp_modify]
            refine wp_scopedLock_any trivial ?_
            rw [wp_bind, wp_get, wp_bind]
            have hoff : Manager.Held { s with refreshTrigger := false } := h.held
            refine (tableInv_stopped.stopWatchers (fun _ _ => trivial) _ _
              (fun _ _ _ _ _ => trivial) ⟨hoff, rfl⟩).conseq ?_
            rintro _ s' ⟨⟨hheld, hoff⟩, -⟩
            refine wp_scopedLock_any trivial ⟨hheld, fun hon => ?_⟩
            rw [hoff] at hon
            cases hon
      exact ⟨wf_step e s s' h.wf hstep, hrest.1, hrest.2⟩

/-! ## A pattern that has no entry

What keeps `Gone`, one kind of change after the other, and what it says of the next
session.
-/

/-- `P` is not watched, no entry of it is alive, and its lines that lost theirs are
marked. -/
structure Gone (P : Str) (s : Manager) : Prop where
  tail : s.tails.find? P = none
  bare : ∀ pe, pe.key.pathPattern = P → s.slots pe = none
  lines : ∀ l ∈ s.removed, l.1.key.pathPattern = P → l.2.readPos = unwatchedPosition

theorem Gone.of_frame (h : Gone P s) (hf : Frame T s s') (hP : ¬ T P) : Gone P s' where
  tail := (hf.tails P hP).trans h.tail
  bare pe hpe := (hf.slots pe (hpe ▸ hP)).trans (h.bare pe hpe)
  lines l hl hP' := h.lines l ((hf.removed l (hP' ▸ hP)).mp hl) hP'

theorem Gone.local {Q : Str} (h : Gone P s) (hl : Local tw Q s s') (hQ : P ≠ Q) : Gone P s' where
  tail := hl.tails ▸ h.tail
  bare pe hpe := (hl.slots pe (hpe ▸ hQ)).trans (h.bare pe hpe)
  lines l hmem := h.lines l (hl.removed ▸ hmem)

theorem Gone.handedOver {Q : Str} {ps : List Str} (h : Gone P s) (hQ : P ≠ Q) :
    Gone P (s.handedOver Q ps tw t) where
  tail := (OrdMap.find?_insert_ne hQ _ _).trans h.tail
  bare := h.bare
  lines := h.lines

theorem Gone.opens {pek : PositionEntryKey} (h : Gone P s) (ho : Opens pek s s')
    (hP : P ≠ pek.pathPattern) : Gone P s' where
  tail := ho.quiet.tails ▸ h.tail
  bare pe hpe := by
    by_contra hsome
    rcases ho.opens pe (Option.isSome_iff_ne_none.mpr hsome) with halive | rfl
    · rw [h.bare pe hpe] at halive
      cases halive
    · exact hP hpe.symm
  lines l hl := h.lines l (ho.quiet.removed ▸ hl)

theorem Gone.register {Q : Str} {ps : List Str} (h : Gone P s) (hQ : P ≠ Q) :
    Gone P (s.register Q ps t) where
  tail := (OrdMap.find?_insert_ne hQ _ _).trans h.tail
  bare := h.bare
  lines := h.lines

theorem Gone.of_tasks {confs : OrdMap Str TaskConf} (hr : TasksRefreshed confs s s')
    (h : Gone P s) : Gone P s' where
  tail := hr.tails ▸ h.tail
  bare pe hpe := hr.slots ▸ h.bare pe hpe
  lines l hl := h.lines l (hr.removed ▸ hl)

theorem Gone.find?_eq_none (h : Gone P s) (hheld : s.Held) (path : Str) :
    s.peMap.find? ⟨P, path⟩ = none := by
  cases hpe : s.peMap.find? ⟨P, path⟩ with
  | none => rfl
  | some pe =>
      obtain ⟨hkey, halive⟩ := (hheld _ _).mp hpe
      rw [h.bare pe (congrArg PositionEntryKey.pathPattern hkey)] at halive
      cases halive

theorem Gone.getPath (h : Gone P s) (hheld : s.Held) : PositionFile.getPath s.peMap P = none := by
  cases hpath : PositionFile.getPath s.peMap P with
  | none => rfl
  | some path =>
      obtain ⟨pe, hpe⟩ := find?_of_getPath hpath
      rw [h.find?_eq_none hheld path] at hpe
      cases hpe

/-- Every line of the pattern is marked. -/
theorem Gone.marked (h : Gone P s) {l : FileLine} (hl : l ∈ s.lines)
    (hP : l.1.pathPattern = P) : l.2.readPos = unwatchedPosition := by
  rcases mem_lines.mp hl with ⟨pek, pe, -, hslot, hkey⟩ | ⟨pe, hmem, hkey⟩
  · rw [h.bare pe (hkey ▸ hP)] at hslot
    cases hslot
  · exact h.lines _ hmem (hkey ▸ hP)

/-- So the next session finds nothing of it. -/
theorem Gone.reread (h : Gone P s) (hls : ∀ l ∈ s.lines, Legible l.1) {key : PositionEntryKey}
    {slot : Slot} (hfound : (reread s.text).find? key = some slot) : key.pathPattern ≠ P := by
  intro hP
  obtain ⟨slot', hmem, hlive, -⟩ := find?_reread hls hfound
  exact hlive (h.marked (live_of_mem_kept hmem).1 hP)

theorem Gone.restart (h : Gone P s) (hls : ∀ l ∈ s.lines, Legible l.1) :
    Gone P (Manager.init (Logkafka.reread s.text)) where
  tail := rfl
  bare pe hpe := by
    show (if pe.serial = 0 then (Logkafka.reread s.text).find? pe.key else none) = none
    cases hfound : (Logkafka.reread s.text).find? pe.key with
    | none => split <;> rfl
    | some slot => exact absurd hpe (h.reread hls hfound)
  lines _ hl := (List.not_mem_nil hl).elim

/-! ## Events after that

An entry is made for a pattern that is registered or has a task; one that is gone is
neither.
-/

/-- A trigger of a watcher whose entry is gone: it can only go on where it does
not touch it. -/
theorem gone_onNotify_own (h : Gone P s) (hw : s.watchers tw = some t)
    (hnone : s.slots t.positionEntry = none) :
    wp (TailWatcher.onNotify cfg env tw) (fun _ => Gone P) (fun _ => True) [] s := by
  have hset : ∀ t', Gone P { s with watchers := Function.update s.watchers tw (some t') } :=
    fun t' => ⟨h.tail, h.bare, h.lines⟩
  have hio : ∀ s₁ t₁, Gone P s₁ → s₁.watchers tw = some t₁ →
      s₁.slots t₁.positionEntry = none → wp (scopedLock (.ioHandler tw)
        (TailWatcher.notifyIoHandler cfg (env.notifyIo tw) tw)) (fun _ => Gone P)
        (fun _ => True) [] s₁ := by
    intro s₁ t₁ h₁ hw₁ hnone₁
    rw [wp_scopedLock (by simp)]
    refine wp_notifyIoHandler_of (fun _ => trivial) trivial (fun _ => trivial)
      (fun _ _ _ => trivial) (fun _ _ => h₁) ?_
    intro t₂ t' slot slot' hw₂ _
    cases hw₁.symm.trans hw₂
    refine ⟨⟨h₁.tail, h₁.bare, h₁.lines⟩, fun hslot => ?_⟩
    cases hnone₁.symm.trans hslot
  unfold TailWatcher.onNotify
  rw [wp_bind, wp_scopedLock (by simp)]
  unfold TailWatcher.notifyRotateHandler
  rw [wp_bind, wp_getWatcher hw]
  simp only [wp_ite]
  split
  · split
    · exact hio s t h hw hnone
    · -- rotating starts with reading the entry
      simp only [TailWatcher.rotate, TailWatcher.rotateIo, wp_bind]
      rw [wp_scopedLock (by simp), wp_bind, wp_getWatcher hw, wp_bind]
      refine wp_getSlot (fun _ => trivial) fun slot hslot => ?_
      rw [hnone] at hslot
      cases hslot
  · rw [wp_setWatcher]
    exact hio _ _ (hset _) (Function.update_self ..) hnone

theorem gone_onNotify (hs : s.Wf) (h : Gone P s) (hw : s.watchers tw = some t) :
    wp (TailWatcher.onNotify cfg env tw) (fun _ => Gone P) (fun _ => True) [] s := by
  by_cases hP : P = t.pathPattern
  · refine gone_onNotify_own h hw (h.bare _ ?_)
    rw [hs.entry_pattern tw t hw, hP]
  · refine wp_onNotify_inv hs (fun _ => trivial) hw h ?_ ?_
    · intro s₁ t₁ s' t' h₁ _ hl _ _ _ _
      exact h₁.local hl hP
    · intro _ tw' t' s₂ t₂ hrel
      -- the watcher that is closed was found under its pattern
      obtain ⟨s₁, hl₁, hl₂⟩ := hrel.changes
      have hne : P ≠ t'.pathPattern := by
        rintro rfl
        have ht := hs.tails_pattern _ tw' t' hrel.tail hrel.watcher
        have hnull := h.tail
        rw [ht, hrel.tail] at hnull
        cases hnull
      have h₂ : Gone P s₂ := (h.local hl₁ hne).local hl₂ hP
      exact ⟨fun _ => h₂, fun ps _ => h₂.handedOver hP⟩

/-- The rest of a refresh, for a pattern that the configuration does not have. -/
theorem wp_rest_of_refresh {s₁ s₂ : Manager} {R : Manager → Prop} (hs₂ : s₂.Wf)
    (htask : s₁.tasks.find? P = none)
    (hR : ∀ s' T, Frame T s₂ s' → ¬ T P → R s') :
    wp (startWatchers env s₁.addedKeys.elems) (fun _ s₃ =>
      wp (updateWatchers cfg env s₁.keptKeys.elems) (fun _ => R) (fun _ => True)
        [.tailWatchers] s₃) (fun _ => True) [.tailWatchers] s₂ := by
  have hP : P ∉ s₁.tasks.keys := OrdMap.not_mem_keys.mpr htask
  refine (wp_startWatchers (fun _ => trivial) _ s₂ hs₂).conseq fun _ s₃ hstart => ?_
  refine (wp_updateWatchers (fun _ => trivial) stable_true stable_true
    (fun _ _ _ _ => trivial) (fun _ _ _ _ _ _ _ _ => trivial) _ s₃ (OrdSet.nodup _) hstart.wf
    fun _ _ => trivial).conseq fun _ s₄ h' => ?_
  refine hR s₄ (fun Q => Q ∈ s₁.tasks.keys) ?_ hP
  refine (hstart.frame.mono fun Q hQ => ?_).trans (h'.2.1.mono fun Q hQ => ?_)
  · exact (OrdSet.mem_diff.mp hQ).1
  · exact (OrdSet.mem_inter.mp hQ).2

theorem TasksRefreshed.find?_eq_none {confs : OrdMap Str TaskConf}
    (hr : TasksRefreshed confs s s') (hconf : confs.find? P = none) :
    s'.tasks.find? P = none :=
  Option.map_eq_none_iff.mp ((hr.tasks P).trans hconf)

/-- If the configuration has `P` enabled, a producer for it is there, or can be made. -/
def Startable (env : Env) (P : Str) (s : Manager) : Prop :=
  ∀ members conf, env.document = .object members → (newConfs members).find? P = some conf →
    conf.valid = true → CanProduce env s.producers conf

def IsWatched (P : Str) (s : Manager) : Prop := ∃ tw, s.tails.find? P = some (some tw)

/-- The round for `P`, if the loop comes to it, makes an entry and a watcher. -/
theorem gone_startWatchers : ∀ (ps : List Str) (s : Manager), ps.Nodup → s.Wf → s.Held →
    Gone P s → (∀ task, s.tasks.find? P = some task → task.conf.valid = true →
      CanProduce env s.producers task.conf) →
    wp (startWatchers env ps) (fun _ s' => Gone P s' ∨ IsWatched P s') (fun _ => True)
      [.tailWatchers] s
  | [], _, _, _, _, h, _ => Or.inl h
  | Q :: ps, s, hnd, hs, hheld, h, hup => by
      obtain ⟨hQ, hnd⟩ := List.nodup_cons.mp hnd
      refine wp_startWatchers_quiet (fun _ _ => trivial) (fun _ => trivial) (Or.inl h) ?_ ?_
      · intro task s₁ pe _ ho hpe _ ps' hps'
        have hheld₁ : s₁.Held := ho.quiet.held hheld
        have hkey := congrArg PositionEntryKey.pathPattern ((hheld₁ _ _).mp hpe).1
        have hs₂ : (s₁.register Q ps' (TailWatcher.init Q task.getPath pe task.conf)).Wf :=
          (ho.quiet.wf hs hheld).register rfl hkey
        by_cases heq : P = Q
        · subst heq
          refine (wp_startWatchers (fun _ => trivial) ps _ hs₂).conseq fun _ s' hst => ?_
          refine Or.inr ⟨s₁.nextWatcher, (hst.frame.tails P hQ).trans ?_⟩
          exact OrdMap.find?_insert_self _ _ _
        · refine gone_startWatchers ps _ hnd hs₂ hheld₁ ((h.opens ho heq).register heq) ?_
          intro task' htask' hvalid
          refine hps'.canProduce_iff.mpr (hup task' ?_ hvalid)
          exact ho.quiet.tasks ▸ htask'
      · intro task s₁ htask hvalid ho _ hcan
        by_cases heq : P = Q
        · subst heq
          exact absurd (hup task htask hvalid) hcan
        · refine gone_startWatchers ps s₁ hnd (ho.quiet.wf hs hheld) (ho.quiet.held hheld)
            (h.opens ho heq) fun task' htask' hvalid' => ?_
          rw [ho.quiet.producers]
          exact hup task' (ho.quiet.tasks ▸ htask') hvalid'

theorem gone_refreshWatchers (hs : s.Wf) (hheld : s.Held) (h : Gone P s)
    (hup : Startable env P s) :
    wp (refreshWatchers cfg env) (fun _ s' => Gone P s' ∨ IsWatched P s') (fun _ => True) [] s := by
  refine wp_refreshWatchers_parts hs trivial (fun _ => trivial)
    (fun _ _ => Or.inl ⟨h.tail, h.bare, h.lines⟩) ?_
  intro members s₁ hdoc hr _ hs₁
  have h₁ : Gone P s₁ := h.of_tasks hr
  have hkeys : P ∉ s₁.tails.keys := OrdMap.not_mem_keys.mpr h₁.tail
  refine ((tableInv_held.stopWatchers (fun _ _ => trivial) _ s₁ (fun _ _ _ _ _ => trivial)
    (hr.held hheld)).and
      (wp_stopWatchers (E := fun _ => True) (fun _ => trivial) _ s₁ hs₁)).conseq ?_
  rintro _ s₂ ⟨⟨hheld₂, hsrc⟩, hstop⟩
  have h₂ : Gone P s₂ := h₁.of_frame hstop.frame fun hP => hkeys (OrdSet.mem_diff.mp hP).1
  refine ((gone_startWatchers _ s₂ (OrdSet.nodup _) hstop.wf hheld₂ h₂ ?_).and
    (wp_startWatchers (E := fun _ => True) (fun _ => trivial) _ s₂ hstop.wf)).conseq ?_
  · intro task htask hvalid
    rw [hsrc.grows.canProduce_iff, hr.producers]
    refine hup members task.conf hdoc ?_ hvalid
    rw [← hr.tasks P]
    exact congrArg (Option.map Task.conf) (hsrc.tasks ▸ htask)
  · rintro _ s₃ ⟨hor, hstart⟩
    refine (wp_updateWatchers (fun _ => trivial) stable_true stable_true
      (fun _ _ _ _ => trivial) (fun _ _ _ _ _ _ _ _ => trivial) _ s₃ (OrdSet.nodup _) hstart.wf
      fun _ _ => trivial).conseq fun _ s₄ h' => ?_
    have hkept : P ∉ s₁.keptKeys.elems := fun hP => hkeys (OrdSet.mem_inter.mp hP).1
    rcases hor with h₃ | ⟨tw, htw⟩
    · exact Or.inl (h₃.of_frame h'.2.1 hkept)
    · exact Or.inr ⟨tw, (h'.2.1.tails P hkept).trans htw⟩

theorem gone_stop (hs : s.Wf) (h : Gone P s) :
    wp (Manager.stop cfg env) (fun _ => Gone P) (fun _ => True) [] s := by
  refine wp_stop_manager hs (fun _ => trivial) fun s' hstop => ?_
  have hoff : Gone P { s with refreshTrigger := false } := ⟨h.tail, h.bare, h.lines⟩
  exact hoff.of_frame hstop.frame (OrdMap.not_mem_keys.mpr h.tail)

/-! ## The refresh that unwatches a pattern

`stopWatchers` removes the entry of the watcher's path.  Whether another one of the
pattern is there is known before.
-/

/-- `P` is not watched, and of its entries the one of `path` is gone. -/
structure Cleared (P path : Str) (s s' : Manager) : Prop where
  tail : s'.tails.find? P = none
  alive : ∀ pe, pe.key.pathPattern = P →
    ((s'.slots pe).isSome ↔ (s.slots pe).isSome ∧ pe.key ≠ ⟨P, path⟩)

theorem Cleared.of_frame {path : Str} (h : Cleared P path s s') (hf : Frame T s' s'')
    (hP : ¬ T P) : Cleared P path s s'' where
  tail := (hf.tails P hP).trans h.tail
  alive pe hpe := by
    rw [hf.slots pe (hpe ▸ hP)]
    exact h.alive pe hpe

theorem Closing.alive_iff {pek : PositionEntryKey} {unwatched : Bool}
    (hc : Closing pek unwatched s s') (h : s.Held) (pe : EntryId) :
    ((s'.dropEntry pek).slots pe).isSome ↔ (s.slots pe).isSome ∧ pe.key ≠ pek := by
  rw [dropEntry_alive (hc.quiet.held h)]
  refine and_congr_left fun hne => ⟨fun halive => ?_, hc.quiet.alive pe⟩
  exact (hc.opens pe halive).resolve_right hne

/-- The round for `P` removes the entry of its watcher; the rounds before and after
it are for other patterns. -/
theorem cleared_stopWatchers {path : Str} : ∀ (ps : List Str) (s : Manager), ps.Nodup → P ∈ ps →
    s.Wf → s.Held → s.tails.find? P = some (some tw) →
    (∀ t, s.watchers tw = some t → t.path = path) →
    wp (stopWatchers cfg env true true ps) (fun _ s' => Cleared P path s s') (fun _ => True)
      [.tailWatchers] s
  | [], _, _, hP, _, _, _, _ => absurd hP List.not_mem_nil
  | Q :: ps, s, hnd, hP, hs, hheld, htail, hpath => by
      obtain ⟨hQ, hnd⟩ := List.nodup_cons.mp hnd
      refine wp_stopWatchers_quiet (fun _ _ => trivial) (fun _ => trivial) ?_ ?_
      · intro hnone
        rcases List.mem_cons.mp hP with rfl | hP
        · rw [htail] at hnone
          cases hnone
        · exact cleared_stopWatchers ps s hnd hP hs hheld htail hpath
      intro tw' t' s₁ htail' hw' hc
      have ht' : t'.pathPattern = Q := hs.tails_pattern Q tw' t' htail' hw'
      let pek : PositionEntryKey := ⟨t'.pathPattern, t'.path⟩
      have hheld₁ : s₁.Held := hc.quiet.held hheld
      have hs₂ : ((s₁.dropEntry pek).unregister Q tw').Wf :=
        ((hc.quiet.wf hs hheld).dropEntry hheld₁).unregister
      have halive : ∀ pe, (((s₁.dropEntry pek).unregister Q tw').slots pe).isSome ↔
          (s.slots pe).isSome ∧ pe.key ≠ pek := hc.alive_iff hheld
      by_cases heq : P = Q
      · -- its own round; no other one is for `P`
        subst heq
        cases htail.symm.trans htail'
        have hcleared : Cleared P path s ((s₁.dropEntry pek).unregister P tw) := by
          refine ⟨OrdMap.find?_erase_self _ _, fun pe _ => ?_⟩
          rw [halive pe, ← hpath t' hw', ← ht']
        exact (wp_stopWatchers (fun _ => trivial) ps _ hs₂).conseq fun _ s' hstop =>
          hcleared.of_frame hstop.frame hQ
      · have hP : P ∈ ps := (List.mem_cons.mp hP).resolve_left heq
        have htail₂ : ((s₁.dropEntry pek).unregister Q tw').tails.find? P = some (some tw) := by
          refine (OrdMap.find?_erase_ne heq _).trans ?_
          rw [dropEntry_tails, hc.quiet.tails]
          exact htail
        have hpath₂ : ∀ t, ((s₁.dropEntry pek).unregister Q tw').watchers tw = some t →
            t.path = path := by
          intro t hw
          have hw₁ : (s₁.dropEntry pek).watchers tw = some t := of_update_none hw
          rw [dropEntry_watchers] at hw₁
          obtain ⟨t₀, hw₀, hk⟩ := hc.quiet.watcher tw t hw₁
          exact hk.path.trans (hpath t₀ hw₀)
        refine (cleared_stopWatchers ps _ hnd hP hs₂ (hheld₁.dropEntry pek) htail₂
          hpath₂).conseq fun _ s' h' => ⟨h'.tail, fun pe hpe => ?_⟩
        rw [h'.alive pe hpe, halive pe]
        refine and_congr_left fun _ => and_iff_left fun hkey => heq ?_
        rw [← hpe, hkey]
        exact ht'

/-- The configuration does not have `P` any more, which is watched. -/
structure Unwatches (env : Env) (P : Str) (s : Manager) (tw : WatcherId) (t : TailWatcher) :
    Prop where
  config : ∃ members, env.document = .object members ∧ (newConfs members).find? P = none
  tail : s.tails.find? P = some (some tw)
  watcher : s.watchers tw = some t

/-- The refresh removes the entry of the watcher, and it alone. -/
theorem cleared_refreshWatchers (hs : s.Wf) (hheld : s.Held) (hun : Unwatches env P s tw t) :
    wp (refreshWatchers cfg env) (fun _ s' => Cleared P t.path s s') (fun _ => True) [] s := by
  obtain ⟨members, hdoc, hconf⟩ := hun.config
  refine wp_refreshWatchers_parts hs trivial (fun _ => trivial) (fun hnot => ?_) ?_
  · exact absurd hdoc (hnot members)
  · intro members' s₁ hdoc' hr _ hs₁
    cases hdoc.symm.trans hdoc'
    have htask : s₁.tasks.find? P = none := hr.find?_eq_none hconf
    have hdel : P ∈ s₁.deletedKeys.elems := OrdSet.mem_diff.mpr
      ⟨OrdMap.mem_keys.mpr ⟨_, hr.tails ▸ hun.tail⟩, OrdMap.not_mem_keys.mpr htask⟩
    have htail₁ : s₁.tails.find? P = some (some tw) := hr.tails ▸ hun.tail
    have hheld₁ : s₁.Held := hr.held hheld
    have hpath : ∀ t₁, s₁.watchers tw = some t₁ → t₁.path = t.path := by
      intro t₁ hw₁
      cases hun.watcher.symm.trans (hr.watcher hw₁)
      rfl
    refine ((cleared_stopWatchers _ s₁ (OrdSet.nodup _) hdel hs₁ hheld₁ htail₁ hpath).and
      (wp_stopWatchers (E := fun _ => True) (fun _ => trivial) _ s₁ hs₁)).conseq ?_
    rintro _ s₂ ⟨hcleared, hstop⟩
    have h₂ : Cleared P t.path s s₂ := ⟨hcleared.tail, fun pe hpe => hr.slots ▸ hcleared.alive pe hpe⟩
    exact wp_rest_of_refresh hstop.wf htask fun s' T hf hP => h₂.of_frame hf hP

/-! ## Every run, over any number of sessions

From the refresh that unwatched the pattern on, up to one that has it again.
-/

/-- A session starts with a file whose keys can be read back. -/
def Rereadable (s : Manager) : SessionEvent → Prop
  | .restart => ∀ l ∈ s.lines, Legible l.1
  | .event _ => True

/-- The patterns that the refresh unwatches have no entry but that of their watcher's path. -/
def Alone (s : Manager) : SessionEvent → Prop
  | .event (.refresh env) => ∀ P tw t, Unwatches env P s tw t → ∀ path, path ≠ t.path →
      s.peMap.find? ⟨P, path⟩ = none
  | _ => True

/-- No entry of `P`, neither for `getPath` nor for a session that starts with the file. -/
structure NoEntry (P : Str) (s : Manager) : Prop where
  getPath : getPath s.peMap P = none
  parse : (∀ l ∈ s.lines, Legible l.1) →
    ∀ key pe, (parse s.text).peMap.find? key = some pe → key.pathPattern ≠ P

/-- A refresh in the past unwatched `P`, and it has not been watched since. -/
structure UnwatchedSince (cfg : Config) (s₀ : Manager) (P : Str) (as : List SessionEvent)
    (u : Manager) : Prop where
  past : ∃ bs env cs s tw t s', as = bs ++ .event (.refresh env) :: cs ∧
    run (sessionStep cfg) bs s₀ = some s ∧ Unwatches env P s tw t ∧
    sessionStep cfg (.event (.refresh env)) s = some s' ∧
    run (sessionStep cfg) cs s' = some u ∧ ∀ v, Visits (sessionStep cfg) cs s' v → ¬ IsWatched P v

/-- A pattern that was unwatched has no entry until it is watched again. -/
def UnwatchedForGood (cfg : Config) (s₀ : Manager) (as : List SessionEvent) : Prop :=
  ∀ bs cs P u, as = bs ++ cs → UnwatchedSince cfg s₀ P bs u → NoEntry P u

/-- A pattern that was unwatched and is enabled again can be set up. -/
def StartsAgain (cfg : Config) (s₀ : Manager) (as : List SessionEvent) : Prop :=
  ∀ bs env cs P u, as = bs ++ .event (.refresh env) :: cs → UnwatchedSince cfg s₀ P bs u →
    Startable env P u

theorem Gone.noEntry (h : Gone P s) (hheld : s.Held) : NoEntry P s where
  getPath := h.getPath hheld
  parse hls key pe hfound := by
    obtain ⟨slot, hslot⟩ := exists_reread hfound
    exact h.reread hls hslot

theorem Cleared.gone_iff {path : Str} (hcleared : Cleared P path s s') (hheld : s.Held)
    (hmarked : s'.LinesMarked) :
    Gone P s' ↔ ∀ path', path' ≠ path → s.peMap.find? ⟨P, path'⟩ = none := by
  constructor
  · intro hgone path' hne
    cases hpe : s.peMap.find? ⟨P, path'⟩ with
    | none => rfl
    | some pe =>
        obtain ⟨hkey, halive⟩ := (hheld _ _).mp hpe
        have hP : pe.key.pathPattern = P := congrArg PositionEntryKey.pathPattern hkey
        have halive' := (hcleared.alive pe hP).mpr ⟨halive, fun heq =>
          hne (congrArg PositionEntryKey.path (hkey.symm.trans heq))⟩
        rw [hgone.bare pe hP] at halive'
        cases halive'
  · intro halone
    refine ⟨hcleared.tail, fun pe hP => ?_, fun l hl _ => hmarked l hl⟩
    by_contra hsome
    obtain ⟨halive, hne⟩ := (hcleared.alive pe hP).mp (Option.isSome_iff_ne_none.mpr hsome)
    have hfound := (hheld pe.key pe).mpr ⟨rfl, halive⟩
    obtain ⟨⟨pattern, path'⟩, serial⟩ := pe
    obtain rfl : pattern = P := hP
    rw [halone path' fun heq => hne (heq ▸ rfl)] at hfound
    cases hfound

theorem Cleared.gone_of_getPath {path : Str} (hcleared : Cleared P path s s') (hheld : s'.Held)
    (hmarked : s'.LinesMarked) (hpath : getPath s'.peMap P = none) : Gone P s' := by
  refine ⟨hcleared.tail, fun pe hP => ?_, fun l hl _ => hmarked l hl⟩
  by_contra hsome
  have hfound := (hheld pe.key pe).mpr ⟨rfl, Option.isSome_iff_ne_none.mpr hsome⟩
  obtain ⟨⟨pattern, path'⟩, serial⟩ := pe
  obtain rfl : pattern = P := hP
  rw [find?_eq_none_of_getPath hpath path'] at hfound
  cases hfound

theorem gone_step {a : SessionEvent} (hs : Sane s) (h : Gone P s)
    (hup : ∀ env, a = .event (.refresh env) → Startable env P s) (hread : Rereadable s a)
    (hstep : sessionStep cfg a s = some s') : Gone P s' ∨ IsWatched P s' := by
  cases a with
  | restart =>
      obtain ⟨-, rfl⟩ := sessionStep_restart hstep
      exact Or.inl (h.restart hread)
  | event e =>
      have hstep : step cfg e s = some s' := hstep
      cases e with
      | refresh env =>
          refine of_step (R := fun s' => Gone P s' ∨ IsWatched P s') hstep fun _ => ?_
          unfold exec
          rw [wp_bind]
          exact (gone_refreshWatchers hs.wf hs.held h (hup env rfl)).conseq fun _ _ h' => h'
      | notify env tw =>
          refine Or.inl (of_step hstep fun henabled => ?_)
          obtain ⟨t, hw, -⟩ := henabled
          exact gone_onNotify hs.wf h hw
      | upload =>
          exact Or.inl (of_step hstep fun _ => wp_uploadCollectingState (fun _ => trivial) h)
      | stop env => exact Or.inl (of_step hstep fun _ => gone_stop hs.wf h)

/-- What a refresh that unwatches `P` leaves of it. -/
theorem unwatches_step (hs : Sane s) (hun : Unwatches env P s tw t)
    (hstep : sessionStep cfg (.event (.refresh env)) s = some s') :
    s'.tails.find? P = none ∧
      (Gone P s' ↔ ∀ path, path ≠ t.path → s.peMap.find? ⟨P, path⟩ = none) ∧
      (getPath s'.peMap P = none → Gone P s') := by
  have hstep₀ : step cfg (.refresh env) s = some s' := hstep
  have hboth : Cleared P t.path s s' ∧ s'.Tidy := by
    refine of_step (R := fun s' => Cleared P t.path s s' ∧ s'.Tidy) hstep₀ fun henabled => ?_
    unfold exec
    rw [wp_bind]
    exact ((cleared_refreshWatchers hs.wf hs.held hun).and
      (tidy_refreshWatchers hs.wf ⟨hs.held, hs.marked henabled⟩)).conseq fun _ _ h' => h'
  obtain ⟨hcleared, hheld, hmarked⟩ := hboth
  exact ⟨hcleared.tail, hcleared.gone_iff hs.held hmarked, hcleared.gone_of_getPath hheld hmarked⟩

/-- As long as `P` is not watched again, nothing of it comes back. -/
theorem gone_since {s₀ : Manager} {as bs cs ds : List SessionEvent} (hs₀ : Sane s₀)
    (hread : Along (sessionStep cfg) Rereadable as s₀) (hagain : StartsAgain cfg s₀ as)
    (heq : as = bs ++ .event (.refresh env) :: (cs ++ ds))
    (hs : run (sessionStep cfg) bs s₀ = some s) (hun : Unwatches env P s tw t)
    (hstep : sessionStep cfg (.event (.refresh env)) s = some s') (hgone : Gone P s')
    {u : Manager} (hu : run (sessionStep cfg) cs s' = some u)
    (hnot : ∀ v, Visits (sessionStep cfg) cs s' v → ¬ IsWatched P v) : Gone P u := by
  have hsane : ∀ as u v, Sane u → run (sessionStep cfg) as u = some v → Sane v :=
    fun as u v => run_inv (fun _ _ _ h hstep => sane_step h hstep) as u v
  have hs' : Sane s' := sane_step (hsane bs s₀ s hs₀ hs) hstep
  -- by the events that have happened since
  refine run_inv_past (I := fun cs u => (∀ v, Visits (sessionStep cfg) cs s' v →
    ¬ IsWatched P v) → Gone P u) (fun _ => hgone) ?_ hu hnot
  intro cs₁ a cs₂ v v' hcs hv hstep' ih hnot'
  have hpast : UnwatchedSince cfg s₀ P (bs ++ .event (.refresh env) :: cs₁) v :=
    ⟨bs, env, cs₁, s, tw, t, s', rfl, hs, hun, hstep, hv, fun w hw => hnot' w hw.append⟩
  have hrun : run (sessionStep cfg) (bs ++ .event (.refresh env) :: cs₁) s₀ = some v := by
    rw [run_append, hs]
    exact run_cons_eq_some.mpr ⟨s', hstep, hv⟩
  have heq' : as = (bs ++ .event (.refresh env) :: cs₁) ++ a :: (cs₂ ++ ds) := by
    rw [heq, hcs]
    simp
  have hgone' : Gone P v' ∨ IsWatched P v' := by
    refine gone_step (hsane cs₁ s' v hs' hv) (ih fun w hw => hnot' w hw.append) ?_ ?_ hstep'
    · rintro env' rfl
      exact hagain _ env' _ P v heq' hpast
    · exact cond_of_along hrun (heq' ▸ hread)
  refine hgone'.resolve_right (hnot' v' (visits_of_run ?_))
  rw [run_append, hv]
  exact run_cons_eq_some.mpr ⟨v', hstep', rfl⟩

/-- **Unwatching is final**, from session to session, if and only if the patterns
that are unwatched have no entry but that of their watcher's path. -/
theorem unwatched_for_good_iff (cfg : Config) (file : List Byte) (as : List SessionEvent)
    (u : Manager) (hr : run (sessionStep cfg) as (Manager.init (reread file)) = some u)
    (hread : Along (sessionStep cfg) Rereadable as (Manager.init (reread file)))
    (hagain : StartsAgain cfg (Manager.init (reread file)) as) :
    UnwatchedForGood cfg (Manager.init (reread file)) as ↔
      Along (sessionStep cfg) Alone as (Manager.init (reread file)) := by
  have hsane : ∀ bs s, run (sessionStep cfg) bs (Manager.init (reread file)) = some s → Sane s :=
    fun bs s => run_inv (fun _ _ _ h hstep => sane_step h hstep) bs _ s (sane_init _)
  constructor
  · intro hgood
    refine along_of_cond fun bs a cs s heq hs => ?_
    cases a with
    | restart => trivial
    | event e =>
        cases e with
        | notify _ _ => trivial
        | upload => trivial
        | stop _ => trivial
        | refresh env =>
            intro P tw t hun
            -- the run goes on, so the refresh returned
            rw [heq, run_append, hs] at hr
            obtain ⟨s', hstep, -⟩ := run_cons_eq_some.mp hr
            obtain ⟨htail, hiff, hgone⟩ := unwatches_step (hsane bs s hs) hun hstep
            have hno : NoEntry P s' := by
              refine hgood (bs ++ [.event (.refresh env)]) cs P s' (by rw [heq]; simp)
                ⟨bs, env, [], s, tw, t, s', rfl, hs, hun, hstep, rfl, fun v hv => ?_⟩
              cases hv
              rintro ⟨tw', htw'⟩
              rw [htail] at htw'
              cases htw'
            exact hiff.mp (hgone hno.getPath)
  · rintro halone bs cs P v rfl ⟨bs', env, cs', s, tw, t, s', rfl, hs, hun, hstep, hv, hnot⟩
    have heq : bs' ++ .event (.refresh env) :: cs' ++ cs
        = bs' ++ .event (.refresh env) :: (cs' ++ cs) := by simp
    have halone' : Alone s (.event (.refresh env)) := cond_of_along hs (heq ▸ halone)
    have hgone : Gone P s' :=
      (unwatches_step (hsane bs' s hs) hun hstep).2.1.mpr (halone' P tw t hun)
    have hlast : Gone P v := gone_since (sane_init _) hread hagain heq hs hun hstep hgone hv hnot
    refine hlast.noEntry (hsane (bs' ++ .event (.refresh env) :: cs') v ?_).held
    rw [run_append, hs]
    exact run_cons_eq_some.mpr ⟨s', hstep, hv⟩

theorem mem_of_newConfs {members : List (Str × Option TaskConf)} {conf : TaskConf}
    (h : (newConfs members).find? P = some conf) : (P, some conf) ∈ members := by
  have hread : ∀ (members : List (Str × Option TaskConf)) (confs : OrdMap Str TaskConf),
      (readMembers members confs).find? P = some conf →
        (P, some conf) ∈ members ∨ confs.find? P = some conf := by
    intro members
    induction members with
    | nil => exact fun _ h => Or.inr h
    | cons m members ih =>
        intro confs h
        obtain ⟨name, item⟩ := m
        cases item with
        | none => exact (ih confs h).imp_left (List.mem_cons_of_mem _)
        | some item =>
            rcases ih _ h with h | h
            · exact Or.inl (List.mem_cons_of_mem _ h)
            · split at h
              · rcases OrdMap.find?_insert_eq_some.mp h with ⟨rfl, rfl⟩ | ⟨-, h⟩
                · exact Or.inl List.mem_cons_self
                · exact Or.inr h
              · exact Or.inr h
  exact (hread members OrdMap.empty h).resolve_right (by simp)

instance (s : Manager) : (a : SessionEvent) → Decidable (Rereadable s a)
  | .event _ => isTrue trivial
  | .restart => inferInstanceAs (Decidable (∀ l ∈ s.lines, Legible l.1))

instance (s : Manager) : (a : SessionEvent) → Decidable (Alone s a)
  | .event (.refresh env) => decidable_of_iff (∀ members, env.document = .object members →
        ∀ P tw, s.tails.find? P = some (some tw) → (newConfs members).find? P = none →
        ∀ t, s.watchers tw = some t → ∀ key pe, s.peMap.find? key = some pe →
        key.pathPattern = P → key.path = t.path) (by
      constructor
      · rintro h P tw t ⟨⟨members, hdoc, hconf⟩, htail, hw⟩ path hne
        refine Option.eq_none_iff_forall_ne_some.mpr fun pe hpe => hne ?_
        exact h members hdoc P tw htail hconf t hw _ pe hpe rfl
      · rintro h members hdoc P tw htail hconf t hw ⟨_, path⟩ pe hpe rfl
        by_contra hne
        have hnone := h _ tw t ⟨⟨members, hdoc, hconf⟩, htail, hw⟩ path hne
        cases hnone.symm.trans hpe)
  | .event (.notify ..) | .event .upload | .event (.stop _) | .restart => isTrue trivial

/-- A refresh that finds no pattern in the configuration. -/
def emptied : SessionEvent := .event (.refresh (idle (.object [])))

/-- "%H" is collected as "01" and unwatched before the session ends; the next
session collects it as "02", and it is unwatched again. -/
def unwatchedOnce : List SessionEvent :=
  [.event (hourlyRefresh [48, 49] [116]), emptied, .event (.stop (idle .parseError)), .restart,
    .event (hourlyRefresh [48, 50] [116]), emptied]

/-- The refreshes of `unwatchedOnce` can set up what they find. -/
theorem startsAgain_unwatchedOnce :
    StartsAgain sizes (Manager.init (reread [])) unwatchedOnce := by
  intro bs env cs P v heq _ members conf hdoc hconf _
  have hmem : SessionEvent.event (.refresh env) ∈ unwatchedOnce := heq ▸ by simp
  have hconf := mem_of_newConfs hconf
  have hhour : ∀ path topic, Event.refresh env = hourlyRefresh path topic →
      CanProduce env v.producers conf := by
    intro path topic henv
    cases henv
    cases hdoc
    obtain ⟨-, hitem⟩ := Prod.mk.inj (List.mem_singleton.mp hconf)
    cases Option.some.inj hitem
    exact ⟨List.mem_cons_self, Or.inr rfl⟩
  have hempty : SessionEvent.event (.refresh env) ≠ emptied := by
    rintro henv
    cases henv
    cases hdoc
    exact List.not_mem_nil hconf
  rcases List.mem_cons.mp hmem with hfirst | hmem
  · exact hhour _ _ (SessionEvent.event.inj hfirst)
  · simp only [List.mem_cons, hempty, SessionEvent.event.injEq, reduceCtorEq, List.not_mem_nil,
      false_or, or_false] at hmem
    exact hhour _ _ hmem

/-- "%H" is watched again in between, and has no entry once it is not. -/
theorem unwatched_for_good_iff_once :
    ∃ u, run (sessionStep sizes) unwatchedOnce (Manager.init (reread [])) = some u ∧
      (u.removed.map fun l => l.1.key) = [⟨[37, 72], [48, 50]⟩] ∧
      UnwatchedForGood sizes (Manager.init (reread [])) unwatchedOnce := by
  have hread : Along (sessionStep sizes) Rereadable unwatchedOnce (Manager.init (reread [])) := by
    decide +kernel
  have halone : Along (sessionStep sizes) Alone unwatchedOnce (Manager.init (reread [])) := by
    decide +kernel
  have h : (run (sessionStep sizes) unwatchedOnce (Manager.init (reread []))).any (fun u => decide
      ((u.removed.map fun l => l.1.key) = [⟨[37, 72], [48, 50]⟩])) = true := by
    decide +kernel
  obtain ⟨u, hu, h⟩ := (Option.any_eq_true _ _).mp h
  exact ⟨u, hu, of_decide_eq_true h, (unwatched_for_good_iff sizes [] unwatchedOnce u hu hread
    startsAgain_unwatchedOnce).mpr halone⟩

/-- "%H" is collected as "01"; the next session collects it as "02", and unwatches it. -/
def unwatchedLater : List SessionEvent :=
  [.event (hourlyRefresh [48, 49] [116]), .event (.stop (idle .parseError)), .restart,
    .event (hourlyRefresh [48, 50] [116])]

/-- The entry of "01" is still there. -/
theorem unwatched_for_good_fails :
    ∃ u, run (sessionStep sizes) (unwatchedLater ++ [emptied]) (Manager.init (reread [])) = some u ∧
      getPath u.peMap [37, 72] = some [48, 49] ∧
      ¬ UnwatchedForGood sizes (Manager.init (reread [])) (unwatchedLater ++ [emptied]) := by
  have hbefore : (run (sessionStep sizes) unwatchedLater (Manager.init (reread []))).map
      (fun s => (s.tails.find? [37, 72], (s.watchers 0).isSome)) = some (some (some 0), true) := by
    decide +kernel
  have hafter : (run (sessionStep sizes) (unwatchedLater ++ [emptied])
      (Manager.init (reread []))).map (fun u => (u.tails.find? [37, 72], getPath u.peMap [37, 72]))
      = some (none, some [48, 49]) := by
    decide +kernel
  obtain ⟨s, hs, hstate⟩ := Option.map_eq_some_iff.mp hbefore
  obtain ⟨u, hu, hlast⟩ := Option.map_eq_some_iff.mp hafter
  obtain ⟨htail, hwatcher⟩ := Prod.mk.inj hstate
  obtain ⟨hnone, hpath⟩ := Prod.mk.inj hlast
  obtain ⟨t, hw⟩ := Option.isSome_iff_exists.mp hwatcher
  refine ⟨u, hu, hpath, fun hgood => ?_⟩
  have hstep : sessionStep sizes emptied s = some u := by
    rw [run_append, hs] at hu
    obtain ⟨u', hstep, hnil⟩ := run_cons_eq_some.mp hu
    exact hstep.trans hnil
  have hno : NoEntry [37, 72] u := by
    refine hgood (unwatchedLater ++ [emptied]) [] [37, 72] u (by simp) ⟨unwatchedLater,
      idle (.object []), [], s, 0, t, u, rfl, hs, ⟨⟨[], rfl, rfl⟩, htail, hw⟩, hstep, rfl, ?_⟩
    rintro v hv ⟨tw, htw⟩
    cases hv
    rw [hnone] at htw
    cases htw
  rw [hno.getPath] at hpath
  cases hpath

end Logkafka
