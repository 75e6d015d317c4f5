/-
# `Logkafka.Manager.Rotate` — who is rotated

`onRotate` calls the Manager with the pattern, the path and the entry of the
calling watcher, and `updateWatcherRotate` looks in `m_tails` for the *path*,
while `m_tails` is keyed by pattern.  A watcher registered under `P` is found,
and is the one that is replaced, exactly when its path is `P`.

What the statement needs of the state is `Sound`: every registered watcher is
alive with its entry, is not queued for deletion, and has a task.  A run keeps
it as long as whoever hands over has its pattern for a path, or nothing comes of
it (`Keyed`).
-/
import Logkafka.Manager.Start

namespace Logkafka

open Prog PositionFile Manager

variable {cfg : Config} {env : Env} {P : Str} {tw : WatcherId} {t t' : TailWatcher}
  {s s' s'' : Manager}

/-- The watcher of `P`, if there is one, is alive with its entry. -/
def LiveAt (P : Str) (s : Manager) : Prop :=
  ∀ v, s.tails.find? P = some (some v) →
    ∃ t, s.watchers v = some t ∧ (s.slots t.positionEntry).isSome

structure Sound (s : Manager) : Prop where
  wf : s.Wf
  live : ∀ P, LiveAt P s
  undeleted : ∀ P v, s.tails.find? P = some (some v) → v ∉ s.tailsDeleted
  deleted_lt : ∀ v ∈ s.tailsDeleted, v < s.nextWatcher
  tasked : ∀ P, (s.tails.find? P).isSome → (s.tasks.find? P).isSome

/-- A watcher is stored under one pattern only. -/
theorem Sound.unique {Q : Str} (hs : Sound s) (hP : s.tails.find? P = some (some tw))
    (hQ : s.tails.find? Q = some (some tw)) : P = Q := by
  obtain ⟨t, hw, -⟩ := hs.live P tw hP
  exact (hs.wf.tails_pattern P tw t hP hw).symm.trans (hs.wf.tails_pattern Q tw t hQ hw)

/-! ## Live watchers

A refresh leaves every pattern it comes to with a watcher that is alive, or with
none, and with a task if it has a watcher.
-/

theorem stable_liveAt : Stable LiveAt := by
  intro P T s s' hP hf hs _ h v hv
  rw [hf.tails P hP] at hv
  obtain ⟨t, hw, halive⟩ := h v hv
  have ht : t.pathPattern = P := hs.tails_pattern P v t hv hw
  refine ⟨t, (hf.watchers v t (ht ▸ hP)).mpr hw, ?_⟩
  rw [hf.slots _ (by rw [hs.entry_pattern v t hw, ht]; exact hP)]
  exact halive

theorem LiveAt.local (h : LiveAt P s) (hl : Local tw P s s') (hw : s.watchers tw = some t)
    (hw' : s'.watchers tw = some t') (hpe : t'.positionEntry = t.positionEntry) : LiveAt P s' := by
  intro v hv
  obtain ⟨t₀, hv₀, halive⟩ := h v (hl.tails ▸ hv)
  by_cases hvw : v = tw
  · subst hvw
    cases hw.symm.trans hv₀
    exact ⟨t', hw', hpe ▸ hl.alive _ halive⟩
  · exact ⟨t₀, (hl.others v hvw).trans hv₀, hl.alive _ halive⟩

theorem LiveAt.started {T : Str → Prop} (h : LiveAt P s) (hst : Started T s s') : LiveAt P s' := by
  intro v hv
  rcases hst.tails P with heq | ⟨hnone, v', t', htail, hv', hfresh⟩
  · obtain ⟨t₀, hv₀, halive⟩ := h v (heq ▸ hv)
    exact ⟨t₀, hst.kept v t₀ hv₀, hst.slots _ halive⟩
  · cases htail.symm.trans hv
    rcases hst.new v t' hv' with hold | hnew
    · rw [hfresh] at hold
      cases hold
    · exact ⟨t', hv', hnew.alive⟩

theorem LiveAt.of_none (h : s.tails.find? P = none) : LiveAt P s := by
  intro v hv
  rw [h] at hv
  cases hv

/-- A round of `updateWatchers` leaves the pattern a live watcher, or none. -/
theorem LiveAt.updated (h : LiveAt P s) (hup : Updated env P s s') : LiveAt P s' := by
  cases hup with
  | same _ _ _ heq => exact heq ▸ h
  | moved _ _ _ hstop hstart _ => exact (LiveAt.of_none (hstop.tails P rfl)).started hstart
  | toggled hp _ _ hl hw' hf => exact h.local hl hp.watcher hw' hf.positionEntry
  | replaced _ _ _ _ _ _ hnew =>
      intro v hv
      rcases hnew with ⟨pe, htail, hv', halive⟩ | ⟨-, htail, -⟩
      · cases htail.symm.trans hv
        exact ⟨_, hv', halive⟩
      · rw [htail] at hv
        cases hv

theorem TasksRefreshed.live {confs : OrdMap Str TaskConf} (hr : TasksRefreshed confs s s')
    (hs : Sound s) : LiveAt P s' := by
  intro v hv
  rw [hr.tails] at hv
  obtain ⟨t, hw, halive⟩ := hs.live P v hv
  refine ⟨t, ?_, hr.slots ▸ halive⟩
  rw [hr.watchers, if_neg (hs.undeleted P v hv)]
  exact hw

/-- After a refresh every key of `m_tails` has a task. -/
theorem tasked_of_refresh {s₁ s₂ s₃ s₄ : Manager} (hstop : Stopped (· ∈ s₁.deletedKeys) s₁ s₂)
    (hstart : Started (· ∈ s₁.addedKeys.elems) s₂ s₃) (hf : Frame (· ∈ s₁.keptKeys.elems) s₃ s₄)
    (h : (s₄.tails.find? P).isSome) : (s₄.tasks.find? P).isSome := by
  rw [hf.tasks, hstart.frame.tasks, hstop.frame.tasks]
  by_contra hnone
  have hnot : P ∉ s₁.tasks.keys := OrdMap.not_mem_keys.mpr (Option.not_isSome_iff_eq_none.mp hnone)
  rw [hf.tails P fun hmem => hnot (OrdSet.mem_inter.mp hmem).2,
    hstart.frame.tails P fun hmem => hnot (OrdSet.mem_diff.mp hmem).1] at h
  by_cases hmem : P ∈ s₁.tails.keys
  · rw [hstop.tails P (OrdSet.mem_diff.mpr ⟨hmem, hnot⟩)] at h
    cases h
  · rw [hstop.frame.tails P fun hdel => hmem (OrdSet.mem_diff.mp hdel).1,
      OrdMap.not_mem_keys.mp hmem] at h
    cases h

theorem sound_refresh (hs : Sound s) :
    wp (refreshWatchers cfg env) (fun _ s' => Sound s') (fun _ => True) [] s := by
  refine wp_refreshWatchers hs.wf (fun _ => trivial) (fun confs => ?_) ?_
  · exact ⟨hs.wf.setTaskConfs, hs.live, hs.undeleted, hs.deleted_lt, hs.tasked⟩
  · intro members s₁ s₂ _ hr hs₁ hstop
    have hlive₂ : ∀ P, LiveAt P s₂ := by
      intro P
      by_cases hP : P ∈ s₁.deletedKeys
      · exact LiveAt.of_none (hstop.tails P hP)
      · exact stable_liveAt P _ s₁ s₂ hP hstop.frame hs₁ hstop.wf (hr.live hs)
    refine (wp_startWatchers (fun _ => trivial) _ s₂ hstop.wf).conseq fun _ s₃ hstart => ?_
    have hlive₃ : ∀ P, LiveAt P s₃ := fun P => (hlive₂ P).started hstart
    refine (wp_updateWatchers (fun _ => trivial) stable_liveAt stable_liveAt
      (fun _ _ _ _ => trivial) (fun _ _ _ _ _ _ h hup => h.updated hup) _ s₃ (OrdSet.nodup _)
      hstart.wf fun P _ => hlive₃ P).conseq ?_
    rintro _ s₄ ⟨hs₄, hf, hkept⟩
    have hdeleted : s₄.tailsDeleted = [] := by
      rw [hf.tailsDeleted, hstart.frame.tailsDeleted, hstop.frame.tailsDeleted, hr.tailsDeleted]
    refine ⟨hs₄, fun P => ?_, fun P v _ => ?_, fun v hv => ?_, fun P => ?_⟩
    · by_cases hP : P ∈ s₁.keptKeys.elems
      · exact hkept P hP
      · exact stable_liveAt P _ s₃ s₄ hP hf hstart.wf hs₄ (hlive₃ P)
    · rw [hdeleted]
      exact List.not_mem_nil
    · rw [hdeleted] at hv
      cases hv
    · exact tasked_of_refresh hstop hstart hf

/-! ## Handing over

The watcher found under the path is the calling one, or is not there, or is
active, in which case nothing is done.
-/

/-- The path of `t` is its pattern; or the watcher that is found under it, if
any, is active, and then `updateWatcherRotate` does nothing. -/
def KeyedAt (cfg : Config) (env : Env) (s : Manager) (t : TailWatcher) : Prop :=
  t.path = t.pathPattern ∨ ∀ v t', s.tails.find? t.path = some (some v) →
    s.watchers v = some t' → t'.isActive cfg env.now = true

instance : Decidable (KeyedAt cfg env s t) :=
  decidable_of_iff (t.path = t.pathPattern ∨ ∀ v, s.tails.find? t.path = some (some v) →
      ∀ t', s.watchers v = some t' → t'.isActive cfg env.now = true)
    (or_congr_right ⟨fun h v t' htail => h v htail t', fun h v htail t' => h v t' htail⟩)

theorem KeyedAt.path_eq {s₂ : Manager} {t₀ t₂ : TailWatcher} (h : KeyedAt cfg env s t)
    (hrel : Relieved cfg env P t.path s tw t₀ s₂ t₂) : t.path = t.pathPattern := by
  rcases h with hpath | hactive
  · exact hpath
  · have hinactive := hrel.inactive
    rw [hactive tw t₀ hrel.tail hrel.watcher] at hinactive
    cases hinactive

/-- Whoever hands over is found under its path, or nothing is done. -/
def Keyed (cfg : Config) (s : Manager) : Event → Prop
  | .notify env tw => ∀ t, s.watchers tw = some t → HandsOver env s t → KeyedAt cfg env s t
  | _ => True

instance (s : Manager) : (e : Event) → Decidable (Keyed cfg s e)
  | .notify env tw => inferInstanceAs
      (Decidable (∀ t, s.watchers tw = some t → HandsOver env s t → KeyedAt cfg env s t))
  | .refresh _ => isTrue trivial
  | .upload => isTrue trivial
  | .stop _ => isTrue trivial

theorem Sound.local (hs : Sound s) (hl : Local tw t.pathPattern s s')
    (hw : s.watchers tw = some t) (hw' : s'.watchers tw = some t')
    (hP : t'.pathPattern = t.pathPattern) (hpe : t'.positionEntry = t.positionEntry) :
    Sound s' where
  wf := hs.wf.local hl hw hw' hP hpe
  live P := by
    by_cases heq : P = t.pathPattern
    · subst heq
      exact (hs.live _).local hl hw hw' hpe
    · exact stable_liveAt P _ s s' heq (hl.frame hw hw' rfl hP) hs.wf (hs.wf.local hl hw hw' hP hpe)
        (hs.live P)
  undeleted P v hv := by
    rw [hl.tailsDeleted]
    exact hs.undeleted P v (hl.tails ▸ hv)
  deleted_lt v hv := by
    rw [hl.nextWatcher]
    exact hs.deleted_lt v (hl.tailsDeleted ▸ hv)
  tasked P hP := by
    rw [hl.tasks]
    exact hs.tasked P (hl.tails ▸ hP)

/-- The new watcher of `P` in its place, and the old one queued. -/
theorem Sound.handedOver (hs : Sound s) {ps : List Str} {new : TailWatcher}
    (htail : s.tails.find? P = some (some tw)) (hP : new.pathPattern = P)
    (hpe : new.positionEntry.key.pathPattern = P) (halive : (s.slots new.positionEntry).isSome) :
    Sound (s.handedOver P ps tw new) where
  wf := hs.wf.handedOver hP hpe
  live Q := by
    intro v hv
    rcases OrdMap.find?_insert_eq_some.mp hv with ⟨-, h⟩ | ⟨-, h⟩
    · cases h
      exact ⟨new, Function.update_self .., halive⟩
    · obtain ⟨t₀, hv₀, halive₀⟩ := hs.live Q v h
      exact ⟨t₀, (handedOver_of_lt (hs.wf.tails_lt Q v h)).trans hv₀, halive₀⟩
  undeleted Q v hv := by
    show v ∉ s.tailsDeleted ++ [tw]
    have hlt := hs.wf.tails_lt P tw htail
    rcases OrdMap.find?_insert_eq_some.mp hv with ⟨-, h⟩ | ⟨hne, h⟩
    · cases h
      intro hmem
      rcases List.mem_append.mp hmem with hmem | hmem
      · exact Nat.lt_irrefl _ (hs.deleted_lt _ hmem)
      · exact Nat.lt_irrefl _ (List.mem_singleton.mp hmem ▸ hlt)
    · intro hmem
      rcases List.mem_append.mp hmem with hmem | hmem
      · exact hs.undeleted Q v h hmem
      · obtain rfl := List.mem_singleton.mp hmem
        exact hne (hs.unique h htail)
  deleted_lt v hv := by
    show v < s.nextWatcher + 1
    rcases List.mem_append.mp hv with hv | hv
    · exact Nat.lt_succ_of_lt (hs.deleted_lt v hv)
    · obtain rfl := List.mem_singleton.mp hv
      exact Nat.lt_succ_of_lt (hs.wf.tails_lt P v htail)
  tasked Q hQ := by
    show (s.tasks.find? Q).isSome
    have hQ : ((s.tails.insert P (some s.nextWatcher)).find? Q).isSome := hQ
    rw [OrdMap.find?_insert] at hQ
    split at hQ
    · next heq =>
        subst heq
        exact hs.tasked Q (by rw [htail]; rfl)
    · exact hs.tasked Q hQ

theorem sound_onNotify (hs : Sound s) (hw : s.watchers tw = some t)
    (hkeyed : HandsOver env s t → KeyedAt cfg env s t) :
    wp (TailWatcher.onNotify cfg env tw) (fun _ s' => Sound s') (fun _ => True) [] s := by
  refine wp_onNotify_inv hs.wf (fun _ => trivial) hw hs ?_ fun hover => ?_
  · intro s₁ t₁ s' t' hs₁ hw₁ hl hw' hk₁ hk _
    exact hs₁.local (hk₁.pathPattern.symm ▸ hl) hw₁ hw' hk.pathPattern hk.positionEntry
  · intro tw' t₀ s₂ t₂ hrel
    obtain ⟨s₁, hl₁, hl₂⟩ := hrel.changes
    -- the watcher that is found has the pattern of the caller
    have htail := (hkeyed hover).path_eq hrel ▸ hrel.tail
    have ht₀ : t₀.pathPattern = t.pathPattern := hs.wf.tails_pattern _ tw' t₀ htail hrel.watcher
    have hl : Local tw' t₀.pathPattern s s₂ := hl₁.trans (ht₀ ▸ hl₂)
    have hsound₂ : Sound s₂ :=
      hs.local hl hrel.watcher hrel.closed hrel.kept.pathPattern hrel.kept.positionEntry
    refine ⟨fun _ => hsound₂, fun ps _ => ?_⟩
    refine hsound₂.handedOver (hl.tails ▸ htail) rfl (hs.wf.entry_pattern tw t hw) ?_
    obtain ⟨_, slot, _, _, _, hslot, _⟩ := hover
    have halive : (s.slots t.positionEntry).isSome := by
      rw [hslot]
      rfl
    exact hl.alive _ halive

theorem sound_step (e : Event) (s s' : Manager) (hs : Sound s) (hk : Keyed cfg s e)
    (h : step cfg e s = some s') : Sound s' := by
  refine of_step h fun henabled => ?_
  cases e with
  | refresh env =>
      unfold exec
      rw [wp_bind]
      exact sound_refresh hs
  | notify env tw =>
      obtain ⟨t, hw, -⟩ := henabled
      exact sound_onNotify hs hw (hk t hw)
  | upload => exact wp_uploadCollectingState (fun _ => trivial) hs
  | stop env =>
      refine wp_stop_manager hs.wf (fun _ => trivial) fun s' hstop => ?_
      have hnone : ∀ P, s'.tails.find? P = none := by
        intro P
        by_cases hP : P ∈ s.tails.keys
        · exact hstop.tails P hP
        · rw [hstop.frame.tails P hP]
          exact OrdMap.not_mem_keys.mp hP
      refine ⟨hstop.wf, fun P => LiveAt.of_none (hnone P), fun P v hv => ?_, fun v hv => ?_,
        fun P hP => ?_⟩
      · rw [hnone P] at hv
        cases hv
      · rw [hstop.frame.tailsDeleted] at hv
        exact Nat.lt_of_lt_of_le (hs.deleted_lt v hv) hstop.frame.nextWatcher
      · rw [hnone P] at hP
        cases hP

theorem sound_init (pf : OrdMap PositionEntryKey Slot) : Sound (Manager.init pf) where
  wf := wf_init pf
  live _ := LiveAt.of_none rfl
  undeleted _ _ h := by cases h
  deleted_lt _ h := by cases h
  tasked _ h := by cases h

theorem sound_run {pf : OrdMap PositionEntryKey Slot} {es : List Event}
    (halong : Along (step cfg) (Keyed cfg) es (Manager.init pf))
    (hrun : run (step cfg) es (Manager.init pf) = some s) : Sound s :=
  run_inv_along sound_step es _ s (sound_init pf) halong hrun

/-! ## The right watcher -/

/-- What `updateWatcherRotate` has done, when it returns `true`, for the watcher
`tw` of `P`. -/
structure RotatedTo (s : Manager) (P : Str) (tw : WatcherId) (t : TailWatcher) (s' : Manager) :
    Prop where
  new : ∃ new t', s.watchers new = none ∧ s'.tails.find? P = some (some new) ∧
    s'.watchers new = some t' ∧ t'.path = t.path ∧ t'.positionEntry = t.positionEntry
  stopped : ∃ old, s'.watchers tw = some old ∧ old.running = false
  queued : s'.tailsDeleted.count tw = 1
  others : ∀ Q, Q ≠ P → s'.tails.find? Q = s.tails.find? Q ∧
    ∀ v, s.tails.find? Q = some (some v) → ∃ tq, s.watchers v = some tq ∧ s'.watchers v = some tq

/-- The watcher that is looked up is the calling one, and it is replaced; no
crash but that of a half initialised watcher is possible. -/
def RotationRight (cfg : Config) (env : Env) (s : Manager) (P : Str) (tw : WatcherId)
    (t : TailWatcher) : Prop :=
  s.tails.find? t.path = some (some tw) ∧
    wp (updateWatcherRotate cfg env P t.path t.positionEntry)
      (fun ok s' => ok = true → RotatedTo s P tw t s')
      (fun f => f = .crash .unanswered ∨ f = .crash .halfInitialised) [.rotateHandler tw] s

theorem rotatedTo_of_relieved {s₂ : Manager} {t₂ : TailWatcher} (hs : Sound s) (hpath : t.path = P)
    (hrel : Relieved cfg env P P s tw t s₂ t₂) (ps : List Str) :
    RotatedTo s P tw t
      (s₂.handedOver P ps tw (TailWatcher.init P P t.positionEntry t.conf)) := by
  have htail := hrel.tail
  have ht : t.pathPattern = P := hs.wf.tails_pattern P tw t htail hrel.watcher
  have hl : Local tw P s s₂ := by
    obtain ⟨s₁, hl₁, hl₂⟩ := hrel.changes
    exact (ht ▸ hl₁).trans hl₂
  have hother : ∀ v, v < s.nextWatcher → (s₂.handedOver P ps tw
      (TailWatcher.init P P t.positionEntry t.conf)).watchers v = s₂.watchers v :=
    fun v hv => handedOver_of_lt (hl.nextWatcher.symm ▸ hv)
  refine ⟨⟨s₂.nextWatcher, _, ?_, OrdMap.find?_insert_self _ _ _, Function.update_self ..,
    hpath.symm, rfl⟩, ⟨t₂, ?_, hrel.stopped⟩, ?_, fun Q hQ => ⟨?_, fun v hv => ?_⟩⟩
  · rw [hl.nextWatcher]
    exact hs.wf.watchers_next
  · exact (hother tw (hs.wf.tails_lt P tw htail)).trans hrel.closed
  · show (s₂.tailsDeleted ++ [tw]).count tw = 1
    rw [hl.tailsDeleted, List.count_append,
      List.count_eq_zero_of_not_mem (hs.undeleted P tw htail)]
    simp
  · rw [← hl.tails]
    exact OrdMap.find?_insert_ne hQ _ _
  · obtain ⟨tq, hv', -⟩ := hs.live Q v hv
    have hne : v ≠ tw := fun heq => hQ (hs.unique (heq ▸ hv) htail)
    exact ⟨tq, hv', (hother v (hs.wf.tails_lt Q v hv)).trans ((hl.others v hne).trans hv')⟩

theorem rotationRight_of_keyed (hs : Sound s) (htail : s.tails.find? P = some (some tw))
    (hw : s.watchers tw = some t) (hpath : t.path = P) : RotationRight cfg env s P tw t := by
  refine ⟨hpath ▸ htail, ?_⟩
  obtain ⟨t₀, hw₀, halive⟩ := hs.live P tw htail
  cases hw.symm.trans hw₀
  have ht : t.pathPattern = P := hs.wf.tails_pattern P tw t htail hw
  have hP : t.positionEntry.key.pathPattern = P := (hs.wf.entry_pattern tw t hw).trans ht
  have hlt := hs.wf.watchers_lt tw t hw
  rw [hpath]
  refine wp_updateWatcherRotate hs.wf hP hlt (Or.inl rfl) (Or.inr rfl) ?_ ?_ ?_ ?_
  · rintro (hnone | hnone)
    · exact absurd htail (hnone tw)
    · have := hs.tasked P (by rw [htail]; rfl)
      rw [hnone] at this
      cases this
  · rintro (hnone | ⟨tw', htail', hnone⟩)
    · rw [hnone] at halive
      cases halive
    · cases htail.symm.trans htail'
      rw [hnone t hw] at halive
      cases halive
  · intro _ _ _ _ _ hfalse
    cases hfalse
  · intro tw' t' s₂ t₂ hrel
    cases htail.symm.trans hrel.tail
    cases hw.symm.trans hrel.watcher
    exact ⟨fun _ hfalse => absurd hfalse Bool.false_ne_true, fun ps _ _ =>
      rotatedTo_of_relieved hs hpath hrel ps⟩

/-- **When a rotation reaches the right watcher.**  In a run in which whoever
handed over had its pattern for a path, or found an active watcher: the Manager
finds and replaces the calling watcher of `P` if and only if its path is `P`. -/
theorem rotation_right_iff (cfg : Config) (env : Env) (pf : OrdMap PositionEntryKey Slot)
    (es : List Event) (halong : Along (step cfg) (Keyed cfg) es (Manager.init pf))
    (hrun : run (step cfg) es (Manager.init pf) = some s)
    (htail : s.tails.find? P = some (some tw)) (hw : s.watchers tw = some t) :
    RotationRight cfg env s P tw t ↔ t.path = P := by
  have hs := sound_run halong hrun
  constructor
  · intro h
    exact (hs.wf.tails_pattern _ tw t h.1 hw).symm.trans (hs.wf.tails_pattern P tw t htail hw)
  · exact rotationRight_of_keyed hs htail hw

/-! ## A pattern with a time format -/

/-- An empty file, and when it is read. -/
def emptyFile (inode : InoT) (h : inode ≠ inoNone) : FileStat := ⟨inode, ⟨0, by decide⟩, h⟩

theorem one_ne_none : (1 : InoT) ≠ inoNone := by decide

theorem two_ne_none : (2 : InoT) ≠ inoNone := by decide

/-- "%H" stands for "12", and the file there is `st`. -/
def atNoon (document : Document) (st : FileStat) : Env where
  now := 0
  document := document
  expandPath p := if p = [37, 72] then [49, 50] else p
  globed _ := none
  readable _ := true
  getInode _ := st.inode
  stat _ := some st
  fopen _ := some st
  producerInit _ := true
  triggersInit := true
  ioInit _ := true
  stopIo _ := ⟨emptyLog, 0, [.fread 0 0 false 0]⟩
  notifyIo _ := ⟨emptyLog, 0, [.fread 0 0 false 0]⟩

/-- The environment at another time; `events` is what its IO handlers do. -/
def Env.at (env : Env) (now : ℤ) (events : List IOHandler.Event) : Env :=
  { env with
    now := now
    stopIo := fun _ => ⟨emptyLog, now, [.fread 0 0 false 0]⟩
    notifyIo := fun _ => ⟨emptyLog, now, events⟩ }

/-- "b" and "c" are collected, and the file of "b" is replaced: its watcher hands
over to another one, which opens the new file. -/
def handedOnce : List Event :=
  let both : Document := .object [([98], some (plainConf true [98])),
    ([99], some (plainConf true [99]))]
  let idle : Env := atNoon .parseError (emptyFile 1 one_ne_none)
  let replaced : Env := atNoon both (emptyFile 2 two_ne_none)
  [.refresh (atNoon both (emptyFile 1 one_ne_none)), .notify idle 0, .notify idle 1,
    .notify (replaced.at 20000 []) 0, .refresh (replaced.at 20000 []),
    .notify (replaced.at 20000 [.fread 0 0 false 20000]) 2]

/-- The file of "b" is replaced a second time, and the watcher that took over gives
way to a third. -/
theorem rotation_right_iff_twice :
    ∃ s t s', run (step sizes) handedOnce (Manager.init OrdMap.empty) = some s ∧
      s.tails.find? [98] = some (some 2) ∧ s.tails.find? [99] = some (some 1) ∧
      HandsOver ((atNoon .parseError (emptyFile 3 (by decide))).at 40000 []) s t ∧
      updateWatcherRotate sizes ((atNoon .parseError (emptyFile 3 (by decide))).at 40000 []) [98]
        t.path t.positionEntry [.rotateHandler 2] s = .ok (true, s') ∧
      RotatedTo s [98] 2 t s' := by
  let again : Env := (atNoon .parseError (emptyFile 3 (by decide))).at 40000 []
  have h : ((run (step sizes) handedOnce (Manager.init OrdMap.empty)).any fun s =>
      (s.watchers 2).any fun t =>
        decide (s.tails.find? [98] = some (some 2) ∧ s.tails.find? [99] = some (some 1) ∧
          t.path = [98] ∧ HandsOver again s t) &&
        (leaves? (updateWatcherRotate sizes again [98] t.path t.positionEntry)
          [.rotateHandler 2] s).isSome) = true := by
    decide +kernel
  obtain ⟨s, hrun, h⟩ := (Option.any_eq_true _ _).mp h
  obtain ⟨t, hw, h⟩ := (Option.any_eq_true _ _).mp h
  obtain ⟨hs, hdone⟩ := Bool.and_eq_true_iff.mp h
  obtain ⟨s', hs'⟩ := Option.isSome_iff_exists.mp hdone
  obtain ⟨htail, hother, hpath, hover⟩ := of_decide_eq_true hs
  have halong : Along (step sizes) (Keyed sizes) handedOnce (Manager.init OrdMap.empty) := by
    decide +kernel
  have hright := (rotation_right_iff sizes again OrdMap.empty handedOnce halong hrun htail hw).mpr
    hpath
  have hdone := leaves?_eq_some.mp hs'
  exact ⟨s, t, s', hrun, htail, hother, hover, hdone, hright.2.ok hdone rfl⟩

/-- The watcher of "%H" reads "12", which is replaced by another file: the
lookup of "12" gives `NULL`. -/
theorem rotation_right_fails :
    ∃ s t, run (step sizes)
        [.refresh (atNoon (.object [([37, 72], some (plainConf true [37, 72]))])
          (emptyFile 1 (by decide))),
        .notify (atNoon .parseError (emptyFile 1 (by decide))) 0] (Manager.init OrdMap.empty)
        = some s ∧
      s.tails.find? [37, 72] = some (some 0) ∧ s.watchers 0 = some t ∧ t.path = [49, 50] ∧
      HandsOver (atNoon .parseError (emptyFile 2 (by decide))) s t ∧
      updateWatcherRotate sizes (atNoon .parseError (emptyFile 2 (by decide))) t.pathPattern t.path
        t.positionEntry [.rotateHandler 0] s = .error (.crash .nullPointer) :=
  ⟨_, _, rfl, rfl, rfl, rfl, ⟨_, _, _, rfl, rfl, rfl, rfl, rfl, by decide⟩, rfl⟩

end Logkafka
