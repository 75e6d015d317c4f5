/-
# `Logkafka.Manager.Tables` — no `NULL` in the table of the watchers

`setupWatcher` returns `NULL` where `OutputKafka::init` fails.  `startWatchers`
and `updateWatcherRotate` look at what they get and store a watcher or nothing.
`updateWatchers` stores it as it is: a pattern that is collected, and is edited
to settings that cannot be set up, has `NULL` for a watcher, and the next
refresh dereferences it.

    Unmade env P s      a round of `updateWatchers` for `P` stores `NULL`

A refresh leaves no `NULL` exactly when it finds no such pattern.
-/
import Logkafka.Manager.Changes
import Logkafka.Manager.Start

namespace Logkafka

open Manager PositionFile Prog

variable {cfg : Config} {env : Env} {P : Str} {tw : WatcherId} {t : TailWatcher}
  {s s' : Manager} {T : Str → Prop}

/-- No pattern of `T` has `NULL` for a watcher. -/
def Manager.NoNullIn (s : Manager) (T : Str → Prop) : Prop := ∀ P, T P → s.tails.find? P ≠ some none

/-- Every watcher in the table is there. -/
def Manager.NoNull (s : Manager) : Prop := ∀ P, s.tails.find? P ≠ some none

theorem Manager.NoNull.noNullIn (h : s.NoNull) : s.NoNullIn T := fun P _ => h P

theorem Manager.NoNullIn.of_tails (h : s.NoNullIn T) (htails : s'.tails = s.tails) :
    s'.NoNullIn T :=
  fun P hP => htails ▸ h P hP

theorem Manager.NoNullIn.register (h : s.NoNullIn T) {ps : List Str} :
    (s.register P ps t).NoNullIn T := by
  intro Q hQ hnull
  rcases OrdMap.find?_insert_eq_some.mp hnull with ⟨-, hnone⟩ | ⟨-, hnull⟩
  · cases hnone
  · exact h Q hQ hnull

theorem Manager.NoNullIn.unregister (h : s.NoNullIn T) : (s.unregister P tw).NoNullIn T :=
  fun Q hQ hnull => h Q hQ (OrdMap.find?_of_find?_erase hnull)

theorem Quiet.noNullIn (h : Quiet s s') (hs : s.NoNullIn T) : s'.NoNullIn T := hs.of_tails h.tails

/-- The patterns of `T` keep their watchers, whatever is started and stopped. -/
theorem tableInv_noNullIn : TableInv true fun s => s.NoNullIn T where
  quiet _ _ hq hs := hs.of_tails hq.tails
  register _ _ _ _ _ _ _ hs := hs.register
  unregister s s₁ P tw t _ _ hc hs := by
    have htails : (s₁.dropEntry ⟨t.pathPattern, t.path⟩).tails = s.tails :=
      (dropEntry_tails _).trans hc.quiet.tails
    exact (hs.of_tails htails).unregister

/-! ## Updating

The one place where what `setupWatcher` returns is stored without a look at it.
-/

/-- The output of `P` is changed to settings that cannot be set up. -/
def Unmade (env : Env) (P : Str) (s : Manager) : Prop :=
  ∃ task tw t, Watched s P task tw t ∧ task.conf.sameOutput t.conf = false ∧
    ¬ CanProduce env s.producers task.conf

theorem Watched.unmade_iff {task : Task} (hp : Watched s P task tw t) :
    Unmade env P s ↔ task.conf.sameOutput t.conf = false ∧
      ¬ CanProduce env s.producers task.conf := by
  constructor
  · rintro ⟨task', tw', t', hp', h⟩
    cases hp.task.symm.trans hp'.task
    cases hp.tail.symm.trans hp'.tail
    cases hp.watcher.symm.trans hp'.watcher
    exact h
  · exact fun h => ⟨task, tw, t, hp, h⟩

/-- The watcher of `P` is alive. -/
def Manned (s : Manager) (P : Str) : Prop :=
  ∃ tw t, s.tails.find? P = some (some tw) ∧ s.watchers tw = some t

/-- A round stores `NULL` exactly where the new watcher cannot be set up. -/
theorem noNull_updateWatchersBody {L : List Mutex} (hL : .tailWatchers ∈ L)
    (htask : P ∈ s.tasks.keys) (htail : ∃ tw, s.tails.find? P = some (some tw)) :
    wp (updateWatchersBody cfg env P) (fun _ s' => Sourced env s s' ∧ Manned s P ∧
      (s'.tails.find? P = some none ↔ Unmade env P s)) NotNull L s := by
  obtain ⟨task, htask⟩ := OrdMap.mem_keys.mp htask
  obtain ⟨tw, htail⟩ := htail
  have hnull : s.NoNullIn (· = P) := by
    rintro _ rfl
    rw [htail]
    simp
  refine wp_updateWatchersBody_quiet (fun _ h => h) hL (fun h => absurd htail (h task tw htask))
    ?_ ?_ ?_
  · intro task tw t hp hout
    refine ((tableInv_noNullIn (T := (· = P))).moveWatcher (fun _ h => h)
      (fun _ h hnone => absurd hnone (h P rfl)) hp.task hnull).conseq fun _ s₁ h => h.conseq ?_
    rintro _ s' ⟨hs', hsrc⟩
    refine ⟨hsrc, ⟨tw, t, hp.tail, hp.watcher⟩, ?_⟩
    rw [hp.unmade_iff, hout]
    exact iff_of_false (hs' P rfl) (by simp)
  · intro task tw t s' hp hout hq
    refine ⟨hq.sourced, ⟨tw, t, hp.tail, hp.watcher⟩, ?_⟩
    rw [hp.unmade_iff, hout, hq.tails]
    exact iff_of_false (hnull P rfl) (by simp)
  · intro task tw t s₁ s' pe hp hout hq₁ _
    rw [hp.unmade_iff]
    constructor
    · intro hcan ps hps hq
      have hfound : s'.tails.find? P = some (some s₁.nextWatcher) := by
        rw [hq.tails]
        exact OrdMap.find?_insert_self _ _ _
      refine ⟨⟨hq.tasks.trans hq₁.tasks, hq.producers ▸ hps⟩, ⟨tw, t, hp.tail, hp.watcher⟩, ?_⟩
      rw [hfound]
      exact iff_of_false (by simp) fun h => h.2 hcan
    · intro hcan hq
      refine ⟨⟨hq.tasks.trans hq₁.tasks, hq.producers.trans hq₁.producers ▸ Grows.refl⟩,
        ⟨tw, t, hp.tail, hp.watcher⟩, ?_⟩
      rw [hq.tails]
      exact iff_of_true (OrdMap.find?_insert_self _ _ _) ⟨hout, hcan⟩

theorem Frame.manned (hf : Frame T s s') (hP : ¬ T P) (hs' : s'.Wf) (h : Manned s' P) :
    Manned s P := by
  obtain ⟨tw, t, htail, hw⟩ := h
  have ht := hs'.tails_pattern P tw t htail hw
  refine ⟨tw, t, ?_, (hf.watchers tw t (ht ▸ hP)).mp hw⟩
  rw [← hf.tails P hP]
  exact htail

theorem Frame.unmade_iff (hf : Frame T s s') (hP : ¬ T P) (hs : s.Wf) (hs' : s'.Wf)
    (hg : Grows env s.producers s'.producers) : Unmade env P s' ↔ Unmade env P s := by
  unfold Unmade
  simp only [hf.watched_iff hP hs hs', hg.canProduce_iff]

/-- The loop stores `NULL` for the patterns that cannot be set up as it finds
them, and for no others. -/
theorem noNull_updateWatchers {ps : List Str} {s : Manager} (hnd : ps.Nodup) (hs : s.Wf)
    (hps : ∀ P ∈ ps, P ∈ s.tasks.keys ∧ ∃ tw, s.tails.find? P = some (some tw)) :
    wp (updateWatchers cfg env ps) (fun _ s' => s'.Wf ∧ True ∧ Frame (· ∈ ps) s s' ∧
      ∀ P ∈ ps, Manned s P ∧ (s'.tails.find? P = some none ↔ Unmade env P s))
      NotNull [.tailWatchers] s := by
  refine wp_updateWatchers_rounds (I := fun _ => True) (C := fun P s₁ => P ∈ s₁.tasks.keys ∧
    (∃ tw, s₁.tails.find? P = some (some tw)) ∧ (Manned s₁ P → Manned s P) ∧
      (Unmade env P s₁ ↔ Unmade env P s)) ?_ ?_ ?_ ps s hnd hs trivial fun P hP => ?_
  · rintro P T s₁ s₂ hP hf hs₁ hs₂ hsrc ⟨htask, htail, hmanned, hunmade⟩
    rw [hsrc.tasks, hf.tails P hP, hf.unmade_iff hP hs₁ hs₂ hsrc.grows]
    exact ⟨htask, htail, fun h => hmanned (hf.manned hP hs₂ h), hunmade⟩
  · rintro P T s₁ s₂ hP hf _ _ h
    rwa [hf.tails P hP]
  · rintro P s₁ _ _ ⟨htask, htail, hmanned, hunmade⟩
    refine (noNull_updateWatchersBody (by simp) htask htail).conseq ?_
    rintro _ s₂ ⟨hsrc, hm, hiff⟩
    exact ⟨trivial, hsrc, hmanned hm, hiff.trans hunmade⟩
  · exact ⟨(hps P hP).1, (hps P hP).2, id, Iff.rfl⟩

/-! ## A refresh

What the loop will find, said of the state before the refresh.
-/

/-- No kept pattern is edited to settings that cannot be set up. -/
def EditsSetUp (s : Manager) : Event → Prop
  | .refresh env => ∀ members P conf tw t, env.document = .object members →
      (newConfs members).find? P = some conf → s.tails.find? P = some (some tw) →
      s.watchers tw = some t → conf.sameOutput t.conf = false → CanProduce env s.producers conf
  | _ => True

instance (s : Manager) : (e : Event) → Decidable (EditsSetUp s e)
  | .refresh env => decidable_of_iff (∀ members, env.document = .object members →
      ∀ P tw, s.tails.find? P = some (some tw) → ∀ t, s.watchers tw = some t →
      ∀ conf, (newConfs members).find? P = some conf → conf.sameOutput t.conf = false →
      CanProduce env s.producers conf)
    ⟨fun h members P conf tw t hdoc hconf htail hw => h members hdoc P tw htail t hw conf hconf,
     fun h members hdoc P tw htail t hw conf hconf => h members P conf tw t hdoc hconf htail hw⟩
  | .notify .. | .upload | .stop _ => isTrue trivial

/-- What the refresh finds of a kept pattern, once the tasks are those of the
configuration, and before. -/
theorem TasksRefreshed.unmade_iff {confs : OrdMap Str TaskConf} (hr : TasksRefreshed confs s s')
    (hm : Manned s' P) :
    Unmade env P s' ↔ ∃ conf tw t, confs.find? P = some conf ∧ s.tails.find? P = some (some tw) ∧
      s.watchers tw = some t ∧ conf.sameOutput t.conf = false ∧
        ¬ CanProduce env s.producers conf := by
  constructor
  · rintro ⟨task, tw, t, hp, hout, hcan⟩
    refine ⟨task.conf, tw, t, ?_, hr.tails ▸ hp.tail, hr.watcher hp.watcher, hout,
      hr.producers ▸ hcan⟩
    rw [← hr.tasks P]
    exact congrArg (Option.map Task.conf) hp.task
  · rintro ⟨conf, tw, t, hconf, htail, hw, hout, hcan⟩
    obtain ⟨tw', t', htail', hw'⟩ := hm
    cases htail.symm.trans (hr.tails ▸ htail')
    cases hw.symm.trans (hr.watcher hw')
    obtain ⟨task, htask, rfl⟩ := Option.map_eq_some_iff.mp ((hr.tasks P).trans hconf)
    exact ⟨task, tw, t, ⟨htask, htail', hw'⟩, hout, hr.producers.symm ▸ hcan⟩

theorem noNull_refreshWatchers (hs : s.Wf) (hnull : s.NoNull) :
    wp (refreshWatchers cfg env) (fun _ s' => s'.NoNull ↔ EditsSetUp s (.refresh env)) NotNull []
      s := by
  refine (tableInv_noNullIn (T := fun _ => True)).refreshWatchers hs (fun _ h => h) ?_
    hnull.noNullIn ?_ ?_ ?_
  · exact fun s h P hP => absurd hP (h P trivial)
  · intro hdoc confs
    exact iff_of_true hnull fun members _ _ _ _ hdoc' => absurd hdoc' (hdoc members)
  · exact fun members s₁ _ hr => hnull.noNullIn.of_tails hr.tails
  · intro members s₁ s₃ hdoc hr _ hs₁ hs₃ hn₃ hsrc hf
    have hkept : ∀ P ∈ s₁.keptKeys, ¬ P ∉ s₁.keptKeys := fun P hP hnot => hnot hP
    refine (noNull_updateWatchers (OrdSet.nodup _) hs₃ fun P hP => ?_).conseq ?_
    · obtain ⟨htail, htask⟩ := OrdSet.mem_inter.mp hP
      refine ⟨hsrc.tasks ▸ htask, ?_⟩
      obtain ⟨v, hv⟩ := OrdMap.mem_keys.mp htail
      rw [← hf.tails P (hkept P hP)] at hv
      cases v with
      | none => exact absurd hv (hn₃ P trivial)
      | some tw => exact ⟨tw, hv⟩
    · rintro _ s₄ ⟨-, -, hf₄, hall⟩
      have hiff : ∀ P ∈ s₁.keptKeys, (s₄.tails.find? P = some none ↔
          ∃ conf tw t, (newConfs members).find? P = some conf ∧
            s.tails.find? P = some (some tw) ∧ s.watchers tw = some t ∧
            conf.sameOutput t.conf = false ∧ ¬ CanProduce env s.producers conf) := by
        intro P hP
        obtain ⟨hm, hP₄⟩ := hall P hP
        rw [hP₄, hf.unmade_iff (hkept P hP) hs₁ hs₃ hsrc.grows]
        exact hr.unmade_iff (hf.manned (hkept P hP) hs₃ hm)
      constructor
      · intro hn₄ members' P conf tw t hdoc' hconf htail hw hout
        cases hdoc.symm.trans hdoc'
        have hmem : P ∈ s₁.keptKeys := by
          refine OrdSet.mem_inter.mpr ⟨OrdMap.mem_keys.mpr ⟨some tw, hr.tails ▸ htail⟩, ?_⟩
          obtain ⟨task, htask, -⟩ := Option.map_eq_some_iff.mp ((hr.tasks P).trans hconf)
          exact OrdMap.mem_keys.mpr ⟨task, htask⟩
        by_contra hcan
        exact hn₄ P ((hiff P hmem).mpr ⟨conf, tw, t, hconf, htail, hw, hout, hcan⟩)
      · intro hC P hP
        by_cases hmem : P ∈ s₁.keptKeys
        · obtain ⟨conf, tw, t, hconf, htail, hw, hout, hcan⟩ := (hiff P hmem).mp hP
          exact hcan (hC members P conf tw t hdoc hconf htail hw hout)
        · exact hn₃ P trivial ((hf₄.tails P hmem).symm.trans hP)

/-! ## Every run

No other event stores a watcher that it has not looked at.
-/

theorem Manager.NoNull.local (h : s.NoNull) (hl : Local tw P s s') : s'.NoNull :=
  fun Q => hl.tails ▸ h Q

theorem Manager.NoNull.handedOver (h : s.NoNull) {ps : List Str} :
    (s.handedOver P ps tw t).NoNull := by
  intro Q hQ
  rcases OrdMap.find?_insert_eq_some.mp hQ with ⟨-, hnone⟩ | ⟨-, hQ⟩
  · cases hnone
  · exact h Q hQ

theorem noNull_onNotify (hs : s.Wf) (hnull : s.NoNull) (hw : s.watchers tw = some t) :
    wp (TailWatcher.onNotify cfg env tw) (fun _ s' => s'.NoNull) (fun _ => True) [] s := by
  refine wp_onNotify_inv hs (fun _ => trivial) hw hnull ?_ ?_
  · intro s₁ _ s' _ hn₁ _ hl _ _ _ _
    exact hn₁.local hl
  · intro _ tw' t' s₂ t₂ hrel
    obtain ⟨s₁, hl₁, hl₂⟩ := hrel.changes
    have hn₂ : s₂.NoNull := (hnull.local hl₁).local hl₂
    exact ⟨fun _ => hn₂, fun _ _ => hn₂.handedOver⟩

theorem noNull_exec {e : Event} (hs : s.Wf) (hnull : s.NoNull) (henabled : Enabled s e) :
    wp (exec cfg e) (fun _ s' => s'.NoNull ↔ EditsSetUp s e) (fun _ => True) [] s := by
  have hkept : ∀ {x : M Unit}, wp x (fun _ s' => s'.NoNull) (fun _ => True) [] s →
      wp x (fun _ s' => s'.NoNull ↔ True) (fun _ => True) [] s :=
    fun h => h.conseq fun _ _ h' => iff_of_true h' trivial
  cases e with
  | refresh env =>
      unfold exec
      rw [wp_bind]
      exact (noNull_refreshWatchers hs hnull).mono (fun _ _ h => h) fun _ _ => trivial
  | notify env tw =>
      obtain ⟨t, hw, -⟩ := henabled
      exact hkept (noNull_onNotify hs hnull hw)
  | upload => exact hkept (wp_uploadCollectingState (fun _ => trivial) hnull)
  | stop env =>
      refine hkept (wp_stop_manager hs (fun _ => trivial) fun s' hstop P hP => ?_)
      by_cases hmem : P ∈ s.tails.keys
      · rw [hstop.tails P hmem] at hP
        cases hP
      · exact hnull P ((hstop.frame.tails P hmem).symm.trans hP)

/-- There is no `NULL` in the table, and a refresh dereferences none, whatever
configuration it reads. -/
structure Sturdy (cfg : Config) (s : Manager) : Prop where
  noNull : s.NoNull
  refresh : ∀ env, refreshWatchers cfg env [] s ≠ .error (.crash .nullPointer)

theorem sturdy_of_noNull (hs : s.Wf) (hnull : s.NoNull) : Sturdy cfg s :=
  ⟨hnull, fun _ herror => (noNull_refreshWatchers hs hnull).error herror rfl⟩

theorem noNull_init (pf : OrdMap PositionEntryKey Slot) : (Manager.init pf).NoNull := by
  intro P hP
  cases hP

/-- **A failed setup in the tables.**  In every state of a run the table has no
`NULL`, and the next refresh dereferences none, if and only if no refresh of the
run edits a collected pattern to settings that cannot be set up. -/
theorem no_null_iff (cfg : Config) (pf : OrdMap PositionEntryKey Slot) (es : List Event)
    (t : Manager) (hr : run (step cfg) es (Manager.init pf) = some t) :
    (∀ u, Visits (step cfg) es (Manager.init pf) u → Sturdy cfg u) ↔
      Along (step cfg) EditsSetUp es (Manager.init pf) := by
  refine visits_iff_along (I := fun s => s.Wf ∧ s.NoNull) ?_ ?_ ⟨wf_init pf, noNull_init pf⟩
    (sturdy_of_noNull (wf_init pf) (noNull_init pf)) hr
  · rintro e s s' ⟨hs, hnull⟩ hC hstep
    have hs' := wf_step e s s' hs hstep
    have hnull' : s'.NoNull := (of_step hstep fun he => noNull_exec hs hnull he).mpr hC
    exact ⟨⟨hs', hnull'⟩, sturdy_of_noNull hs' hnull'⟩
  · rintro e s s' ⟨hs, hnull⟩ hC hstep hsturdy
    exact hC ((of_step hstep fun he => noNull_exec hs hnull he).mp hsturdy.noNull)

/-- The settings of `path`, for a codec that is not known. -/
def unknownCodec (path : Str) : TaskConf :=
  { plainConf true path with kafkaTopicConf := ⟨[], [116], [120], 1, [], 0, 0⟩ }

/-- "b" is collected; then its topic is edited, and "a" comes with an unknown
codec, while no new producer could be made; then "b" is disabled. -/
def unknownBeside : List Event :=
  [.refresh (idle (.object [([98], some (plainConf true [98]))])),
    .refresh { idle (.object [([97], some (unknownCodec [97])),
      ([98], some (otherConf true [98]))]) with producerInit := fun _ => false },
    .refresh (idle (.object [([97], some (unknownCodec [97])),
      ([98], some (otherConf false [98]))]))]

/-- "b" is set up again with the producer it had, "a" is not collected, and no
state has a `NULL`. -/
theorem no_null_iff_beside :
    ∃ t, run (step sizes) unknownBeside (Manager.init OrdMap.empty) = some t ∧
      t.tails.find? [97] = none ∧ t.tails.find? [98] = some (some 1) ∧
      ∀ u, Visits (step sizes) unknownBeside (Manager.init OrdMap.empty) u → Sturdy sizes u := by
  have halong : Along (step sizes) EditsSetUp unknownBeside (Manager.init OrdMap.empty) := by
    decide +kernel
  have h : (run (step sizes) unknownBeside (Manager.init OrdMap.empty)).any (fun t => decide
      (t.tails.find? [97] = none ∧ t.tails.find? [98] = some (some 1))) = true := by
    decide +kernel
  obtain ⟨t, ht, h⟩ := (Option.any_eq_true _ _).mp h
  obtain ⟨ha, hb⟩ := of_decide_eq_true h
  exact ⟨t, ht, ha, hb, (no_null_iff sizes OrdMap.empty unknownBeside t ht).mpr halong⟩

/-- "b" is collected; then its codec is changed to one that is not known, and the
refresh after that dereferences `NULL`. -/
theorem no_null_fails :
    ∃ s, run (step sizes) [.refresh (idle (.object [([98], some (plainConf true [98]))])),
        .refresh (idle (.object [([98], some (unknownCodec [98]))]))] (Manager.init OrdMap.empty)
        = some s ∧
      s.tails.find? [98] = some none ∧
      refreshWatchers sizes (idle (.object [([98], some (unknownCodec [98]))])) [] s
        = .error (.crash .nullPointer) :=
  ⟨_, rfl, rfl, rfl⟩

end Logkafka
