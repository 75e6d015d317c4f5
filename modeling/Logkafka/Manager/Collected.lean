/-
# `Logkafka.Manager.Collected` — exactly the enabled patterns are collected

What a pattern should look like between two events is `CollectedAt`: only the
registered watcher of it runs, and it runs if and only if the task is enabled.

`updateWatchers` takes the old watcher and the new configuration through four
conditional steps.  Where only `valid` changed, or nothing, they end well.
Where the output changed the watcher is replaced, the new one always runs, and
the last two steps look at the flag of the *old* one:

    old \ new   enabled                    disabled
    enabled     right                      the new one runs
    disabled    both run                   the new one runs

So a refresh is right exactly when every pattern whose output changed was
enabled and stays so (`Mild`); one that is not leaves a watcher that should not
run (`Stray`).
-/
import Logkafka.Manager.Locks

namespace Logkafka

open Prog PositionFile Manager

variable {cfg : Config} {env : Env} {P Q : Str} {tw : WatcherId} {t t' : TailWatcher}
  {s s' s'' : Manager} {T : Str → Prop} {producers : List Str}

/-- No watcher of `P` runs but the registered one, which runs as its settings
say. -/
structure SteadyAt (P : Str) (s : Manager) : Prop where
  sole : ∀ v t, s.watchers v = some t → t.pathPattern = P → t.running = true →
    s.tails.find? P = some (some v)
  runs : ∀ v t, s.tails.find? P = some (some v) → s.watchers v = some t →
    t.running = t.conf.valid
  present : s.tails.find? P ≠ some none

/-- The watcher of `P` is enabled if its task is. -/
def MatchesAt (P : Str) (s : Manager) : Prop :=
  ∀ v t task, s.tails.find? P = some (some v) → s.watchers v = some t →
    s.tasks.find? P = some task → t.conf.valid = task.conf.valid

structure CollectedAt (P : Str) (s : Manager) : Prop extends SteadyAt P s where
  matching : MatchesAt P s

/-- A watcher of `P`, which is kept, runs although it is not the registered one
or its task is disabled. -/
def Stray (P : Str) (s : Manager) : Prop :=
  ∃ v t x task, s.watchers v = some t ∧ t.pathPattern = P ∧ t.running = true ∧
    s.tails.find? P = some x ∧ s.tasks.find? P = some task ∧
    (x = some v → task.conf.valid = false)

/-- Every kept pattern has one watcher stored, which runs if and only if its
task is enabled, and no other watcher of it runs. -/
def ExactlyEnabled (s : Manager) : Prop :=
  ∀ P task x, s.tasks.find? P = some task → s.tails.find? P = some x →
    ∃ v t, x = some v ∧ s.watchers v = some t ∧ (t.running = true ↔ task.conf.valid = true) ∧
      ∀ v' t', s.watchers v' = some t' → t'.pathPattern = P → t'.running = true → v' = v

theorem exactlyEnabled_of_collected (hs : Sound s) (h : ∀ P, CollectedAt P s) :
    ExactlyEnabled s := by
  intro P task x htask htail
  cases x with
  | none => exact absurd htail (h P).present
  | some v =>
      obtain ⟨t, hw, -⟩ := hs.live P v htail
      refine ⟨v, t, rfl, hw, ?_, fun v' t' hw' hP' hrun' => ?_⟩
      · rw [(h P).runs v t htail hw, (h P).matching v t task htail hw htask]
      · have := (h P).sole v' t' hw' hP' hrun'
        rw [htail] at this
        cases this
        rfl

theorem Stray.not_exactlyEnabled (h : Stray P s) : ¬ ExactlyEnabled s := by
  obtain ⟨v, t, x, task, hw, hP, hrun, htail, htask, hdis⟩ := h
  intro hexact
  obtain ⟨v₀, t₀, rfl, hw₀, hiff, hsole⟩ := hexact P task x htask htail
  obtain rfl := hsole v t hw hP hrun
  cases hw.symm.trans hw₀
  have hvalid := hiff.mp hrun
  rw [hdis rfl] at hvalid
  cases hvalid

/-! ## Work for other patterns -/

theorem stable_steadyAt : Stable SteadyAt := by
  intro P T s s' hP hf _ hs' h
  refine ⟨fun v t hw ht hrun => ?_, fun v t htail hw => ?_, ?_⟩
  · rw [hf.tails P hP]
    exact h.sole v t ((hf.watchers v t (ht ▸ hP)).mp hw) ht hrun
  · have ht := hs'.tails_pattern P v t htail hw
    exact h.runs v t (hf.tails P hP ▸ htail) ((hf.watchers v t (ht ▸ hP)).mp hw)
  · rw [hf.tails P hP]
    exact h.present

theorem stable_matchesAt : Stable MatchesAt := by
  intro P T s s' hP hf _ hs' h v t task htail hw htask
  have ht := hs'.tails_pattern P v t htail hw
  exact h v t task (hf.tails P hP ▸ htail) ((hf.watchers v t (ht ▸ hP)).mp hw) (hf.tasks ▸ htask)

theorem stable_collectedAt : Stable CollectedAt := fun P T s s' hP hf hs hs' h =>
  { stable_steadyAt P T s s' hP hf hs hs' h.toSteadyAt with
    matching := stable_matchesAt P T s s' hP hf hs hs' h.matching }

theorem stable_stray : Stable Stray := by
  rintro P T s s' hP hf _ _ ⟨v, t, x, task, hw, ht, hrun, htail, htask, hdis⟩
  exact ⟨v, t, x, task, (hf.watchers v t (ht ▸ hP)).mpr hw, ht, hrun,
    (hf.tails P hP).trans htail, hf.tasks.symm ▸ htask, hdis⟩

/-! ## A watcher that goes on, one that is started, one that is stopped -/

theorem CollectedAt.local (h : CollectedAt P s) (hl : Local tw Q s s')
    (hw : s.watchers tw = some t) (hw' : s'.watchers tw = some t') (hk : Kept t t')
    (hrun : t'.running = t.running) : CollectedAt P s' where
  sole v t₀ hv hP hrun₀ := by
    rw [hl.tails]
    rcases hl.watcher hw' hv with ⟨rfl, rfl⟩ | ⟨-, hv⟩
    · exact h.sole v t hw (hk.pathPattern ▸ hP) (hrun ▸ hrun₀)
    · exact h.sole v t₀ hv hP hrun₀
  runs v t₀ htail hv := by
    rw [hl.tails] at htail
    rcases hl.watcher hw' hv with ⟨rfl, rfl⟩ | ⟨-, hv⟩
    · rw [hrun, hk.conf]
      exact h.runs v t htail hw
    · exact h.runs v t₀ htail hv
  present := hl.tails ▸ h.present
  matching v t₀ task htail hv htask := by
    rw [hl.tails] at htail
    rw [hl.tasks] at htask
    rcases hl.watcher hw' hv with ⟨rfl, rfl⟩ | ⟨-, hv⟩
    · rw [hk.conf]
      exact h.matching v t task htail hw htask
    · exact h.matching v t₀ task htail hv htask

theorem SteadyAt.started (h : SteadyAt P s) (hst : Started T s s') : SteadyAt P s' where
  sole v t hw hP hrun := by
    rcases hst.new v t hw with hold | hnew
    · have htail := h.sole v t hold hP hrun
      rcases hst.tails P with heq | ⟨hnone, -⟩
      · exact heq ▸ htail
      · rw [htail] at hnone
        cases hnone
    · exact hP ▸ hnew.registered
  runs v t htail hw := by
    rcases hst.new v t hw with hold | hnew
    · rcases hst.tails P with heq | ⟨-, v', t', htail', -, hfresh⟩
      · exact h.runs v t (heq ▸ htail) hold
      · cases htail'.symm.trans htail
        rw [hfresh] at hold
        cases hold
    · obtain ⟨task, -, hvalid, hconf⟩ := hnew.task
      rw [hnew.running, hconf, hvalid]
  present := by
    rcases hst.tails P with heq | ⟨-, v', t', htail', -⟩
    · exact heq ▸ h.present
    · intro hnull
      rw [htail'] at hnull
      cases hnull

/-- A pattern without a watcher is given one for its task, or none. -/
theorem matchesAt_of_started (hnone : s.tails.find? P = none) (hst : Started T s s') :
    MatchesAt P s' := by
  intro v t task htail hw htask
  rcases hst.new v t hw with hold | hnew
  · rcases hst.tails P with heq | ⟨-, v', t', htail', -, hfresh⟩
    · rw [heq, hnone] at htail
      cases htail
    · cases htail'.symm.trans htail
      rw [hfresh] at hold
      cases hold
  · have hP := hst.wf.tails_pattern P v t htail hw
    obtain ⟨task', htask', -, hconf⟩ := hnew.task
    rw [hP] at htask'
    cases htask.symm.trans htask'
    rw [hconf]

/-- With the watcher of `P` deleted, none of `P` runs. -/
theorem SteadyAt.stopped (h : SteadyAt P s) (hst : Stopped T s s') (hP : T P) :
    SteadyAt P s' := by
  have hnone := hst.tails P hP
  refine ⟨fun v t hw ht hrun => ?_, fun v t htail _ => ?_, ?_⟩
  · have htail := h.sole v t (hst.shrinks v t hw) ht hrun
    rw [hst.gone P v hP htail] at hw
    cases hw
  · rw [hnone] at htail
    cases htail
  · rw [hnone]
    exact fun hnull => by cases hnull

theorem TasksRefreshed.steadyAt {confs : OrdMap Str TaskConf} (hr : TasksRefreshed confs s s')
    (h : SteadyAt P s) : SteadyAt P s' where
  sole v t hw hP hrun := by
    rw [hr.tails]
    exact h.sole v t (hr.watcher hw) hP hrun
  runs v t htail hw := h.runs v t (hr.tails ▸ htail) (hr.watcher hw)
  present := hr.tails ▸ h.present

/-! ## One round of `updateWatchers`

The four outcomes of a round against the table of the header.  `MildAt` is what
keeps the last row away, and a round that is not mild leaves a `Stray`.
-/

/-- If the new configuration changes the output of `P`, then `P` is enabled in
it and its watcher is. -/
def MildAt (confs : OrdMap Str TaskConf) (P : Str) (s : Manager) : Prop :=
  ∀ tw t conf, s.tails.find? P = some (some tw) → s.watchers tw = some t →
    confs.find? P = some conf → conf.sameOutput t.conf = false →
    conf.valid = true ∧ t.conf.valid = true

def Mild (confs : OrdMap Str TaskConf) (s : Manager) : Prop := ∀ P, MildAt confs P s

instance {confs : OrdMap Str TaskConf} : Decidable (Mild confs s) :=
  decidable_of_iff (∀ P tw, s.tails.find? P = some (some tw) → ∀ t, s.watchers tw = some t →
      ∀ conf, confs.find? P = some conf → conf.sameOutput t.conf = false →
      conf.valid = true ∧ t.conf.valid = true)
    ⟨fun h P tw t conf htail hw => h P tw htail t hw conf,
     fun h P tw htail t hw conf => h P tw t conf htail hw⟩

theorem mildAt_iff_of_frame {confs : OrdMap Str TaskConf} (hP : ¬ T P) (hf : Frame T s s')
    (hs : s.Wf) (hs' : s'.Wf) : MildAt confs P s' ↔ MildAt confs P s := by
  unfold MildAt
  rw [hf.tails P hP]
  constructor
  · intro h v t conf htail hw
    exact h v t conf htail ((hf.watcher_iff hP hs hs' htail).mpr hw)
  · intro h v t conf htail hw
    exact h v t conf htail ((hf.watcher_iff hP hs hs' htail).mp hw)

/-- The task of `P` is as the configuration says, and it can be set up. -/
def ConfiguredAt (env : Env) (confs : OrdMap Str TaskConf) (P : Str) (s : Manager) : Prop :=
  ∀ task, s.tasks.find? P = some task →
    confs.find? P = some task.conf ∧ env.SetsUp s.producers task.conf

/-- Work for other patterns loses no producer. -/
theorem ConfiguredAt.of_frame {confs : OrdMap Str TaskConf} (h : ConfiguredAt env confs P s)
    (hf : Frame T s s') : ConfiguredAt env confs P s' := by
  intro task htask
  obtain ⟨hconf, hup⟩ := h task (hf.tasks ▸ htask)
  exact ⟨hconf, hup.mono hf.producers⟩

theorem Watched.mildAt_iff {confs : OrdMap Str TaskConf} {task : Task}
    (hp : Watched s P task tw t) (hconf : confs.find? P = some task.conf) :
    MildAt confs P s ↔ (task.conf.sameOutput t.conf = false →
      task.conf.valid = true ∧ t.conf.valid = true) := by
  constructor
  · exact fun h => h tw t task.conf hp.tail hp.watcher hconf
  · intro h tw' t' conf htail hw hconf'
    cases hp.tail.symm.trans htail
    cases hp.watcher.symm.trans hw
    cases hconf.symm.trans hconf'
    exact h

/-- Only `valid` changed, and the watcher was made to follow it. -/
theorem SteadyAt.toggled {task : Task} (h : SteadyAt P s) (hp : Watched s P task tw t)
    (hne : task.conf.valid ≠ t.conf.valid) (hl : Local tw P s s') (hw' : s'.watchers tw = some t')
    (hf : Follows task.conf.valid t t') : CollectedAt P s' where
  sole v t₀ hv hP hrun := by
    rw [hl.tails]
    rcases hl.watcher hw' hv with ⟨rfl, -⟩ | ⟨-, hv⟩
    · exact hp.tail
    · exact h.sole v t₀ hv hP hrun
  runs v t₀ htail hv := by
    rw [hl.tails] at htail
    cases hp.tail.symm.trans htail
    cases hw'.symm.trans hv
    rw [hf.running hne, hf.valid]
  present := hl.tails ▸ h.present
  matching v t₀ task' htail hv htask := by
    rw [hl.tails] at htail
    rw [hl.tasks] at htask
    cases hp.tail.symm.trans htail
    cases hw'.symm.trans hv
    cases hp.task.symm.trans htask
    exact hf.valid

/-- The watcher was replaced by an enabled one, and is left stopped. -/
theorem SteadyAt.replaced {conf : TaskConf} {path : Str} {pe : EntryId} {new : WatcherId}
    (h : SteadyAt P s) (hreg : s.tails.find? P = some (some tw)) (hvalid : conf.valid = true)
    (htask : ∀ task, s'.tasks.find? P = some task → task.conf.valid = true)
    (hold : s'.watchers tw = some t') (hrun : t'.running = false)
    (others : ∀ v, v ≠ tw → v ≠ new → s'.watchers v = s.watchers v)
    (htail : s'.tails.find? P = some (some new))
    (hnew : s'.watchers new = some (TailWatcher.init P path pe conf)) : CollectedAt P s' where
  sole v t₀ hv hP hrun₀ := by
    by_cases hvn : v = new
    · exact hvn ▸ htail
    · by_cases hvw : v = tw
      · subst hvw
        cases hold.symm.trans hv
        rw [hrun] at hrun₀
        cases hrun₀
      · have := h.sole v t₀ (others v hvw hvn ▸ hv) hP hrun₀
        rw [hreg] at this
        cases this
        exact absurd rfl hvw
  runs v t₀ htail₀ hv := by
    cases htail.symm.trans htail₀
    cases hnew.symm.trans hv
    exact hvalid.symm
  present := by
    rw [htail]
    exact fun hnull => by cases hnull
  matching v t₀ task htail₀ hv htask' := by
    cases htail.symm.trans htail₀
    cases hnew.symm.trans hv
    exact hvalid.trans (htask task htask').symm

/-- **One round**: from any old settings to any new ones it ends with the
pattern collected, or with a stray watcher where it is not `MildAt`. -/
theorem collectedAt_of_updated {confs : OrdMap Str TaskConf} (hs : s.Wf)
    (hframe : Frame (· = P) s s') (h : SteadyAt P s) (hconf : ConfiguredAt env confs P s)
    (hup : Updated env P s s') :
    (MildAt confs P s → CollectedAt P s') ∧ (¬ MildAt confs P s → Stray P s') := by
  cases hup with
  | @same task tw t hp hsame _ heq =>
      obtain ⟨hvalid, hout⟩ := (TaskConf.same_iff _ _).mp hsame
      refine ⟨fun _ => ?_, fun hmild => absurd ?_ hmild⟩
      · subst heq
        refine { h with matching := fun v t₀ task' htail hw htask => ?_ }
        cases hp.tail.symm.trans htail
        cases hp.watcher.symm.trans hw
        cases hp.task.symm.trans htask
        exact hvalid.symm
      · rw [hp.mildAt_iff (hconf task hp.task).1, hout]
        exact fun hfalse => by cases hfalse
  | @moved task tw t s₁ hp hsame _ hstop hstart hnew =>
      have hout := ((TaskConf.same_iff _ _).mp hsame).2
      refine ⟨fun _ => ?_, fun hmild => absurd ?_ hmild⟩
      · exact { (h.stopped hstop rfl).started hstart with
          matching := matchesAt_of_started (hstop.tails P rfl) hstart }
      · rw [hp.mildAt_iff (hconf task hp.task).1, hout]
        exact fun hfalse => by cases hfalse
  | @toggled task tw t t' hp hne hout hl hw' hf =>
      refine ⟨fun _ => h.toggled hp hne hl hw' hf, fun hmild => absurd ?_ hmild⟩
      rw [hp.mildAt_iff (hconf task hp.task).1, hout]
      exact fun hfalse => by cases hfalse
  | @replaced task tw t t' hp hout hold hP hrun others hnew =>
      obtain ⟨hconfP, hsets⟩ := hconf task hp.task
      have hlt := hs.watchers_lt tw t hp.watcher
      rw [hp.mildAt_iff hconfP]
      rcases hnew with ⟨pe, htail, hv', -⟩ | ⟨hfail, -⟩
      · refine ⟨fun hmild => ?_, fun hmild => ?_⟩
        · obtain ⟨hvalid, hwas⟩ := hmild hout
          refine h.replaced hp.tail hvalid (fun task' htask' => ?_) hold ?_ others htail hv'
          · rw [hframe.tasks] at htask'
            cases hp.task.symm.trans htask'
            exact hvalid
          · rw [hrun, hwas]
            cases task.conf.valid <;> rfl
        · have htask : s'.tasks.find? P = some task := hframe.tasks.symm ▸ hp.task
          cases hvalid : task.conf.valid with
          | false =>
              -- the new watcher runs, for a disabled task
              exact ⟨_, _, _, task, hv', rfl, rfl, htail, htask, fun _ => hvalid⟩
          | true =>
              -- the old watcher runs as well
              have hwas : t.conf.valid = false := by
                cases hwas : t.conf.valid with
                | false => rfl
                | true => exact absurd (fun _ => ⟨hvalid, hwas⟩) hmild
              refine ⟨tw, t', _, task, hold, hP, ?_, htail, htask, fun heq => ?_⟩
              · rw [hrun, hvalid, hwas]
                rfl
              · cases heq
                exact absurd hlt (Nat.lt_irrefl _)
      · exact absurd hsets hfail

/-- A pattern as the loop of `updateWatchers` finds it; `mild` says of each
pattern whether the refresh is mild to it. -/
structure ReadyAt (env : Env) (confs : OrdMap Str TaskConf) (mild : Str → Prop) (P : Str)
    (s : Manager) : Prop where
  steady : SteadyAt P s
  configured : ConfiguredAt env confs P s
  mildAt : MildAt confs P s ↔ mild P

/-- What the loop makes of it. -/
def DoneAt (mild : Str → Prop) (P : Str) (s : Manager) : Prop :=
  (mild P → CollectedAt P s) ∧ (¬ mild P → Stray P s)

theorem stable_readyAt {confs : OrdMap Str TaskConf} {mild : Str → Prop} :
    Stable (ReadyAt env confs mild) := fun P T s s' hP hf hs hs' h =>
  ⟨stable_steadyAt P T s s' hP hf hs hs' h.steady, h.configured.of_frame hf,
    (mildAt_iff_of_frame hP hf hs hs').trans h.mildAt⟩

theorem stable_doneAt {mild : Str → Prop} : Stable (DoneAt mild) := fun P T s s' hP hf hs hs' h =>
  ⟨fun hmild => stable_collectedAt P T s s' hP hf hs hs' (h.1 hmild),
    fun hmild => stable_stray P T s s' hP hf hs hs' (h.2 hmild)⟩

theorem wp_updateWatchers_done {confs : OrdMap Str TaskConf} {mild : Str → Prop} (ps : List Str)
    (s : Manager) (hnd : ps.Nodup) (hs : s.Wf) (h : ∀ P ∈ ps, ReadyAt env confs mild P s) :
    wp (updateWatchers cfg env ps)
      (fun _ s' => s'.Wf ∧ Frame (· ∈ ps) s s' ∧ ∀ P ∈ ps, DoneAt mild P s') (fun _ => True)
      [.tailWatchers] s := by
  refine wp_updateWatchers (fun _ => trivial) stable_readyAt stable_doneAt
    (fun _ _ _ _ => trivial) ?_ ps s hnd hs h
  intro P s s' hs _ hf hready hup
  have hround := collectedAt_of_updated hs hf hready.steady hready.configured hup
  rwa [hready.mildAt] at hround

/-! ## A refresh

The parts of `refreshWatchers` in their order, pattern by pattern: what the loop of
`updateWatchers` finds, and what it makes of it.
-/

theorem TasksRefreshed.mildAt_iff {confs confs' : OrdMap Str TaskConf}
    (hr : TasksRefreshed confs s s') (hs : Sound s) : MildAt confs' P s' ↔ MildAt confs' P s := by
  unfold MildAt
  rw [hr.tails]
  have hwatcher : ∀ v, s.tails.find? P = some (some v) → s'.watchers v = s.watchers v := by
    intro v htail
    rw [hr.watchers, if_neg (hs.undeleted P v htail)]
  constructor
  · intro h v t conf htail hw
    exact h v t conf htail ((hwatcher v htail).trans hw)
  · intro h v t conf htail hw
    exact h v t conf htail ((hwatcher v htail).symm.trans hw)

/-- The watcher of a pattern that is not kept is not replaced. -/
theorem TasksRefreshed.mildAt_of_not_kept {confs : OrdMap Str TaskConf}
    (hr : TasksRefreshed confs s s') (hP : P ∉ s'.keptKeys) : MildAt confs P s := by
  intro tw t conf htail _ hconf _
  obtain ⟨task, htask, -⟩ := confAt_eq_some.mp ((hr.tasks P).trans hconf)
  refine absurd (OrdSet.mem_inter.mpr ⟨OrdMap.mem_keys.mpr ⟨some tw, ?_⟩,
    OrdMap.mem_keys.mpr ⟨task, htask⟩⟩) hP
  rw [hr.tails]
  exact htail

/-- A pattern that is not kept has no watcher from before, or no task. -/
theorem matchesAt_of_not_kept {s₁ s₂ s₃ : Manager} (hstop : Stopped (· ∈ s₁.deletedKeys) s₁ s₂)
    (hstart : Started (· ∈ s₁.addedKeys.elems) s₂ s₃) (hP : P ∉ s₁.keptKeys) :
    MatchesAt P s₃ := by
  by_cases htail : P ∈ s₁.tails.keys
  · intro v t task _ _ htask
    rw [hstart.frame.tasks, hstop.frame.tasks] at htask
    exact absurd (OrdSet.mem_inter.mpr ⟨htail, OrdMap.mem_keys.mpr ⟨task, htask⟩⟩) hP
  · refine matchesAt_of_started ?_ hstart
    rw [hstop.frame.tails P fun hdel => htail (OrdSet.mem_diff.mp hdel).1]
    exact OrdMap.not_mem_keys.mp htail

/-- Every pattern of the configuration can be set up. -/
def AllSetUp (env : Env) (producers : List Str) (confs : OrdMap Str TaskConf) : Prop :=
  ∀ P conf, confs.find? P = some conf → env.SetsUp producers conf

instance {confs : OrdMap Str TaskConf} : Decidable (AllSetUp env producers confs) :=
  inferInstanceAs (Decidable (∀ P conf, confs.find? P = some conf → env.SetsUp producers conf))

theorem TasksRefreshed.configuredAt {confs : OrdMap Str TaskConf}
    (hr : TasksRefreshed confs s s') (hup : AllSetUp env s.producers confs) :
    ConfiguredAt env confs P s' := by
  intro task htask
  have hfind : confs.find? P = some task.conf := by
    rw [← hr.tasks P, confAt_eq_some]
    exact ⟨task, htask, rfl⟩
  exact ⟨hfind, hr.producers ▸ hup P _ hfind⟩

/-- The patterns as they are when the loop of `updateWatchers` begins. -/
theorem steadyAt_of_started {s₁ s₂ s₃ : Manager} (h : SteadyAt P s₁) (hs₁ : s₁.Wf)
    (hstop : Stopped (· ∈ s₁.deletedKeys) s₁ s₂)
    (hstart : Started (· ∈ s₁.addedKeys.elems) s₂ s₃) : SteadyAt P s₃ := by
  refine SteadyAt.started ?_ hstart
  by_cases hP : P ∈ s₁.deletedKeys
  · exact h.stopped hstop hP
  · exact stable_steadyAt P _ s₁ s₂ hP hstop.frame hs₁ hstop.wf h

/-- A kept pattern is neither added nor deleted. -/
theorem readyAt_of_kept {confs : OrdMap Str TaskConf} {s₁ s₂ s₃ : Manager} (hs : Sound s)
    (hr : TasksRefreshed confs s s₁) (hs₁ : s₁.Wf)
    (hup : AllSetUp env s.producers confs)
    (hstop : Stopped (· ∈ s₁.deletedKeys) s₁ s₂)
    (hstart : Started (· ∈ s₁.addedKeys.elems) s₂ s₃) (hsteady : SteadyAt P s₃)
    (hP : P ∈ s₁.keptKeys) : ReadyAt env confs (MildAt confs · s) P s₃ := by
  obtain ⟨htail, htask⟩ := OrdSet.mem_inter.mp hP
  have hadded : P ∉ s₁.addedKeys.elems := fun hmem => (OrdSet.mem_diff.mp hmem).2 htail
  have hdeleted : P ∉ s₁.deletedKeys := fun hmem => (OrdSet.mem_diff.mp hmem).2 htask
  refine ⟨hsteady, ((hr.configuredAt hup).of_frame hstop.frame).of_frame hstart.frame, ?_⟩
  · rw [mildAt_iff_of_frame hadded hstart.frame hstop.wf hstart.wf,
      mildAt_iff_of_frame hdeleted hstop.frame hs₁ hstop.wf, hr.mildAt_iff hs]

theorem wp_refreshWatchers_collected (hs : Sound s) (h : ∀ P, CollectedAt P s)
    (hup : ∀ members, env.document = .object members →
      AllSetUp env s.producers (newConfs members)) :
    wp (refreshWatchers cfg env) (fun ok s' => ∀ P,
        ((∀ members, env.document = .object members → MildAt (newConfs members) P s) →
          CollectedAt P s') ∧
        ∀ members, ok = true → env.document = .object members →
          ¬ MildAt (newConfs members) P s → Stray P s')
      (fun _ => True) [] s := by
  refine wp_refreshWatchers hs.wf (fun _ => trivial) (fun confs P => ?_) ?_
  · exact ⟨fun _ => ⟨⟨(h P).sole, (h P).runs, (h P).present⟩, (h P).matching⟩,
      fun _ hfalse => by cases hfalse⟩
  · intro members s₁ s₂ hdoc hr hs₁ hstop
    refine (wp_startWatchers (fun _ => trivial) _ s₂ hstop.wf).conseq fun _ s₃ hstart => ?_
    have hsteady : ∀ P, SteadyAt P s₃ := fun P =>
      steadyAt_of_started (hr.steadyAt (h P).toSteadyAt) hs₁ hstop hstart
    refine (wp_updateWatchers_done _ s₃ (OrdSet.nodup _) hstart.wf fun P hP =>
      readyAt_of_kept hs hr hs₁ (hup members hdoc) hstop hstart (hsteady P) hP).conseq ?_
    rintro _ s₄ ⟨hs₄, hf, hkept⟩ P
    have hP : DoneAt (MildAt (newConfs members) · s) P s₄ := by
      by_cases hP : P ∈ s₁.keptKeys.elems
      · exact hkept P hP
      · refine ⟨fun _ => ?_, fun hmild => absurd (hr.mildAt_of_not_kept hP) hmild⟩
        exact stable_collectedAt P _ s₃ s₄ hP hf hstart.wf hs₄ { hsteady P with
          matching := matchesAt_of_not_kept hstop hstart hP }
    refine ⟨fun hmild => hP.1 (hmild members hdoc), fun members' _ hdoc' => ?_⟩
    cases hdoc.symm.trans hdoc'
    exact hP.2

/-! ## The other events

A trigger either stays with its watcher or puts another one in its place; the new
one runs, so the old one should have.
-/

/-- A watcher handed over: the new one of `P` runs in the place of the old one. -/
theorem CollectedAt.handedOver {s₂ : Manager} {t₂ : TailWatcher} {path : Str} {pe : EntryId}
    {ps : List Str} (hs : Sound s) (h : ∀ P, CollectedAt P s)
    (htail : s.tails.find? P = some (some tw))
    (hw : s.watchers tw = some t) (hrun : t.running = true) (hps : s₂.producers ⊆ ps)
    (hl : Local tw P s s₂)
    (hs₂ : s₂.Wf) (hw₂ : s₂.watchers tw = some t₂) (hk₂ : Kept t t₂) (hrun₂ : t₂.running = false)
    (hpe : pe.key.pathPattern = P) (Q : Str) :
    CollectedAt Q (s₂.handedOver P ps tw (TailWatcher.init P path pe t.conf)) := by
  have hP : t.pathPattern = P := hs.wf.tails_pattern P tw t htail hw
  have hvalid : t.conf.valid = true := by rw [← (h P).runs tw t htail hw, hrun]
  have hf : Frame (· = P) s (s₂.register P ps (TailWatcher.init P path pe t.conf)) :=
    (hl.frame hw hw₂ hP (hk₂.pathPattern.trans hP)).trans (Frame.register hs₂ hps rfl)
  have hs₃ : (s₂.register P ps (TailWatcher.init P path pe t.conf)).Wf := hs₂.register rfl hpe
  have hs₃old : (s₂.register P ps (TailWatcher.init P path pe t.conf)).watchers tw
      = s₂.watchers tw := register_of_lt (hs₂.watchers_lt tw t₂ hw₂)
  suffices hreg : CollectedAt Q (s₂.register P ps (TailWatcher.init P path pe t.conf)) from
    ⟨⟨hreg.sole, hreg.runs, hreg.present⟩, hreg.matching⟩
  by_cases hQ : Q = P
  · subst hQ
    refine (h Q).toSteadyAt.replaced htail hvalid (fun task htask => ?_)
      (hs₃old.trans hw₂) hrun₂ (fun v hv hvn => ?_) (OrdMap.find?_insert_self _ _ _)
      (Function.update_self ..)
    · rw [hf.tasks] at htask
      rw [← (h Q).matching tw t task htail hw htask, hvalid]
    · exact (Function.update_of_ne hvn _ _).trans (hl.others v hv)
  · exact stable_collectedAt Q _ s _ hQ hf hs.wf hs₃ (h Q)

/-- Whoever hands over is found under its path, and can be set up again; or
nothing is done. -/
def HandsOverWell (cfg : Config) (env : Env) (s : Manager) (t : TailWatcher) : Prop :=
  HandsOver env s t → KeyedAt cfg env s t ∧ env.SetsUp s.producers t.conf

instance : Decidable (HandsOverWell cfg env s t) := inferInstanceAs (Decidable (_ → _ ∧ _))

theorem collected_onNotify (hs : Sound s) (h : ∀ P, CollectedAt P s) (hw : s.watchers tw = some t)
    (hrun : t.running = true) (hwell : HandsOverWell cfg env s t) :
    wp (TailWatcher.onNotify cfg env tw) (fun _ s' => ∀ P, CollectedAt P s') (fun _ => True) []
      s := by
  have htail : s.tails.find? t.pathPattern = some (some tw) := (h _).sole tw t hw rfl hrun
  refine wp_onNotify_inv hs.wf (fun _ => trivial) hw h ?_ fun hover => ?_
  · intro s₁ t₁ s' t' h₁ hw₁ hl hw' _ hk hrun' P
    exact (h₁ P).local hl hw₁ hw' hk hrun'
  · intro tw' t₀ s₂ t₂ hrel
    obtain ⟨hkeyed, hsets⟩ := hwell hover
    -- the watcher that is found is the caller
    cases htail.symm.trans (hkeyed.path_eq hrel ▸ hrel.tail)
    cases hw.symm.trans hrel.watcher
    obtain ⟨s₁, hl₁, hl₂⟩ := hrel.changes
    have hmade : s.producers ⊆ s₂.producers := fun _ hc =>
      (hl₂.producers.trans hl₁.producers).symm ▸ hc
    exact ⟨fun hfail => absurd (hsets.mono hmade) hfail, fun ps hps =>
      CollectedAt.handedOver hs h htail hw hrun hps (hl₁.trans hl₂) hrel.wf hrel.closed hrel.kept
        hrel.stopped (hs.wf.entry_pattern tw t hw)⟩

/-! ## Runs -/

/-- The refreshes are mild and all setups succeed. -/
def Orderly (cfg : Config) (s : Manager) : Event → Prop
  | .refresh env => ∀ members, env.document = .object members →
      AllSetUp env s.producers (newConfs members) ∧ Mild (newConfs members) s
  | .notify env tw => ∀ t, s.watchers tw = some t → HandsOverWell cfg env s t
  | _ => True

instance (s : Manager) : (e : Event) → Decidable (Orderly cfg s e)
  | .refresh env => inferInstanceAs (Decidable (∀ members, env.document = .object members →
      AllSetUp env s.producers (newConfs members) ∧ Mild (newConfs members) s))
  | .notify env tw => inferInstanceAs
      (Decidable (∀ t, s.watchers tw = some t → HandsOverWell cfg env s t))
  | .upload | .stop _ => isTrue trivial

/-- What an orderly run keeps. -/
structure Collected (s : Manager) : Prop extends Sound s where
  collected : ∀ P, CollectedAt P s

theorem collected_step (e : Event) (s s' : Manager) (hs : Collected s) (ho : Orderly cfg s e)
    (h : step cfg e s = some s') : Collected s' := by
  have hkeyed : Keyed cfg s e := by
    cases e with
    | notify env tw => exact fun t hw hover => (ho t hw hover).1
    | refresh env => trivial
    | upload => trivial
    | stop env => trivial
  refine ⟨sound_step e s s' hs.toSound hkeyed h, ?_⟩
  refine of_step (R := fun s' => ∀ P, CollectedAt P s') h fun henabled => ?_
  cases e with
  | refresh env =>
      unfold exec
      rw [wp_bind]
      refine (wp_refreshWatchers_collected hs.toSound hs.collected fun members hdoc =>
        (ho members hdoc).1).conseq fun _ s' hright P => ?_
      exact (hright P).1 fun members hdoc => (ho members hdoc).2 P
  | notify env tw =>
      obtain ⟨t, hw, hrun⟩ := henabled
      exact collected_onNotify hs.toSound hs.collected hw hrun (ho t hw)
  | upload => exact wp_uploadCollectingState (fun _ => trivial) hs.collected
  | stop env =>
      refine wp_stop_manager hs.wf (fun _ => trivial) fun s' hstop P => ?_
      by_cases hP : P ∈ s.tails.keys
      · have h := (hs.collected P).toSteadyAt
        have hstopped : SteadyAt P { s with refreshTrigger := false } := ⟨h.sole, h.runs, h.present⟩
        refine { hstopped.stopped hstop hP with matching := fun v t task htail _ _ => ?_ }
        rw [hstop.tails P hP] at htail
        cases htail
      · have h := hs.collected P
        exact stable_collectedAt P _ _ s' hP hstop.frame hs.wf.stopTrigger hstop.wf
          ⟨⟨h.sole, h.runs, h.present⟩, h.matching⟩

theorem collected_init (pf : OrdMap PositionEntryKey Slot) : Collected (Manager.init pf) where
  toSound := sound_init pf
  collected P := by
    refine ⟨⟨fun v t hw => ?_, fun v t htail => ?_, ?_⟩, fun v t task htail => ?_⟩
    · cases hw
    · cases htail
    · exact fun hnull => by cases hnull
    · cases htail

/-- Who was registered before the refresh and is not any more does not run in `u`. -/
def Retired (s s' u : Manager) : Prop :=
  ∀ P v, s.tails.find? P = some (some v) → s'.tails.find? P ≠ some (some v) →
    ∀ t, u.watchers v = some t → t.running = false

theorem retired_of_collected {u : Manager} (hs : Sound s) (hf : Fresh s s') (hf' : Fresh s' u)
    (hu : Collected u) : Retired s s' u := by
  intro P v hreg hgone t hw
  by_contra hrun
  have hu := (hu.collected t.pathPattern).sole v t hw rfl (by simpa using hrun)
  have hlt := hs.wf.tails_lt P v hreg
  rcases hf'.tails _ v hu with hs' | hnew
  · rcases hf.tails _ v hs' with hreg' | hnew
    · exact hgone (hs.unique hreg hreg' ▸ hs')
    · exact absurd hlt (Nat.not_lt.mpr hnew)
  · exact absurd hlt (Nat.not_lt.mpr (Nat.le_trans hf.nextWatcher hnew))

/-- **Exactly the enabled patterns are collected.**  After an orderly run, a
refresh leaves, from then on and whatever orderly events follow, every kept
pattern with the one watcher it should have, running if and only if its task is
enabled, and the watchers it replaced stopped for good: if and only if it is
mild. -/
theorem exactly_enabled_iff (cfg : Config) (env : Env) (pf : OrdMap PositionEntryKey Slot)
    (es : List Event) (members : List (Str × Option TaskConf))
    (halong : Along (step cfg) (Orderly cfg) es (Manager.init pf))
    (hrun : run (step cfg) es (Manager.init pf) = some s)
    (hdoc : env.document = .object members)
    (hup : AllSetUp env s.producers (newConfs members))
    (h : refreshWatchers cfg env [] s = .ok (true, s')) :
    (∀ es' u, Along (step cfg) (Orderly cfg) es' s' → run (step cfg) es' s' = some u →
      ExactlyEnabled u ∧ Retired s s' u) ↔ Mild (newConfs members) s := by
  have hs : Collected s := run_inv_along collected_step es _ s (collected_init pf) halong hrun
  have hright := (wp_refreshWatchers_collected hs.toSound hs.collected fun members' hdoc' => by
    cases hdoc.symm.trans hdoc'
    exact hup).ok h
  obtain ⟨hwf, hfresh⟩ := (wf_refreshWatchers hs.wf).ok h
  constructor
  · intro hall P
    by_contra hmild
    exact ((hright P).2 members rfl hdoc hmild).not_exactlyEnabled (hall [] s' trivial rfl).1
  · intro hmild es' u halong' hrun'
    have hs' : Collected s' := ⟨(sound_refresh hs.toSound).ok h, fun P => (hright P).1
      fun members' hdoc' => by
        cases hdoc.symm.trans hdoc'
        exact hmild P⟩
    have hu : Collected u := run_inv_along collected_step es' s' u hs' halong' hrun'
    exact ⟨exactlyEnabled_of_collected hu.toSound hu.collected,
      retired_of_collected hs.toSound hfresh (fresh_run es' s' u hwf hrun') hu⟩

/-- The topic of "b" is edited and "c" is disabled. -/
def edited : List (Str × Option TaskConf) :=
  [([98], some (otherConf true [98])), ([99], some (plainConf false [99]))]

/-- What comes after the edit: the new watcher of "b" is notified, and the refresh
comes again. -/
def afterEdit (env : Env) : List Event := [.notify env 3, .refresh env, .upload]

/-- After a hand-over the edit leaves "b" its new watcher, which runs, and that of "c"
stopped. -/
theorem exactly_enabled_iff_edited :
    ∃ s s' u, run (step sizes) handedOnce (Manager.init OrdMap.empty) = some s ∧
      refreshWatchers sizes ((atNoon (.object edited) (emptyFile 2 (by decide))).at 20000
        [.fread 0 0 false 20000]) [] s = .ok (true, s') ∧
      run (step sizes) (afterEdit ((atNoon (.object edited) (emptyFile 2 (by decide))).at 20000
        [.fread 0 0 false 20000])) s' = some u ∧
      s'.tails.find? [98] ≠ s.tails.find? [98] ∧ ExactlyEnabled u ∧ Retired s s' u := by
  let env : Env := (atNoon (.object edited) (emptyFile 2 (by decide))).at 20000
    [.fread 0 0 false 20000]
  have halong : Along (step sizes) (Orderly sizes) handedOnce (Manager.init OrdMap.empty) := by
    decide +kernel
  have h : ((run (step sizes) handedOnce (Manager.init OrdMap.empty)).any fun s =>
      decide (AllSetUp env s.producers (newConfs edited) ∧ Mild (newConfs edited) s) &&
      (leaves? (refreshWatchers sizes env) [] s).any fun s' =>
        decide (s'.tails.find? [98] ≠ s.tails.find? [98] ∧
          Along (step sizes) (Orderly sizes) (afterEdit env) s') &&
        (run (step sizes) (afterEdit env) s').isSome) = true := by
    decide +kernel
  obtain ⟨s, hrun, h⟩ := (Option.any_eq_true _ _).mp h
  obtain ⟨hmild, h⟩ := Bool.and_eq_true_iff.mp h
  obtain ⟨s', hs', h⟩ := (Option.any_eq_true _ _).mp h
  obtain ⟨hlater, h⟩ := Bool.and_eq_true_iff.mp h
  obtain ⟨u, hu⟩ := Option.isSome_iff_exists.mp h
  obtain ⟨hup, hmild⟩ := of_decide_eq_true hmild
  obtain ⟨hne, hlater⟩ := of_decide_eq_true hlater
  have hrefresh := leaves?_eq_some.mp hs'
  exact ⟨s, s', u, hrun, hrefresh, hu, hne, (exactly_enabled_iff sizes env OrdMap.empty handedOnce
    edited halong hrun rfl hup hrefresh).mpr hmild _ u hlater hu⟩

/-- "b" is collected; then it is disabled and its topic changed at once, and the
new watcher of "b" runs. -/
theorem exactly_enabled_fails :
    ∃ s s', run (step sizes) [.refresh (idle (.object [([98], some (plainConf true [98]))]))]
        (Manager.init OrdMap.empty) = some s ∧
      (∀ document, (idle document).SetsUp [] (otherConf false [98])) ∧
      refreshWatchers sizes (idle (.object [([98], some (otherConf false [98]))])) [] s
        = .ok (true, s') ∧
      ¬ ExactlyEnabled s' := by
  refine ⟨_, _, rfl, fun _ => ⟨⟨List.mem_cons_self, Or.inr rfl⟩, rfl⟩, rfl, ?_⟩
  refine Stray.not_exactlyEnabled (P := [98]) ?_
  exact ⟨1, _, _, _, rfl, rfl, rfl, rfl, rfl, fun _ => rfl⟩

end Logkafka
