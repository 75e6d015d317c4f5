/-
# `Logkafka.Manager.Start` — which patterns get a watcher

`startWatchers` leaves its loop at the first pattern that is disabled or is in
`m_tails` already, with a `return` where another round was meant.  So of a set
of patterns it serves those before that one, in the order of `std::set`:

    P is served   ↔   every Q ≤ P of the set is startable

That does no harm exactly when every pattern in need of a watcher comes before
the first one it stops at; `refreshWatchers` calls it with the tasks that have
no watcher, and a disabled task is one of them at every refresh.
-/
import Logkafka.Manager.Events

namespace Logkafka

open Prog PositionFile

namespace Manager

variable {cfg : Config} {env : Env} {P : Str} {s s' s'' : Manager} {paths : OrdSet Str}
  {producers : List Str}

/-- The loop of `startWatchers` does not stop at `P`. -/
def startable (s : Manager) (P : Str) : Bool :=
  match s.tasks.find? P with
  | some task => task.conf.valid && (s.tails.find? P).isNone
  | none => false

/-- `P` is enabled and has no watcher. -/
def Needs (s : Manager) (P : Str) : Prop :=
  (∃ task, s.tasks.find? P = some task ∧ task.conf.valid = true) ∧
    ∀ tw, s.tails.find? P ≠ some (some tw)

/-- The task of `P` can be set up, with the producers there are. -/
def SetsUpAt (env : Env) (producers : List Str) (s : Manager) (P : Str) : Prop :=
  ∀ task, s.tasks.find? P = some task → env.SetsUp producers task.conf

theorem startable_congr (htasks : s'.tasks = s.tasks)
    (htails : s'.tails.find? P = s.tails.find? P) : startable s' P = startable s P := by
  unfold startable
  rw [htasks, htails]

theorem startable_iff {task : Task} (htask : s.tasks.find? P = some task) :
    startable s P = true ↔ task.conf.valid = true ∧ s.tails.find? P = none := by
  unfold startable
  rw [htask]
  simp

/-! ## The loop

By induction on the set, from its smallest element: up to the first one that fails
the test each is given a watcher if it can be set up, and none behind it.
-/

/-- The entry is no matter here. -/
theorem wp_startEntry_tails {L : List Mutex} {task : Task} {Q : EntryId → Manager → Prop}
    (h : ∀ pe s', s'.tasks = s.tasks → s'.tails = s.tails → s'.producers = s.producers → Q pe s') :
    wp (startEntry env task P) Q (fun _ => True) L s := by
  unfold startEntry
  rw [wp_bind]
  refine wp_getEntry fun pe s₁ hl _ _ => ?_
  have hkeep : ∀ s', s'.tasks = s₁.tasks → s'.tails = s₁.tails → s'.producers = s₁.producers →
      Q pe s' := fun s' htasks htails hproducers => h pe s' (htasks.trans (hl 0).tasks)
    (htails.trans (hl 0).tails) (hproducers.trans (hl 0).producers)
  simp only [wp_bind, wp_ite, wp_pure]
  split
  · refine wp_getSlot (fun _ => trivial) fun slot _ => ?_
    split
    · exact wp_setSlot (fun _ => trivial) fun _ => hkeep _ rfl rfl rfl
    · exact hkeep s₁ rfl rfl rfl
  · exact hkeep s₁ rfl rfl rfl

/-- The patterns before the first one that fails `p` have a watcher in `s'`, if
they can be set up, and the others have what they had. -/
def Served (env : Env) (producers : List Str) (p : Str → Bool) (s : Manager) (ps : List Str)
    (s' : Manager) : Prop :=
  (∀ P ∈ ps.takeWhile p, SetsUpAt env producers s P → ∃ tw, s'.tails.find? P = some (some tw)) ∧
    ∀ P, P ∉ ps.takeWhile p → s'.tails.find? P = s.tails.find? P

theorem Served.nil {p : Str → Bool} : Served env producers p s [] s :=
  ⟨fun _ hP => absurd hP List.not_mem_nil, fun _ _ => rfl⟩

theorem Served.leave {p : Str → Bool} {ps : List Str} (h : p P = false) :
    Served env producers p s (P :: ps) s := by
  unfold Served
  rw [List.takeWhile_cons_of_neg (by simp [h])]
  exact Served.nil (p := p)

/-- A round that leaves the other patterns alone, and the rest of the loop. -/
theorem Served.cons {p : Str → Bool} {ps : List Str} (hP : P ∉ ps) (htrue : p P = true)
    (htasks : s'.tasks = s.tasks) (htails : ∀ Q, Q ≠ P → s'.tails.find? Q = s.tails.find? Q)
    (hserved : SetsUpAt env producers s P → ∃ tw, s'.tails.find? P = some (some tw))
    (h : Served env producers p s' ps s'') : Served env producers p s (P :: ps) s'' := by
  obtain ⟨hrest, hother⟩ := h
  unfold Served
  rw [List.takeWhile_cons_of_pos htrue]
  have hPrest : P ∉ ps.takeWhile p := fun hmem => hP ((List.takeWhile_prefix p).subset hmem)
  constructor
  · intro Q hQ hup
    rcases List.mem_cons.mp hQ with rfl | hQ
    · rw [hother Q hPrest]
      exact hserved hup
    · refine hrest Q hQ fun task htask => hup task ?_
      rw [← htasks]
      exact htask
  · intro Q hQ
    have hQ := not_or.mp (List.mem_cons.not.mp hQ)
    exact (hother Q hQ.2).trans (htails Q hQ.1)

/-- `startWatchers` serves the patterns before the first one it stops at, and
no others; `p` is `startable`, as the loop finds it at each pattern. -/
theorem wp_startWatchers_tails (p : Str → Bool) :
    ∀ (ps : List Str) (s : Manager), ps.Nodup → producers ⊆ s.producers →
      (∀ P ∈ ps, startable s P = p P) →
      wp (startWatchers env ps) (fun _ s' => Served env producers p s ps s') (fun _ => True)
        [.tailWatchers] s
  | [], s, _, _, _ => Served.nil
  | P :: ps, s, hnd, hmade, hp => by
      obtain ⟨hP, hnd⟩ := List.nodup_cons.mp hnd
      have hpP := hp P List.mem_cons_self
      have hround : ∀ s₁, p P = true → s₁.tasks = s.tasks →
          s.producers ⊆ s₁.producers → (∀ Q, Q ≠ P → s₁.tails.find? Q = s.tails.find? Q) →
          (SetsUpAt env producers s P → ∃ tw, s₁.tails.find? P = some (some tw)) →
          wp (startWatchers env ps) (fun _ s' => Served env producers p s (P :: ps) s')
            (fun _ => True) [.tailWatchers] s₁ := by
        intro s₁ htrue htasks hgrows htails hserved
        refine (wp_startWatchers_tails p ps s₁ hnd (List.Subset.trans hmade hgrows)
          fun Q hQ => ?_).conseq fun _ s₂ h => Served.cons hP htrue htasks htails hserved h
        rw [startable_congr htasks (htails Q fun heq => hP (heq ▸ hQ))]
        exact hp Q (List.mem_cons_of_mem _ hQ)
      simp only [startWatchers, wp_bind, wp_get]
      split
      · trivial
      · next task htask =>
          have hstart := startable_iff htask
          rw [hpP] at hstart
          rw [wp_ite]
          split
          · next hinvalid =>
              refine Served.leave (Bool.eq_false_iff.mpr fun h => ?_)
              rw [(hstart.mp h).1] at hinvalid
              cases hinvalid
          · next hvalid =>
              rw [wp_ite]
              split
              · next hwatched =>
                  refine Served.leave (Bool.eq_false_iff.mpr fun h => ?_)
                  rw [(hstart.mp h).2] at hwatched
                  cases hwatched
              · next hunwatched =>
                  have htrue : p P = true :=
                    hstart.mpr ⟨by simpa using hvalid, by simpa using hunwatched⟩
                  rw [wp_bind]
                  refine wp_startEntry_tails fun pe s₁ htasks htails hsame => ?_
                  rw [wp_bind]
                  refine wp_setupWatcher (by simp) (by simp) trivial (fun ps' hps => ?_)
                    fun hfail => ?_
                  · rw [hsame] at hps
                    refine hround (s₁.register P ps' (TailWatcher.init P task.getPath pe task.conf))
                      htrue htasks hps (fun Q hQ => ?_) fun _ =>
                        ⟨s₁.nextWatcher, OrdMap.find?_insert_self _ _ _⟩
                    rw [← htails]
                    exact OrdMap.find?_insert_ne hQ _ _
                  · rw [hsame] at hfail
                    refine hround s₁ htrue htasks (fun _ hc => hsame ▸ hc)
                      (fun Q _ => by rw [htails]) fun hup => ?_
                    exact absurd ((hup task htask).mono hmade) hfail

/-- On a set: who needs a watcher gets one, if no pattern up to it stops the loop. -/
theorem Served.iff {p : Str → Bool} (hserved : Served env producers p s paths.elems s') :
    (∀ P ∈ paths, Needs s P → SetsUpAt env producers s P →
        ∃ tw, s'.tails.find? P = some (some tw)) ↔
      ∀ P ∈ paths, Needs s P → SetsUpAt env producers s P → ∀ Q ∈ paths, Q ≤ P → p Q = true := by
  constructor
  · intro h P hP hneeds hup
    by_contra hblocked
    have hmem : P ∉ paths.elems.takeWhile p := fun hmem =>
      hblocked (OrdSet.mem_takeWhile.mp hmem).2
    obtain ⟨tw, htw⟩ := h P hP hneeds hup
    exact hneeds.2 tw ((hserved.2 P hmem).symm.trans htw)
  · intro h P hP hneeds hup
    exact hserved.1 P (OrdSet.mem_takeWhile.mpr ⟨hP, h P hP hneeds hup⟩) hup

/-! ## In a refresh

The set the loop gets is made of the configuration and the table, so what it
leaves out can be said of these.
-/

/-- The task of `P`, if it is enabled and could be set up with `producers`, has a
watcher. -/
def HasWatcher (env : Env) (producers : List Str) (P : Str) (s : Manager) : Prop :=
  ∀ task, s.tasks.find? P = some task → task.conf.valid = true →
    env.SetsUp producers task.conf → ∃ tw, s.tails.find? P = some (some tw)

theorem stable_hasWatcher : Stable (HasWatcher env producers) := by
  intro P T s s' hP hf _ _ h task htask hvalid hup
  rw [hf.tails P hP]
  exact h task (hf.tasks ▸ htask) hvalid hup

/-- A round of `updateWatchers` leaves an enabled pattern its watcher. -/
theorem hasWatcher_of_updated (hmade : producers ⊆ s.producers) (h : Updated env P s s')
    (hf : Frame (· = P) s s') : HasWatcher env producers P s' := by
  intro task htask hvalid hup
  have hup := hup.mono hmade
  rw [hf.tasks] at htask
  cases h with
  | same hp _ _ heq => exact ⟨_, heq ▸ hp.tail⟩
  | moved hp _ _ _ _ hnew =>
      cases hp.task.symm.trans htask
      exact hnew hvalid hup
  | toggled hp _ _ hl _ _ => exact ⟨_, hl.tails ▸ hp.tail⟩
  | replaced hp _ _ _ _ _ hnew =>
      cases hp.task.symm.trans htask
      rcases hnew with ⟨_, htail, _⟩ | ⟨hfail, _⟩
      · exact ⟨_, htail⟩
      · exact absurd hup hfail

/-- An enabled pattern of the configuration without a watcher comes before every
disabled one without a watcher. -/
def Unblocked (env : Env) (confs : OrdMap Str TaskConf) (s : Manager) : Prop :=
  ∀ P conf, confs.find? P = some conf → s.tails.find? P = none → conf.valid = true →
    env.SetsUp s.producers conf → ∀ Q conf', confs.find? Q = some conf' →
      s.tails.find? Q = none → Q < P → conf'.valid = true

instance {confs : OrdMap Str TaskConf} : Decidable (Unblocked env confs s) :=
  inferInstanceAs (Decidable (∀ P conf, confs.find? P = some conf → s.tails.find? P = none →
    conf.valid = true → env.SetsUp s.producers conf → ∀ Q conf', confs.find? Q = some conf' →
      s.tails.find? Q = none → Q < P → conf'.valid = true))

theorem confAt_eq_some {tasks : OrdMap Str Task} {conf : TaskConf} :
    confAt tasks P = some conf ↔ ∃ task, tasks.find? P = some task ∧ task.conf = conf :=
  Option.map_eq_some_iff

/-- The added patterns, as the configuration and the table before the refresh
give them, and as `startWatchers` finds them. -/
theorem added_iff {confs : OrdMap Str TaskConf} {s₁ s₂ : Manager} (hr : TasksRefreshed confs s s₁)
    (hstop : Stopped (· ∈ s₁.deletedKeys) s₁ s₂) {conf : TaskConf} :
    confs.find? P = some conf ∧ s.tails.find? P = none ↔
      P ∈ s₁.addedKeys ∧ s₂.tails.find? P = none ∧
        ∃ task, s₂.tasks.find? P = some task ∧ task.conf = conf := by
  have hmem : P ∈ s₁.addedKeys ↔ (∃ task, s₁.tasks.find? P = some task) ∧
      s.tails.find? P = none := by
    unfold addedKeys
    rw [OrdSet.mem_diff, OrdMap.mem_keys, OrdMap.not_mem_keys, hr.tails]
  rw [hmem, hstop.frame.tasks, ← confAt_eq_some, hr.tasks]
  constructor
  · rintro ⟨hconf, hnone⟩
    have hnot : P ∉ s₁.deletedKeys := fun hdel =>
      OrdMap.not_mem_keys.mpr (hr.tails ▸ hnone) (OrdSet.mem_diff.mp hdel).1
    obtain ⟨task, htask, -⟩ := confAt_eq_some.mp ((hr.tasks P).trans hconf)
    refine ⟨⟨⟨task, htask⟩, hnone⟩, ?_, hconf⟩
    rw [hstop.frame.tails P hnot, hr.tails]
    exact hnone
  · rintro ⟨⟨-, hnone⟩, -, hconf⟩
    exact ⟨hconf, hnone⟩

theorem unblocked_iff {confs : OrdMap Str TaskConf} {s₁ s₂ : Manager}
    (hr : TasksRefreshed confs s s₁) (hstop : Stopped (· ∈ s₁.deletedKeys) s₁ s₂) :
    (∀ P ∈ s₁.addedKeys, Needs s₂ P → SetsUpAt env s.producers s₂ P →
      ∀ Q ∈ s₁.addedKeys, Q ≤ P → startable s₂ Q = true) ↔ Unblocked env confs s := by
  have hadded : ∀ P ∈ s₁.addedKeys, ∃ task, s₂.tasks.find? P = some task ∧
      s₂.tails.find? P = none ∧ confs.find? P = some task.conf ∧ s.tails.find? P = none := by
    intro P hP
    obtain ⟨task, htask⟩ := OrdMap.mem_keys.mp (OrdSet.mem_diff.mp hP).1
    have hconf : confs.find? P = some task.conf :=
      (hr.tasks P).symm.trans (confAt_eq_some.mpr ⟨task, htask, rfl⟩)
    have hnone : s.tails.find? P = none :=
      hr.tails ▸ OrdMap.not_mem_keys.mp (OrdSet.mem_diff.mp hP).2
    have h := (added_iff hr hstop).mp ⟨hconf, hnone⟩
    exact ⟨task, hstop.frame.tasks ▸ htask, h.2.1, hconf, hnone⟩
  constructor
  · intro h P conf hP hnone hvalid hup Q conf' hQ hnoneQ hlt
    obtain ⟨hPmem, hnone₂, task, htask, rfl⟩ := (added_iff hr hstop).mp ⟨hP, hnone⟩
    obtain ⟨hQmem, -, taskQ, htaskQ, rfl⟩ := (added_iff hr hstop).mp ⟨hQ, hnoneQ⟩
    have hneeds : Needs s₂ P := ⟨⟨task, htask, hvalid⟩, fun tw htw => by
      rw [hnone₂] at htw
      cases htw⟩
    have hsets : SetsUpAt env s.producers s₂ P := fun task' htask' => by
      cases htask.symm.trans htask'
      exact hup
    exact ((startable_iff htaskQ).mp (h P hPmem hneeds hsets Q hQmem (le_of_lt hlt))).1
  · intro h P hP hneeds hsets Q hQ hle
    obtain ⟨task, htask, -, hconf, hnone⟩ := hadded P hP
    obtain ⟨taskQ, htaskQ, hnoneQ₂, hconfQ, hnoneQ⟩ := hadded Q hQ
    obtain ⟨⟨task', htask', hvalid⟩, -⟩ := hneeds
    cases htask.symm.trans htask'
    refine (startable_iff htaskQ).mpr ⟨?_, hnoneQ₂⟩
    rcases lt_or_eq_of_le hle with hlt | rfl
    · exact h P _ hconf hnone hvalid (hsets task htask) Q _ hconfQ hnoneQ hlt
    · cases htask.symm.trans htaskQ
      exact hvalid

theorem wp_refreshWatchers_served {members : List (Str × Option TaskConf)} (hs : s.Wf)
    (hdoc : env.document = .object members) :
    wp (refreshWatchers cfg env) (fun ok s' => ok = true →
      ((∀ P conf, (newConfs members).find? P = some conf → conf.valid = true →
        env.SetsUp s.producers conf → ∃ tw, s'.tails.find? P = some (some tw)) ↔
        Unblocked env (newConfs members) s))
      (fun _ => True) [] s := by
  refine wp_refreshWatchers hs (fun _ => trivial) (fun _ h => by cases h) ?_
  intro members' s₁ s₂ hdoc' hr hs₁ hstop
  cases hdoc.symm.trans hdoc'
  have hmade : s.producers ⊆ s₂.producers := fun _ hc => hstop.frame.producers (hr.producers ▸ hc)
  refine ((wp_startWatchers (fun _ => trivial) _ s₂ hstop.wf).and
    (wp_startWatchers_tails (startable s₂) _ s₂ (OrdSet.nodup _) hmade fun _ _ => rfl)).conseq ?_
  rintro _ s₃ ⟨hstart, hserved⟩
  refine (wp_updateWatchers (fun _ => trivial) (stable_made s.producers) stable_hasWatcher
    (fun _ _ _ _ => trivial) (fun _ _ _ _ _ hf hmade hup => hasWatcher_of_updated hmade hup hf) _
    s₃ (OrdSet.nodup _) hstart.wf
    fun _ _ => List.Subset.trans hmade hstart.frame.producers).conseq ?_
  rintro _ s₄ ⟨-, hframe, hkept⟩ -
  rw [← unblocked_iff hr hstop, ← hserved.iff]
  have htasks₄ : s₄.tasks = s₂.tasks := hframe.tasks.trans hstart.frame.tasks
  -- the loop of `updateWatchers` does not come to the added patterns
  have hlater : ∀ P ∈ s₁.addedKeys, s₄.tails.find? P = s₃.tails.find? P := fun P hP =>
    hframe.tails P fun hmem => (OrdSet.mem_diff.mp hP).2 (OrdSet.mem_inter.mp hmem).1
  constructor
  · intro hall P hP hneeds hsets
    obtain ⟨⟨task, htask, hvalid⟩, -⟩ := hneeds
    have hconf : (newConfs members).find? P = some task.conf := by
      rw [← hr.tasks P, confAt_eq_some]
      exact ⟨task, hstop.frame.tasks ▸ htask, rfl⟩
    rw [← hlater P hP]
    exact hall P task.conf hconf hvalid (hsets task htask)
  · intro hall P conf hP hvalid hup
    cases htail : s.tails.find? P with
    | none =>
        obtain ⟨hmem, hnone₂, task, htask, rfl⟩ := (added_iff hr hstop).mp ⟨hP, htail⟩
        rw [hlater P hmem]
        refine hall P hmem ⟨⟨task, htask, hvalid⟩, fun tw htw => ?_⟩ fun task' htask' => ?_
        · rw [hnone₂] at htw
          cases htw
        · cases htask.symm.trans htask'
          exact hup
    | some x =>
        -- a kept pattern
        obtain ⟨task, htask, rfl⟩ := confAt_eq_some.mp ((hr.tasks P).trans hP)
        have hmem : P ∈ s₁.keptKeys := OrdSet.mem_inter.mpr
          ⟨OrdMap.mem_keys.mpr ⟨x, hr.tails ▸ htail⟩, OrdMap.mem_keys.mpr ⟨task, htask⟩⟩
        have htask₄ : s₄.tasks.find? P = some task := by
          rw [htasks₄, hstop.frame.tasks]
          exact htask
        exact hkept P hmem task htask₄ hvalid hup

/-- **Which patterns are started.**  `startWatchers` gives every pattern in need
one exactly when no pattern up to it is disabled or in the map already; after a
refresh every enabled pattern of the configuration has a watcher exactly when no
disabled one without a watcher comes before an enabled one without. -/
theorem start_all_iff (cfg : Config) (env : Env) (s s' : Manager) :
    (∀ paths : OrdSet Str, startWatchers env paths.elems [.tailWatchers] s = .ok ((), s') →
      ((∀ P ∈ paths, Needs s P → SetsUpAt env s.producers s P →
          ∃ tw, s'.tails.find? P = some (some tw)) ↔
        ∀ P ∈ paths, Needs s P → SetsUpAt env s.producers s P →
          ∀ Q ∈ paths, Q ≤ P → startable s Q = true)) ∧
    ∀ (pf : OrdMap PositionEntryKey Slot) (es : List Event)
      (members : List (Str × Option TaskConf)),
      run (step cfg) es (init pf) = some s → env.document = .object members →
      refreshWatchers cfg env [] s = .ok (true, s') →
      ((∀ P conf, (newConfs members).find? P = some conf → conf.valid = true →
          env.SetsUp s.producers conf → ∃ tw, s'.tails.find? P = some (some tw)) ↔
        Unblocked env (newConfs members) s) := by
  refine ⟨?_, ?_⟩
  · intro paths h
    exact ((wp_startWatchers_tails (startable s) paths.elems s paths.nodup (List.Subset.refl _)
      fun _ _ => rfl).ok h).iff
  · intro pf es members hrun hdoc h
    have hs : s.Wf := run_inv wf_step es _ s (wf_init pf) hrun
    exact (wp_refreshWatchers_served hs hdoc).ok h rfl

/-! ## At two patterns -/

def sizes : Config := ⟨10000, 1048576, 2097152, 10⟩

def emptyLog : LogFile := ⟨[], by decide⟩

/-- Nothing is read and no file is there; every setup succeeds. -/
def idle (document : Document) : Env where
  now := 0
  document := document
  expandPath := id
  globed _ := none
  readable _ := true
  getInode _ := inoNone
  stat _ := none
  fopen _ := none
  producerInit _ := true
  triggersInit := true
  ioInit _ := true
  stopIo _ := ⟨emptyLog, 0, []⟩
  notifyIo _ := ⟨emptyLog, 0, []⟩

/-- The settings of `path`, for the topic "t". -/
def plainConf (valid : Bool) (path : Str) : TaskConf where
  valid := valid
  logConf := ⟨path, false, 200, false, 10, true⟩
  kafkaTopicConf := ⟨[], [116], [110, 111, 110, 101], 1, [], 0, 0⟩
  filterConf := ⟨[]⟩

/-- The settings of `path`, for the topic "u". -/
def otherConf (valid : Bool) (path : Str) : TaskConf :=
  { plainConf valid path with kafkaTopicConf := ⟨[], [117], [110, 111, 110, 101], 1, [], 0, 0⟩ }

theorem setsUp_plainConf (document : Document) (valid : Bool) (path : Str) :
    (idle document).SetsUp producers (plainConf valid path) :=
  ⟨⟨List.mem_cons_self, Or.inr rfl⟩, rfl⟩

/-- "a" is disabled, "b" is enabled: no watcher of "b". -/
theorem start_all_fails :
    ∃ s', refreshWatchers sizes
        (idle (.object [([97], some (plainConf false [97])), ([98], some (plainConf true [98]))])) []
        (init OrdMap.empty) = .ok (true, s') ∧
      s'.taskConfs.find? [98] = some (plainConf true [98]) ∧
      (∀ document, (idle document).SetsUp [] (plainConf true [98])) ∧ s'.tails.find? [98] = none :=
  ⟨_, rfl, by decide, fun _ => setsUp_plainConf _ _ _, by decide⟩

/-- The tasks of "a" and "b", enabled, and that of "c", disabled. -/
def threeTasks : Manager :=
  { init OrdMap.empty with
    tasks := ((OrdMap.empty.insert [97] ⟨10, plainConf true [97], ⟨true, [[97]]⟩⟩).insert [98]
      ⟨10, plainConf true [98], ⟨true, [[98]]⟩⟩).insert [99]
      ⟨10, plainConf false [99], ⟨true, [[99]]⟩⟩ }

def threePaths : OrdSet Str := ⟨[[97], [98], [99]], by decide⟩

/-- No producer can be made any more. -/
def unproducing (env : Env) : Env := { env with producerInit := fun _ => false }

/-- Behind "a" and before "c" stands "b"; it is served by `startWatchers`, and in a
refresh that cannot make a producer but has the one made for "a". -/
theorem start_all_iff_between :
    (∃ s', startWatchers (idle .parseError) threePaths.elems [.tailWatchers] threeTasks
        = .ok ((), s') ∧ ∃ tw, s'.tails.find? [98] = some (some tw)) ∧
    ∃ s s', run (step sizes)
        [.refresh (idle (.object [([97], some (plainConf true [97]))]))] (init OrdMap.empty)
        = some s ∧
      refreshWatchers sizes (unproducing (idle (.object [([97], some (plainConf true [97])),
        ([98], some (plainConf true [98])), ([99], some (plainConf false [99]))]))) [] s
        = .ok (true, s') ∧
      ∃ tw, s'.tails.find? [98] = some (some tw) := by
  constructor
  · refine ⟨_, rfl, ((start_all_iff sizes (idle .parseError) threeTasks _).1 threePaths
      rfl).mpr ?_ [98] (by decide) ⟨⟨_, rfl, rfl⟩, fun tw htw => by cases htw⟩ fun task htask => ?_⟩
    · intro P hP hneeds _ Q hQ hle
      have hlast : P ≠ [99] := by
        rintro rfl
        obtain ⟨⟨task, htask, hvalid⟩, -⟩ := hneeds
        cases htask
        cases hvalid
      exact (by decide : ∀ P ∈ threePaths.elems, P ≠ [99] → ∀ Q ∈ threePaths.elems, Q ≤ P →
        startable threeTasks Q = true) P hP hlast Q hQ hle
    · cases htask
      exact setsUp_plainConf _ _ _
  · let members : List (Str × Option TaskConf) := [([97], some (plainConf true [97])),
      ([98], some (plainConf true [98])), ([99], some (plainConf false [99]))]
    let es : List Event := [.refresh (idle (.object [([97], some (plainConf true [97]))]))]
    have h : ((run (step sizes) es (init OrdMap.empty)).any fun s =>
        (leaves? (refreshWatchers sizes (unproducing (idle (.object members)))) [] s).isSome &&
        decide (Unblocked (unproducing (idle (.object members))) (newConfs members) s) &&
        decide ((unproducing (idle (.object members))).SetsUp s.producers (plainConf true [98])))
        = true := by decide +kernel
    obtain ⟨s, hrun, hs⟩ := (Option.any_eq_true _ _).mp h
    obtain ⟨hs, hup⟩ := Bool.and_eq_true_iff.mp hs
    obtain ⟨hdone, hfree⟩ := Bool.and_eq_true_iff.mp hs
    obtain ⟨s', hs'⟩ := Option.isSome_iff_exists.mp hdone
    have hrefresh := leaves?_eq_some.mp hs'
    exact ⟨s, s', hrun, hrefresh, ((start_all_iff sizes _ s s').2 OrdMap.empty es members hrun rfl
      hrefresh).mpr (of_decide_eq_true hfree) [98] _ rfl rfl (of_decide_eq_true hup)⟩

end Manager

end Logkafka
