/-
# `Logkafka.Zookeeper.ConfigWatch` — no change of the log config is lost

`refresh` and `configChangeWatcher` both arm the data watch before they read
the data, so that a change after the watch was armed is notified, and one
before is read.  `getZnodeData` takes two calls, for the length and for the
data; a change between them makes the data come out cut, and is notified.

`m_log_config` is a copy of the data up to the first zero byte: `getZnodeData`
makes a string of the buffer.
-/
import Logkafka.Zookeeper.Watches

namespace Logkafka

namespace ZkClient

open OneShot

variable {s s' : ZkClient} {th : ZkThread} {r : Running} {ids : List Str} {data : Str}
  {getBrokerIpAndPort : Str → Option (Str × Str)}

/-! ## The view of the log config

The same view as that of the brokers, with two calls for one reading.
-/

/-- `zoo_get` goes well if the data is as long as `zoo_exists` said. -/
def configStage (data : Str) (r : Running) : Stage :=
  match r.spot with
  | .configExists => .toRead
  | .configGet len => if len = data.length then .reading else .stale
  | .setWatcher => (aheadOf .logConfig r.todo).unarmed
  | _ => aheadOf .logConfig r.todo

def configView (s : ZkClient) : View ZkThread where
  armed := s.config.armed
  pending := s.config.pending
  current := s.logConfig = cstr s.config.data
  stage th := configStage s.config.data (s.threads th)

theorem configStage_enter (part : Part) (todo : List Part) :
    configStage data ⟨part.enter, todo⟩ = configStage data ⟨.out, part :: todo⟩ := by
  cases part with
  | brokerUrls => rfl
  | watchers => rfl
  | logConfig => rfl

/-- Only inside `refreshLogConfig` is a thread busy. -/
theorem inside_of_busy (h : (configStage data r).Busy) : r.spot.inside = some .logConfig := by
  unfold configStage at h
  split at h
  · exact absurd h Stage.not_busy_toRead
  · rename_i hspot
    rw [hspot]
    rfl
  · exact absurd (Stage.busy_of_unarmed h) (not_busy_aheadOf _ _)
  · exact absurd h (not_busy_aheadOf _ _)

/-- A change leaves everybody where it was, but the one that has the length. -/
theorem configStage_change (data data' : Str) (r : Running) :
    configStage data' r = configStage data r ∨
      (configStage data r).Busy ∧ (configStage data' r).Busy := by
  unfold configStage
  split
  · exact Or.inl rfl
  · refine Or.inr ⟨?_, ?_⟩
    · split
      · exact Or.inl rfl
      · exact Or.inr rfl
    · split
      · exact Or.inl rfl
      · exact Or.inr rfl
  · exact Or.inl rfl
  · exact Or.inl rfl

/-! ## Every step is a move

A reading that comes out cut has a change behind it, and counts as not done.
-/

/-- The stages of the other threads. -/
theorem configStage_update (hconfig : s'.config.data = s.config.data)
    (hthreads : s'.threads = Function.update s.threads th r) (th' : ZkThread) (h : th' ≠ th) :
    s'.configView.stage th' = s.configView.stage th' := by
  show configStage _ _ = configStage _ _
  rw [hconfig, hthreads, Function.update_of_ne h]

theorem configStage_self (hconfig : s'.config.data = s.config.data)
    (hthreads : s'.threads = Function.update s.threads th r) :
    s'.configView.stage th = configStage s.config.data r := by
  show configStage _ _ = _
  rw [hconfig, hthreads, Function.update_self]

/-- A step that has nothing to do with the log config. -/
theorem config_stay (hconfig : s'.config = s.config) (hlog : s'.logConfig = s.logConfig)
    (hthreads : s'.threads = Function.update s.threads th r)
    (hr : configStage s.config.data r = configStage s.config.data (s.threads th)) :
    Move s.configView s'.configView := by
  refine .stay (congrArg Znode.armed hconfig) (congrArg Znode.pending hconfig) ?_ fun th' => ?_
  · intro h
    show s'.logConfig = cstr s'.config.data
    rw [hlog, hconfig]
    exact h
  · by_cases hth : th' = th
    · subst hth
      exact (configStage_self (congrArg Znode.data hconfig) hthreads).trans hr
    · exact configStage_update (congrArg Znode.data hconfig) hthreads th' hth

/-- A step between two calls of nobody. -/
theorem config_rest (hconfig : s'.config = s.config) (hlog : s'.logConfig = s.logConfig)
    (hthreads : s'.threads = s.threads) : Move s.configView s'.configView := by
  have hupdate : s'.threads = Function.update s.threads .timer (s.threads .timer) := by
    rw [hthreads, Function.update_eq_self]
  exact config_stay hconfig hlog hupdate rfl

/-- A thread that was idle begins something. -/
theorem config_call (hconfig : s'.config = s.config) (hlog : s'.logConfig = s.logConfig)
    (hidle : s.threads th = idling) {todo : List Part}
    (hthreads : s'.threads = Function.update s.threads th ⟨.out, todo⟩) :
    Move s.configView s'.configView := by
  have hdata := congrArg Znode.data hconfig
  refine .call th ⟨congrArg Znode.armed hconfig, congrArg Znode.pending hconfig,
    configStage_update hdata hthreads⟩ ?_ ?_ ?_
  · intro h
    show s'.logConfig = cstr s'.config.data
    rw [hlog, hconfig]
    exact h
  · show configStage _ _ = _
    rw [hidle]
    rfl
  · rw [configStage_self hdata hthreads]
    exact not_busy_aheadOf _ _

theorem config_move_advance (hex : s.Exclusive)
    (h : s.advance getBrokerIpAndPort th ids = some s') :
    Move s.configView s'.configView := by
  have alone : (s.threads th).spot.inside = some .logConfig →
      ∀ th', (s.configView.stage th').Busy → th' = th :=
    fun hth th' hbusy => hex th' th .logConfig (inside_of_busy hbusy) hth
  cases advance_cases h with
  | enter hat =>
      refine config_stay rfl rfl rfl ?_
      rw [configStage_enter, hat]
  | noIds hat | ids hat | brokerExists hat | brokerFails hat | lastBroker hat | nextBroker hat
  | setChildrenWatcher hat | register hat =>
      refine config_stay rfl rfl rfl ?_
      rw [running_of_spot hat]
      rfl
  | setWatcher hat =>
      -- the data watch is armed
      refine .arm th rfl rfl id ?_ (configStage_update rfl rfl)
      have hbefore : s.configView.stage th = (aheadOf .logConfig (s.threads th).todo).unarmed := by
        show configStage _ _ = _
        rw [running_of_spot hat]
        rfl
      rw [hbefore]
      show configStage _ (Function.update s.threads th _ th) = _ ∨
        configStage _ (Function.update s.threads th _ th) = _
      rw [Function.update_self]
      exact Stage.arm_unarmed
  | configExists hat =>
      -- the length is asked for
      refine .read th ⟨rfl, rfl, configStage_update rfl rfl⟩ (Or.inl ?_)
        (alone (by rw [hat]; rfl)) (Or.inr (Or.inl ?_))
      · show configStage _ _ = _
        rw [running_of_spot hat]
        rfl
      · show configStage _ (Function.update s.threads th _ th) = _
        rw [Function.update_self]
        exact if_pos rfl
  | @configGet len hat =>
      -- the data is read, and is whole if it is as long as it was
      have hbefore : s.configView.stage th =
          if len = s.config.data.length then .reading else .stale := by
        show configStage _ _ = _
        rw [running_of_spot hat]
        rfl
      refine .read th ⟨rfl, rfl, configStage_update rfl rfl⟩ (Or.inr ?_)
        (alone (by rw [hat]; rfl)) ?_
      · rw [hbefore]
        split
        · exact Or.inl rfl
        · exact Or.inr rfl
      · rw [hbefore]
        split
        · rename_i hlen
          refine Or.inr (Or.inr ⟨?_, ?_⟩)
          · show ¬ (configStage _ (Function.update s.threads th _ th)).Busy
            rw [Function.update_self]
            exact not_busy_aheadOf _ _
          · show znodeData len s.config.data = cstr s.config.data
            rw [znodeData, hlen, List.take_length]
        · exact Or.inl rfl

theorem config_move {a : ZkEvent} (hex : s.Exclusive)
    (hstep : step getBrokerIpAndPort a s = some s') : Move s.configView s'.configView := by
  cases step_cases hstep with
  | setConfig => exact .change rfl rfl fun th => configStage_change _ _ _
  | addBroker | removeBroker => exact config_rest rfl rfl rfl
  | refresh hready hidle => exact config_call rfl rfl hidle rfl
  | configChanged hidle hpending =>
      refine .notify .completion rfl ?_ ?_ rfl (configStage_update rfl rfl)
      · show s.config.pending = s.config.pending - 1 + 1
        omega
      · show configStage _ _ = _
        rw [hidle]
        rfl
  | brokersChanged hidle => exact config_call (s := s) rfl rfl hidle rfl
  | sessionEvent hidle => exact config_call rfl rfl hidle rfl
  | advance hcall => exact config_move_advance hex hcall

/-- `init` arms the watch before it reads. -/
theorem config_covered_init (config : Str) (brokers : OrdMap Str Str) :
    (init config brokers).configView.Covered where
  watched := Or.inr (Or.inr ⟨.timer, rfl⟩)
  fresh := Or.inr (Or.inr ⟨.timer, Or.inl (Or.inl rfl)⟩)
  behind th h := by
    cases th with
    | timer => cases h
    | completion => cases h
  one th th' h := by
    refine absurd h ?_
    cases th with
    | timer => exact not_busy_aheadOf _ _
    | completion => exact not_busy_aheadOf _ _

/-- However the writes and the two threads interleave, where no notification of
the config is pending and no handler is in progress `m_log_config` is the data
up to its first zero byte. -/
theorem log_config_current (getBrokerIpAndPort : Str → Option (Str × Str)) (config : Str)
    (brokers : OrdMap Str Str) (as : List ZkEvent) (u : ZkClient)
    (hr : run (step getBrokerIpAndPort) as (init config brokers) = some u)
    (hpending : u.config.pending = 0) (hquiet : u.Quiet) :
    u.logConfig = cstr u.config.data := by
  have hinv := run_inv (I := fun s => s.Exclusive ∧ s.configView.Covered)
    (fun a s s' h hstep => ⟨exclusive_of_step h.1 hstep, h.2.move (config_move h.1 hstep)⟩)
    as _ u ⟨exclusive_init config brokers, config_covered_init config brokers⟩ hr
  refine hinv.2.current hpending fun th => ?_
  show configStage _ _ = _
  rw [hquiet th]
  rfl

/-- One `refresh`, when there are no brokers. -/
def refreshed : List ZkEvent := List.replicate 9 (.advance .timer [])

/-- The config is written after the watch was armed, and read by the handler. -/
def rewritten : List ZkEvent :=
  refreshed ++ [.setConfig [98], .configChanged] ++ List.replicate 7 (.advance .completion [])

theorem log_config_current_rewritten : ∃ u,
    run (step fun _ => none) rewritten (init [97] OrdMap.empty) = some u ∧
      u.logConfig = cstr u.config.data := by
  have hrun : (run (step fun _ => none) rewritten (init [97] OrdMap.empty)).map
      (fun u => (u.config.pending, u.threads .timer, u.threads .completion)) =
        some (0, idling, idling) := by
    decide +kernel
  obtain ⟨u, hu, hstate⟩ := Option.map_eq_some_iff.mp hrun
  obtain ⟨hpending, hthreads⟩ := Prod.mk.inj hstate
  obtain ⟨htimer, hcompletion⟩ := Prod.mk.inj hthreads
  exact ⟨u, hu, log_config_current _ _ _ rewritten u hu hpending
    (quiet_of_threads htimer hcompletion)⟩

/-- The data "a\0b" is read as "a". -/
theorem log_config_cut : ∃ u,
    run (step fun _ => none) refreshed (init [97, 0, 98] OrdMap.empty) = some u ∧
      u.config.pending = 0 ∧ u.brokers.pending = 0 ∧ u.Quiet ∧
      ¬ u.logConfig = u.config.data := by
  have hrun : (run (step fun _ => none) refreshed (init [97, 0, 98] OrdMap.empty)).map
      (fun u => ((u.config.pending, u.brokers.pending), (u.threads .timer, u.threads .completion),
        (u.logConfig, u.config.data))) =
        some ((0, 0), (idling, idling), ([97], [97, 0, 98])) := by
    decide +kernel
  obtain ⟨u, hu, hstate⟩ := Option.map_eq_some_iff.mp hrun
  obtain ⟨hpending, hrest⟩ := Prod.mk.inj hstate
  obtain ⟨hthreads, hdata⟩ := Prod.mk.inj hrest
  obtain ⟨hconfig, hbrokers⟩ := Prod.mk.inj hpending
  obtain ⟨htimer, hcompletion⟩ := Prod.mk.inj hthreads
  obtain ⟨hlog, hznode⟩ := Prod.mk.inj hdata
  refine ⟨u, hu, hconfig, hbrokers, quiet_of_threads htimer hcompletion, ?_⟩
  rw [hlog, hznode]
  decide

end ZkClient

end Logkafka
