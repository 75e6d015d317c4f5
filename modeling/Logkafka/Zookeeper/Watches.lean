/-
# `Logkafka.Zookeeper.Watches` — refresh, the watchers and the two caches

`Zookeeper` keeps a copy of two things that are in zookeeper: the log config,
in `m_log_config`, and the urls of the brokers, in `m_broker_urls`.  They are
read by `refresh`, which `init` calls and then the timer thread, and by
`configChangeWatcher` and `brokerChangeWatcher`, which the thread of the
zookeeper client calls when a watch has fired.  All three do their work in the
same parts, each under a mutex of its own:

    refreshBrokerUrls    m_broker_urls_mutex   reads the brokers
    refreshWatchers      m_zhandle_mutex       arms both watches, and registers
    refreshLogConfig     m_log_config_mutex    reads the log config

Every call of the client is a step, but for two that do nothing here:
`ensurePathExist` of paths that exist, and `refreshConnection`, since one session
lasts.  Sessions that expire, and what `refreshWatchers` does last, are in
`Logkafka.Zookeeper.Registration`.
-/
import Logkafka.OneShot
import Logkafka.OrdMap
import Logkafka.Run
import Logkafka.Tools
import Mathlib.Data.List.Lex

namespace Logkafka

/-- `ZNODE_BUF_MAX_LEN` -/
def znodeBufMaxLen : ℕ := 10240

/-- What `getZnodeData` makes of the data that `zoo_get` copies to a buffer of
`len` bytes, with a zero after them. -/
def znodeData (len : ℕ) (data : Str) : Str := cstr (data.take len)

/-- A node, or its children, with the watch on it: whether it is set, and how
many notifications the client has not called back for. -/
structure Znode (α : Type*) where
  data : α
  armed : Bool
  pending : ℕ

namespace Znode

variable {α : Type*}

/-- The watch fires once for the first change after it was set. -/
def change (z : Znode α) (data : α) : Znode α where
  data := data
  armed := false
  pending := z.pending + if z.armed then 1 else 0

def arm (z : Znode α) : Znode α := { z with armed := true }

def notified (z : Znode α) : Znode α := { z with pending := z.pending - 1 }

end Znode

inductive ZkThread
  | timer
  | completion
  deriving DecidableEq

inductive Part
  | brokerUrls
  | watchers
  | logConfig
  deriving DecidableEq

/-- Where a thread is: between two parts, or before a call of the client.  In
the loop over the broker ids, `done` are behind it and `rest` before it. -/
inductive Spot
  | out
  | brokerIds
  | brokerExists (done : List Str) (bid : Str) (rest : List Str)
  | brokerGet (done : List Str) (bid : Str) (rest : List Str) (len : ℕ)
  | setWatcher
  | setChildrenWatcher
  | register
  | configExists
  | configGet (len : ℕ)
  deriving DecidableEq

/-- The part whose mutex is held. -/
def Spot.inside : Spot → Option Part
  | .out => none
  | .brokerIds | .brokerExists _ _ _ | .brokerGet _ _ _ _ => some .brokerUrls
  | .setWatcher | .setChildrenWatcher | .register => some .watchers
  | .configExists | .configGet _ => some .logConfig

def Part.enter : Part → Spot
  | .brokerUrls => .brokerIds
  | .watchers => .setWatcher
  | .logConfig => .configExists

/-- A thread, and the parts it has still to enter. -/
structure Running where
  spot : Spot
  todo : List Part
  deriving DecidableEq

def idling : Running := ⟨.out, []⟩

def refreshParts : List Part := [.brokerUrls, .watchers, .logConfig]

def configChangeParts : List Part := [.watchers, .logConfig]

def brokerChangeParts : List Part := [.watchers, .brokerUrls]

/-- `ready`: the `refresh` of `init` has returned. -/
structure ZkClient where
  config : Znode Str
  brokers : Znode (OrdMap Str Str)
  logConfig : Str
  brokerUrls : Str
  ready : Bool
  threads : ZkThread → Running

inductive ZkEvent
  | setConfig (data : Str)
  | addBroker (bid info : Str)
  | removeBroker (bid : Str)
  | refresh
  | configChanged
  | brokersChanged
  | sessionEvent
  | advance (th : ZkThread) (ids : List Str)

namespace ZkClient

/-- When `init` calls `refresh`. -/
def init (config : Str) (brokers : OrdMap Str Str) : ZkClient where
  config := ⟨config, false, 0⟩
  brokers := ⟨brokers, false, 0⟩
  logConfig := [123, 125]
  brokerUrls := []
  ready := false
  threads
    | .timer => ⟨.out, refreshParts⟩
    | .completion => idling

def setThread (s : ZkClient) (th : ZkThread) (r : Running) : ZkClient :=
  { s with threads := Function.update s.threads th r }

/-- The mutex of the part is free. -/
def free (s : ZkClient) (part : Part) : Bool :=
  (s.threads .timer).spot.inside ≠ some part && (s.threads .completion).spot.inside ≠ some part

/-- The part is done with. -/
def leave (s : ZkClient) (th : ZkThread) : ZkClient :=
  { s.setThread th ⟨.out, (s.threads th).todo⟩ with
    ready := s.ready || (th = .timer && (s.threads th).todo = []) }

section

variable (getBrokerIpAndPort : Str → Option (Str × Str))

/-- What the loop of `refreshBrokerUrls` appends for one broker. -/
def appendUrl (done : List Str) (urls host port : Str) : Str :=
  (if done = [] then urls else urls ++ [44]) ++ host ++ [58] ++ port

/-- The next call of a thread.  `ids` is the order in which the children come,
where it asks for them. -/
def advance (th : ZkThread) (ids : List Str) (s : ZkClient) : Option ZkClient :=
  let todo := (s.threads th).todo
  match (s.threads th).spot with
  | .out =>
      match todo with
      | [] => none
      | part :: todo => if s.free part then some (s.setThread th ⟨part.enter, todo⟩) else none
  | .brokerIds =>
      if ids.Perm s.brokers.data.keys.elems then
        match ids with
        | [] => some { s.leave th with brokerUrls := [] }
        | bid :: rest =>
            some { s.setThread th ⟨.brokerExists [] bid rest, todo⟩ with brokerUrls := [] }
      else none
  | .brokerExists done bid rest =>
      let len :=
        match s.brokers.data.find? bid with
        | some info => info.length
        | none => znodeBufMaxLen
      some (s.setThread th ⟨.brokerGet done bid rest len, todo⟩)
  | .brokerGet done bid rest len =>
      match (s.brokers.data.find? bid).bind fun info =>
          getBrokerIpAndPort (znodeData len info) with
      | none => some (s.leave th)
      | some (host, port) =>
          let urls := appendUrl done s.brokerUrls host port
          match rest with
          | [] => some { s.leave th with brokerUrls := urls }
          | next :: rest => some
              { s.setThread th ⟨.brokerExists (done ++ [bid]) next rest, todo⟩ with brokerUrls := urls }
  | .setWatcher => some { s.setThread th ⟨.setChildrenWatcher, todo⟩ with config := s.config.arm }
  | .setChildrenWatcher => some { s.setThread th ⟨.register, todo⟩ with brokers := s.brokers.arm }
  | .register => some (s.leave th)
  | .configExists => some (s.setThread th ⟨.configGet s.config.data.length, todo⟩)
  | .configGet len => some { s.leave th with logConfig := znodeData len s.config.data }

/-- One step of somebody who writes to the nodes, of the timer or the client's
notifications, or of a thread. -/
def step : ZkEvent → ZkClient → Option ZkClient
  | .setConfig data, s => some { s with config := s.config.change data }
  | .addBroker bid info, s =>
      match s.brokers.data.find? bid with
      | none => some { s with brokers := s.brokers.change (s.brokers.data.insert bid info) }
      | some _ => none
  | .removeBroker bid, s =>
      match s.brokers.data.find? bid with
      | none => none
      | some _ => some { s with brokers := s.brokers.change (s.brokers.data.erase bid) }
  | .refresh, s =>
      if s.ready ∧ s.threads .timer = idling then some (s.setThread .timer ⟨.out, refreshParts⟩)
      else none
  | .configChanged, s =>
      if s.threads .completion = idling ∧ 0 < s.config.pending then
        some { s.setThread .completion ⟨.out, configChangeParts⟩ with config := s.config.notified }
      else none
  | .brokersChanged, s =>
      if s.threads .completion = idling ∧ 0 < s.brokers.pending then
        some { s.setThread .completion ⟨.out, brokerChangeParts⟩ with brokers := s.brokers.notified }
      else none
  | .sessionEvent, s =>   -- both watchers are called, with ZOO_SESSION_EVENT
      if s.threads .completion = idling ∧ (s.config.armed ∨ s.brokers.armed) then
        some (s.setThread .completion ⟨.out, [.watchers]⟩)
      else none
  | .advance th ids, s => s.advance getBrokerIpAndPort th ids

end

/-- No handler is in progress. -/
def Quiet (s : ZkClient) : Prop := ∀ th, s.threads th = idling

/-- A mutex is held by one thread. -/
def Exclusive (s : ZkClient) : Prop :=
  ∀ th th' part, (s.threads th).spot.inside = some part →
    (s.threads th').spot.inside = some part → th = th'

/-! ## The threads -/

variable {s s' : ZkClient} {th th' : ZkThread} {r : Running} {ids : List Str}
  {getBrokerIpAndPort : Str → Option (Str × Str)}

theorem quiet_of_threads (htimer : s.threads .timer = idling)
    (hcompletion : s.threads .completion = idling) : s.Quiet := by
  intro th
  cases th with
  | timer => exact htimer
  | completion => exact hcompletion

@[simp] theorem threads_setThread :
    (s.setThread th r).threads = Function.update s.threads th r := rfl

@[simp] theorem threads_leave :
    (s.leave th).threads = Function.update s.threads th ⟨.out, (s.threads th).todo⟩ := rfl

theorem inside_of_free {part : Part} (h : s.free part = true) (th : ZkThread) :
    (s.threads th).spot.inside ≠ some part := by
  simp only [free, Bool.and_eq_true, decide_eq_true_eq] at h
  cases th with
  | timer => exact h.1
  | completion => exact h.2

theorem running_of_spot {spot : Spot} (hat : (s.threads th).spot = spot) :
    s.threads th = ⟨spot, (s.threads th).todo⟩ := by
  rw [← hat]

/-! ## The steps

One call of the client at a time, by whichever thread can go on.
-/

/-- What the call of a thread does, by where the thread is. -/
inductive Advance (getBrokerIpAndPort : Str → Option (Str × Str)) (th : ZkThread)
    (ids : List Str) (s : ZkClient) : ZkClient → Prop
  | enter {part : Part} {todo : List Part} : s.threads th = ⟨.out, part :: todo⟩ →
      s.free part = true → Advance getBrokerIpAndPort th ids s
        (s.setThread th ⟨part.enter, todo⟩)
  | noIds : (s.threads th).spot = .brokerIds → ids.Perm s.brokers.data.keys.elems → ids = [] →
      Advance getBrokerIpAndPort th ids s { s.leave th with brokerUrls := [] }
  | ids {bid : Str} {rest : List Str} : (s.threads th).spot = .brokerIds →
      ids.Perm s.brokers.data.keys.elems → ids = bid :: rest →
      Advance getBrokerIpAndPort th ids s
        { s.setThread th ⟨.brokerExists [] bid rest, (s.threads th).todo⟩ with brokerUrls := [] }
  | brokerExists {done rest : List Str} {bid : Str} {len : ℕ} :
      (s.threads th).spot = .brokerExists done bid rest →
      (∀ info, s.brokers.data.find? bid = some info → len = info.length) →
      Advance getBrokerIpAndPort th ids s
        (s.setThread th ⟨.brokerGet done bid rest len, (s.threads th).todo⟩)
  | brokerFails {done rest : List Str} {bid : Str} {len : ℕ} :
      (s.threads th).spot = .brokerGet done bid rest len →
      ((s.brokers.data.find? bid).bind fun info =>
        getBrokerIpAndPort (znodeData len info)) = none →
      Advance getBrokerIpAndPort th ids s (s.leave th)
  | lastBroker {done : List Str} {bid host port : Str} {len : ℕ} :
      (s.threads th).spot = .brokerGet done bid [] len →
      ((s.brokers.data.find? bid).bind fun info =>
        getBrokerIpAndPort (znodeData len info)) = some (host, port) →
      Advance getBrokerIpAndPort th ids s
        { s.leave th with brokerUrls := appendUrl done s.brokerUrls host port }
  | nextBroker {done rest : List Str} {bid next host port : Str} {len : ℕ} :
      (s.threads th).spot = .brokerGet done bid (next :: rest) len →
      ((s.brokers.data.find? bid).bind fun info =>
        getBrokerIpAndPort (znodeData len info)) = some (host, port) →
      Advance getBrokerIpAndPort th ids s
        { s.setThread th ⟨.brokerExists (done ++ [bid]) next rest, (s.threads th).todo⟩ with
          brokerUrls := appendUrl done s.brokerUrls host port }
  | setWatcher : (s.threads th).spot = .setWatcher → Advance getBrokerIpAndPort th ids s
      { s.setThread th ⟨.setChildrenWatcher, (s.threads th).todo⟩ with config := s.config.arm }
  | setChildrenWatcher : (s.threads th).spot = .setChildrenWatcher →
      Advance getBrokerIpAndPort th ids s
        { s.setThread th ⟨.register, (s.threads th).todo⟩ with brokers := s.brokers.arm }
  | register : (s.threads th).spot = .register → Advance getBrokerIpAndPort th ids s (s.leave th)
  | configExists : (s.threads th).spot = .configExists → Advance getBrokerIpAndPort th ids s
      (s.setThread th ⟨.configGet s.config.data.length, (s.threads th).todo⟩)
  | configGet {len : ℕ} : (s.threads th).spot = .configGet len →
      Advance getBrokerIpAndPort th ids s
        { s.leave th with logConfig := znodeData len s.config.data }

theorem advance_cases (h : s.advance getBrokerIpAndPort th ids = some s') :
    Advance getBrokerIpAndPort th ids s s' := by
  unfold advance at h
  dsimp only at h
  split at h
  · next hat =>
      split at h
      · cases h
      · next part todo htodo =>
          obtain ⟨hfree, h⟩ := Option.ite_none_right_eq_some.mp h
          cases h
          exact .enter (by rw [running_of_spot hat, htodo]) hfree
  · next hat =>
      obtain ⟨hperm, h⟩ := Option.ite_none_right_eq_some.mp h
      split at h
      · cases h
        exact .noIds hat hperm rfl
      · cases h
        exact .ids hat hperm rfl
  · next done bid rest hat =>
      cases h
      exact .brokerExists hat fun info hinfo => by rw [hinfo]
  · next done bid rest len hat =>
      split at h
      · next hnone =>
          cases h
          exact .brokerFails hat hnone
      · next host port hsome =>
          split at h
          · cases h
            exact .lastBroker hat hsome
          · cases h
            exact .nextBroker hat hsome
  · next hat =>
      cases h
      exact .setWatcher hat
  · next hat =>
      cases h
      exact .setChildrenWatcher hat
  · next hat =>
      cases h
      exact .register hat
  · next hat =>
      cases h
      exact .configExists hat
  · next len hat =>
      cases h
      exact .configGet hat

/-- What a step is. -/
inductive Stepped (getBrokerIpAndPort : Str → Option (Str × Str)) (s : ZkClient) :
    ZkEvent → ZkClient → Prop
  | setConfig {data : Str} : Stepped getBrokerIpAndPort s (.setConfig data)
      { s with config := s.config.change data }
  | addBroker {bid info : Str} : s.brokers.data.find? bid = none →
      Stepped getBrokerIpAndPort s (.addBroker bid info)
        { s with brokers := s.brokers.change (s.brokers.data.insert bid info) }
  | removeBroker {bid info : Str} : s.brokers.data.find? bid = some info →
      Stepped getBrokerIpAndPort s (.removeBroker bid)
        { s with brokers := s.brokers.change (s.brokers.data.erase bid) }
  | refresh : s.ready = true → s.threads .timer = idling →
      Stepped getBrokerIpAndPort s .refresh (s.setThread .timer ⟨.out, refreshParts⟩)
  | configChanged : s.threads .completion = idling → 0 < s.config.pending →
      Stepped getBrokerIpAndPort s .configChanged
        { s.setThread .completion ⟨.out, configChangeParts⟩ with config := s.config.notified }
  | brokersChanged : s.threads .completion = idling → 0 < s.brokers.pending →
      Stepped getBrokerIpAndPort s .brokersChanged
        { s.setThread .completion ⟨.out, brokerChangeParts⟩ with brokers := s.brokers.notified }
  | sessionEvent : s.threads .completion = idling →
      (s.config.armed = true ∨ s.brokers.armed = true) →
      Stepped getBrokerIpAndPort s .sessionEvent (s.setThread .completion ⟨.out, [.watchers]⟩)
  | advance {th : ZkThread} {ids : List Str} {s' : ZkClient} :
      s.advance getBrokerIpAndPort th ids = some s' →
      Stepped getBrokerIpAndPort s (.advance th ids) s'

theorem step_cases {a : ZkEvent} (h : step getBrokerIpAndPort a s = some s') :
    Stepped getBrokerIpAndPort s a s' := by
  cases a with
  | setConfig data =>
      cases h
      exact .setConfig
  | addBroker bid info =>
      simp only [step] at h
      split at h
      · next hnew =>
          cases h
          exact .addBroker hnew
      · cases h
  | removeBroker bid =>
      simp only [step] at h
      split at h
      · cases h
      · next info hfound =>
          cases h
          exact .removeBroker hfound
  | refresh =>
      obtain ⟨⟨hready, hidle⟩, h⟩ := Option.ite_none_right_eq_some.mp h
      cases h
      exact .refresh hready hidle
  | configChanged =>
      obtain ⟨⟨hidle, hpending⟩, h⟩ := Option.ite_none_right_eq_some.mp h
      cases h
      exact .configChanged hidle hpending
  | brokersChanged =>
      obtain ⟨⟨hidle, hpending⟩, h⟩ := Option.ite_none_right_eq_some.mp h
      cases h
      exact .brokersChanged hidle hpending
  | sessionEvent =>
      obtain ⟨⟨hidle, harmed⟩, h⟩ := Option.ite_none_right_eq_some.mp h
      cases h
      exact .sessionEvent hidle harmed
  | advance th ids => exact .advance h

/-! ## The mutexes -/

/-- A call moves its own thread, and takes a mutex only when it is free. -/
theorem threads_of_advance (h : s.advance getBrokerIpAndPort th ids = some s') :
    ∃ r, s'.threads = Function.update s.threads th r ∧
      (r.spot.inside = none ∨ r.spot.inside = (s.threads th).spot.inside ∨
        ∃ part, r.spot.inside = some part ∧ s.free part = true) := by
  have hinside : ∀ {part : Part}, part.enter.inside = some part := by
    intro part
    cases part <;> rfl
  cases advance_cases h with
  | enter hat hfree => exact ⟨_, rfl, Or.inr (Or.inr ⟨_, hinside, hfree⟩)⟩
  | noIds | brokerFails | lastBroker | register | configGet => exact ⟨_, rfl, Or.inl rfl⟩
  | ids hat | brokerExists hat | nextBroker hat | setWatcher hat | setChildrenWatcher hat
  | configExists hat =>
      refine ⟨_, rfl, Or.inr (Or.inl ?_)⟩
      rw [hat]
      rfl

/-- A thread goes on outside, inside where it was, or where nobody is. -/
theorem Exclusive.of_update (h : s.Exclusive)
    (hthreads : s'.threads = Function.update s.threads th r)
    (hr : r.spot.inside = none ∨ r.spot.inside = (s.threads th).spot.inside ∨
      ∃ part, r.spot.inside = some part ∧ s.free part = true) : s'.Exclusive := by
  have hself : ∀ th' part, th' ≠ th → r.spot.inside = some part →
      (s.threads th').spot.inside ≠ some part := by
    intro th' part hne hpart hpart'
    rcases hr with hout | hsame | ⟨part', hnew, hfree⟩
    · rw [hout] at hpart
      cases hpart
    · exact hne (h th' th part hpart' (hsame.symm.trans hpart))
    · obtain rfl : part' = part := Option.some.inj (hnew.symm.trans hpart)
      exact inside_of_free hfree th' hpart'
  intro th₁ th₂ part h₁ h₂
  rw [hthreads] at h₁ h₂
  by_cases e₁ : th₁ = th
  · by_cases e₂ : th₂ = th
    · exact e₁.trans e₂.symm
    · subst e₁
      rw [Function.update_self] at h₁
      rw [Function.update_of_ne e₂] at h₂
      exact absurd h₂ (hself th₂ part e₂ h₁)
  · rw [Function.update_of_ne e₁] at h₁
    by_cases e₂ : th₂ = th
    · subst e₂
      rw [Function.update_self] at h₂
      exact absurd h₁ (hself th₁ part e₁ h₂)
    · rw [Function.update_of_ne e₂] at h₂
      exact h th₁ th₂ part h₁ h₂

theorem exclusive_of_step {a : ZkEvent} (h : s.Exclusive)
    (hstep : step getBrokerIpAndPort a s = some s') : s'.Exclusive := by
  cases step_cases hstep with
  | setConfig | addBroker | removeBroker => exact h
  | refresh | sessionEvent => exact h.of_update rfl (Or.inl rfl)
  | configChanged | brokersChanged => exact h.of_update (s := s) rfl (Or.inl rfl)
  | advance hcall =>
      obtain ⟨r, hthreads, hr⟩ := threads_of_advance hcall
      exact h.of_update hthreads hr

theorem exclusive_init (config : Str) (brokers : OrdMap Str Str) :
    (init config brokers).Exclusive := by
  intro th th' part h
  cases th with
  | timer => cases h
  | completion => cases h

/-! ## What is still ahead of a thread

How far a thread is from the part that reads, which says whether a change will
still be read.
-/

open OneShot in
/-- How far a thread between two parts is from doing `target`, and whether it
does `refreshWatchers` before. -/
def aheadOf (target : Part) : List Part → Stage
  | [] => .away
  | part :: todo =>
      if part = target then .toRead
      else if part = .watchers then (aheadOf target todo).unarmed
      else aheadOf target todo

open OneShot in
theorem not_busy_aheadOf (target : Part) (todo : List Part) : ¬ (aheadOf target todo).Busy := by
  induction todo with
  | nil => exact Stage.not_busy_away
  | cons part todo ih =>
      unfold aheadOf
      split
      · exact Stage.not_busy_toRead
      · split
        · exact fun h => ih (Stage.busy_of_unarmed h)
        · exact ih

end ZkClient

end Logkafka
