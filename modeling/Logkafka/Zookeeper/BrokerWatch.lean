/-
# `Logkafka.Zookeeper.BrokerWatch` — which changes of the brokers are seen

`brokerChangeWatcher` arms the children watch and reads the brokers after that.
`refresh` does it the other way round.  Where the watch was armed before, that
does no harm; in the `refresh` of `init` it was not, and what changes between
the reading and the arming is neither read nor notified.

    Listed m urls      `urls` lists the brokers of `m`, in some order
    Unseen s           the `refresh` of `init` is between the two
    Timely s a         no broker is added or removed then, and none is added
                       that has no address

The list is made in place, under `m_broker_urls_mutex`: while a thread reads,
`Agrees` says that what it has so far is right and what it has still to ask for
is the rest.
-/
import Logkafka.Zookeeper.Watches
import Mathlib.Data.List.Permutation

namespace Logkafka

namespace ZkClient

open OneShot

variable {s s' : ZkClient} {th : ZkThread} {r : Running} {ids done rest : List Str}
  {m m' : OrdMap Str Str} {urls urls' bid info host port : Str} {us : List Str}

/-- "host:port" -/
def brokerUrl (address : Str → Option (Str × Str)) (bid : Str) : Option Str :=
  (address bid).map fun address => address.1 ++ [58] ++ address.2

section

variable (getBrokerIpAndPort : Str → Option (Str × Str))

/-! ## The list of the urls

What the loop of `refreshBrokerUrls` has so far, and what it has to ask for.
-/

/-- The address of a registered broker. -/
def addressOf (m : OrdMap Str Str) (bid : Str) : Option (Str × Str) :=
  (m.find? bid).bind fun info => getBrokerIpAndPort (cstr info)

def Listed (m : OrdMap Str Str) (urls : Str) : Prop :=
  ∃ ids us : List Str, ids.Perm m.keys.elems ∧
    ids.mapM (brokerUrl (addressOf getBrokerIpAndPort m)) = some us ∧
      urls = List.intercalate [44] us

instance (m : OrdMap Str Str) (urls : Str) : Decidable (Listed getBrokerIpAndPort m urls) :=
  decidable_of_iff (∃ ids ∈ m.keys.elems.permutations',
      (ids.mapM (brokerUrl (addressOf getBrokerIpAndPort m))).map (List.intercalate [44])
        = some urls) (by
    constructor
    · rintro ⟨ids, hids, hurls⟩
      obtain ⟨us, hus, rfl⟩ := Option.map_eq_some_iff.mp hurls
      exact ⟨ids, us, List.mem_permutations'.mp hids, hus, rfl⟩
    · rintro ⟨ids, us, hids, hus, rfl⟩
      exact ⟨ids, List.mem_permutations'.mpr hids, by rw [hus]; rfl⟩)

/-- In the loop over the ids: `urls` lists the `done`, and these and the `rest`
are the brokers there are. -/
def Agrees (m : OrdMap Str Str) (urls : Str) (done rest : List Str) : Prop :=
  (done ++ rest).Perm m.keys.elems ∧ ∃ us,
    done.mapM (brokerUrl (addressOf getBrokerIpAndPort m)) = some us ∧
      urls = List.intercalate [44] us

/-- Every broker has a host and a port. -/
def Addressed (m : OrdMap Str Str) : Prop :=
  ∀ bid info, m.find? bid = some info → ∃ host port,
    getBrokerIpAndPort (cstr info) = some (host, port)

end

variable {getBrokerIpAndPort : Str → Option (Str × Str)}

theorem intercalate_concat (us : List Str) (u : Str) :
    List.intercalate [44] (us ++ [u]) =
      (if us = [] then [] else List.intercalate [44] us ++ [44]) ++ u := by
  induction us with
  | nil => simp
  | cons u' us ih =>
      rw [List.cons_append, List.intercalate_cons_of_ne_nil (by simp), ih,
        if_neg (List.cons_ne_nil u' us)]
      by_cases hus : us = []
      · simp [hus]
      · rw [if_neg hus, List.intercalate_cons_of_ne_nil hus]
        simp

theorem Agrees.start (h : ids.Perm m.keys.elems) : Agrees getBrokerIpAndPort m [] [] ids :=
  ⟨h, [], rfl, rfl⟩

theorem Agrees.listed (h : Agrees getBrokerIpAndPort m urls done []) :
    Listed getBrokerIpAndPort m urls := by
  obtain ⟨hperm, us, hus, hurls⟩ := h
  rw [List.append_nil] at hperm
  exact ⟨done, us, hperm, hus, hurls⟩

theorem eq_nil_iff_of_mapM {f : Str → Option Str} (h : done.mapM f = some us) :
    done = [] ↔ us = [] := by
  cases done with
  | nil =>
      cases h
      exact Iff.rfl
  | cons bid done =>
      rw [List.mapM_cons] at h
      obtain ⟨u, -, h⟩ := Option.bind_eq_some_iff.mp h
      obtain ⟨us', -, h⟩ := Option.bind_eq_some_iff.mp h
      cases h
      simp

/-- One round of the loop. -/
theorem Agrees.next (h : Agrees getBrokerIpAndPort m urls done (bid :: rest))
    (hinfo : m.find? bid = some info)
    (haddress : getBrokerIpAndPort (cstr info) = some (host, port)) :
    Agrees getBrokerIpAndPort m (appendUrl done urls host port) (done ++ [bid]) rest := by
  obtain ⟨hperm, us, hus, rfl⟩ := h
  have hurl : brokerUrl (addressOf getBrokerIpAndPort m) bid = some (host ++ [58] ++ port) := by
    rw [brokerUrl, addressOf, hinfo, Option.bind_some, haddress]
    rfl
  refine ⟨by simpa using hperm, us ++ [host ++ [58] ++ port], ?_, ?_⟩
  · rw [List.mapM_append, hus, List.mapM_cons, hurl]
    rfl
  · have hempty := eq_nil_iff_of_mapM hus
    rw [intercalate_concat, appendUrl]
    by_cases hdone : done = []
    · rw [if_pos hdone, if_pos (hempty.mp hdone), hempty.mp hdone]
      simp
    · rw [if_neg hdone, if_neg fun hus => hdone (hempty.mpr hus)]
      simp

/-! ## The view of the brokers

The state seen as one cache and its readers, as `Logkafka.Watch` has it.
-/

section

variable (getBrokerIpAndPort)

open Classical in
noncomputable def brokerStage (m : OrdMap Str Str) (urls : Str) (r : Running) : Stage :=
  match r.spot with
  | .brokerIds => .toRead
  | .brokerExists done bid rest =>
      if Agrees getBrokerIpAndPort m urls done (bid :: rest) then .reading else .stale
  | .brokerGet done bid rest len =>
      if Agrees getBrokerIpAndPort m urls done (bid :: rest) ∧
        ∃ info, m.find? bid = some info ∧ len = info.length then .reading else .stale
  | .setWatcher | .setChildrenWatcher => (aheadOf .brokerUrls r.todo).unarmed
  | _ => aheadOf .brokerUrls r.todo

noncomputable def brokerView (s : ZkClient) : View ZkThread where
  armed := s.brokers.armed
  pending := s.brokers.pending
  current := Listed getBrokerIpAndPort s.brokers.data s.brokerUrls
  stage th := brokerStage getBrokerIpAndPort s.brokers.data s.brokerUrls (s.threads th)

end

theorem brokerStage_enter (part : Part) (todo : List Part) :
    brokerStage getBrokerIpAndPort m urls ⟨part.enter, todo⟩ =
      brokerStage getBrokerIpAndPort m urls ⟨.out, part :: todo⟩ := by
  cases part with
  | brokerUrls => rfl
  | watchers => rfl
  | logConfig => rfl

/-- Inside `refreshBrokerUrls` a thread reads, or is about to. -/
theorem brokerStage_inside (h : r.spot.inside = some .brokerUrls) :
    r.spot = .brokerIds ∨ (brokerStage getBrokerIpAndPort m urls r).Busy := by
  unfold brokerStage
  split
  · exact Or.inl ‹_›
  · right
    split
    · exact Or.inl rfl
    · exact Or.inr rfl
  · right
    split
    · exact Or.inl rfl
    · exact Or.inr rfl
  · rename_i hspot
    rw [hspot] at h
    cases h
  · rename_i hspot
    rw [hspot] at h
    cases h
  · rename_i h1 h2 h3 _ _
    cases hspot : r.spot with
    | brokerIds => exact absurd hspot h1
    | brokerExists done bid rest => exact absurd hspot (h2 done bid rest)
    | brokerGet done bid rest len => exact absurd hspot (h3 done bid rest len)
    | out | setWatcher | setChildrenWatcher | register | configExists | configGet _ =>
        rw [hspot] at h
        cases h

/-- Elsewhere it is not busy. -/
theorem not_busy_outside (h : r.spot.inside ≠ some .brokerUrls) :
    ¬ (brokerStage getBrokerIpAndPort m urls r).Busy := by
  unfold brokerStage
  split
  · exact Stage.not_busy_toRead
  · rename_i hspot
    rw [hspot] at h
    exact absurd rfl h
  · rename_i hspot
    rw [hspot] at h
    exact absurd rfl h
  · exact fun hbusy => not_busy_aheadOf _ _ (Stage.busy_of_unarmed hbusy)
  · exact fun hbusy => not_busy_aheadOf _ _ (Stage.busy_of_unarmed hbusy)
  · exact not_busy_aheadOf _ _

/-- And what the brokers are plays no part. -/
theorem brokerStage_outside (h : r.spot.inside ≠ some .brokerUrls) :
    brokerStage getBrokerIpAndPort m' urls' r = brokerStage getBrokerIpAndPort m urls r := by
  unfold brokerStage
  split
  · rfl
  · rename_i hspot
    rw [hspot] at h
    exact absurd rfl h
  · rename_i hspot
    rw [hspot] at h
    exact absurd rfl h
  · rfl
  · rfl
  · rfl

/-- A change leaves everybody where it was, but who is reading. -/
theorem brokerStage_change (r : Running) :
    brokerStage getBrokerIpAndPort m' urls r = brokerStage getBrokerIpAndPort m urls r ∨
      (brokerStage getBrokerIpAndPort m urls r).Busy ∧
        (brokerStage getBrokerIpAndPort m' urls r).Busy := by
  by_cases hin : r.spot.inside = some .brokerUrls
  · rcases brokerStage_inside hin with hspot | hbusy
    · left
      unfold brokerStage
      rw [hspot]
    · rcases brokerStage_inside hin with hspot | hbusy'
      · left
        unfold brokerStage
        rw [hspot]
      · exact Or.inr ⟨hbusy, hbusy'⟩
  · exact Or.inl (brokerStage_outside hin)

/-! ## Every step is a move

Each step, seen so, is a move of the watch or none.
-/

/-- The stages of the other threads, when the urls are written by one that is
inside, or by nobody. -/
theorem brokerStage_update (hdata : s'.brokers.data = s.brokers.data)
    (hurls : s'.brokerUrls = s.brokerUrls ∨
      s.Exclusive ∧ (s.threads th).spot.inside = some .brokerUrls)
    (hthreads : s'.threads = Function.update s.threads th r) (th' : ZkThread) (h : th' ≠ th) :
    (s'.brokerView getBrokerIpAndPort).stage th' =
      (s.brokerView getBrokerIpAndPort).stage th' := by
  show brokerStage _ _ _ _ = brokerStage _ _ _ _
  rw [hdata, hthreads, Function.update_of_ne h]
  rcases hurls with hurls | ⟨hex, hin⟩
  · rw [hurls]
  · exact brokerStage_outside fun hin' => h (hex th' th _ hin' hin)

/-- A step that has nothing to do with the brokers. -/
theorem broker_stay (hbrokers : s'.brokers = s.brokers) (hurls : s'.brokerUrls = s.brokerUrls)
    (hthreads : s'.threads = Function.update s.threads th r)
    (hr : brokerStage getBrokerIpAndPort s.brokers.data s.brokerUrls r =
      brokerStage getBrokerIpAndPort s.brokers.data s.brokerUrls (s.threads th)) :
    Move (s.brokerView getBrokerIpAndPort) (s'.brokerView getBrokerIpAndPort) := by
  have hdata := congrArg Znode.data hbrokers
  refine .stay (congrArg Znode.armed hbrokers) (congrArg Znode.pending hbrokers) ?_
    fun th' => ?_
  · intro h
    show Listed _ s'.brokers.data s'.brokerUrls
    rw [hdata, hurls]
    exact h
  · by_cases hth : th' = th
    · subst hth
      show brokerStage _ _ _ _ = brokerStage _ _ _ _
      rw [hdata, hurls, hthreads, Function.update_self]
      exact hr
    · exact brokerStage_update hdata (Or.inl hurls) hthreads th' hth

/-- A step of no thread. -/
theorem broker_rest (hbrokers : s'.brokers = s.brokers) (hurls : s'.brokerUrls = s.brokerUrls)
    (hthreads : s'.threads = s.threads) :
    Move (s.brokerView getBrokerIpAndPort) (s'.brokerView getBrokerIpAndPort) := by
  have hupdate : s'.threads = Function.update s.threads .timer (s.threads .timer) := by
    rw [hthreads, Function.update_eq_self]
  exact broker_stay hbrokers hurls hupdate rfl

/-- A thread that was idle begins something. -/
theorem broker_call (hbrokers : s'.brokers = s.brokers) (hurls : s'.brokerUrls = s.brokerUrls)
    (hidle : s.threads th = idling) {todo : List Part}
    (hthreads : s'.threads = Function.update s.threads th ⟨.out, todo⟩) :
    Move (s.brokerView getBrokerIpAndPort) (s'.brokerView getBrokerIpAndPort) := by
  have hdata := congrArg Znode.data hbrokers
  refine .call th ⟨congrArg Znode.armed hbrokers, congrArg Znode.pending hbrokers,
    brokerStage_update hdata (Or.inl hurls) hthreads⟩ ?_ ?_ ?_
  · intro h
    show Listed _ s'.brokers.data s'.brokerUrls
    rw [hdata, hurls]
    exact h
  · show brokerStage _ _ _ _ = _
    rw [hidle]
    rfl
  · show ¬ (brokerStage _ _ _ _).Busy
    rw [hthreads, Function.update_self]
    exact not_busy_aheadOf _ _

/-- The brokers are changed. -/
theorem broker_change (hbrokers : s'.brokers = s.brokers.change m)
    (hurls : s'.brokerUrls = s.brokerUrls) (hthreads : s'.threads = s.threads) :
    Move (s.brokerView getBrokerIpAndPort) (s'.brokerView getBrokerIpAndPort) := by
  refine .change (congrArg Znode.armed hbrokers) (congrArg Znode.pending hbrokers) fun th => ?_
  show brokerStage _ _ _ _ = brokerStage _ _ _ _ ∨ _ ∧ (brokerStage _ _ _ _).Busy
  rw [hurls, hthreads]
  exact brokerStage_change (s.threads th)

/-- A thread reads, and what it has read agrees if it did before. -/
theorem broker_read (hex : s.Exclusive) (hbrokers : s'.brokers = s.brokers)
    (hin : (s.threads th).spot.inside = some .brokerUrls)
    (hthreads : s'.threads = Function.update s.threads th r)
    (after : brokerStage getBrokerIpAndPort s.brokers.data s.brokerUrls (s.threads th) = .stale ∨
      brokerStage getBrokerIpAndPort s.brokers.data s'.brokerUrls r = .reading ∨
      ¬ (brokerStage getBrokerIpAndPort s.brokers.data s'.brokerUrls r).Busy ∧
        Listed getBrokerIpAndPort s.brokers.data s'.brokerUrls) :
    Move (s.brokerView getBrokerIpAndPort) (s'.brokerView getBrokerIpAndPort) := by
  have hdata := congrArg Znode.data hbrokers
  have hself : (s'.brokerView getBrokerIpAndPort).stage th =
      brokerStage getBrokerIpAndPort s.brokers.data s'.brokerUrls r := by
    show brokerStage _ _ _ _ = _
    rw [hdata, hthreads, Function.update_self]
  refine .read th ⟨congrArg Znode.armed hbrokers, congrArg Znode.pending hbrokers,
    brokerStage_update hdata (Or.inr ⟨hex, hin⟩) hthreads⟩ ?_ ?_ ?_
  · have hinside : (s.threads th).spot = .brokerIds ∨
        ((s.brokerView getBrokerIpAndPort).stage th).Busy := brokerStage_inside hin
    rcases hinside with hspot | hbusy
    · left
      show brokerStage _ _ _ _ = _
      unfold brokerStage
      rw [hspot]
    · exact Or.inr hbusy
  · intro th' hbusy
    by_contra hne
    exact not_busy_outside (fun hin' => hne (hex th' th _ hin' hin)) hbusy
  · rw [hself]
    refine after.imp_right (Or.imp_right (And.imp_right fun hlisted => ?_))
    show Listed _ s'.brokers.data s'.brokerUrls
    rw [hdata]
    exact hlisted

/-- What a call inside `refreshBrokerUrls` leaves: what is read agrees, or did not
before. -/
theorem read_advance (haddressed : Addressed getBrokerIpAndPort s.brokers.data)
    (hin : (s.threads th).spot.inside = some .brokerUrls)
    (h : s.advance getBrokerIpAndPort th ids = some s') :
    s'.brokers = s.brokers ∧ ∃ r, s'.threads = Function.update s.threads th r ∧
      (brokerStage getBrokerIpAndPort s.brokers.data s.brokerUrls (s.threads th) = .stale ∨
        brokerStage getBrokerIpAndPort s.brokers.data s'.brokerUrls r = .reading ∨
        r = ⟨.out, (s.threads th).todo⟩ ∧ Listed getBrokerIpAndPort s.brokers.data s'.brokerUrls) := by
  -- while a broker is read the string agrees with what was read, and the info is whole,
  -- or the thread is behind
  have hread : ∀ {done rest : List Str} {bid : Str} {len : ℕ},
      (s.threads th).spot = .brokerGet done bid rest len →
        (brokerStage getBrokerIpAndPort s.brokers.data s.brokerUrls (s.threads th) = .stale ∨
          Agrees getBrokerIpAndPort s.brokers.data s.brokerUrls done (bid :: rest) ∧
            ∃ info, s.brokers.data.find? bid = some info ∧ len = info.length) := by
    intro done rest bid len hat
    by_cases hagrees : Agrees getBrokerIpAndPort s.brokers.data s.brokerUrls done (bid :: rest) ∧
        ∃ info, s.brokers.data.find? bid = some info ∧ len = info.length
    · exact Or.inr hagrees
    · left
      rw [running_of_spot hat]
      exact if_neg hagrees
  -- and then it is read as it is addressed, and the string agrees with one more
  have hnext : ∀ {done rest : List Str} {bid host port : Str} {len : ℕ},
      Agrees getBrokerIpAndPort s.brokers.data s.brokerUrls done (bid :: rest) →
      (∃ info, s.brokers.data.find? bid = some info ∧ len = info.length) →
      ((s.brokers.data.find? bid).bind fun info =>
        getBrokerIpAndPort (znodeData len info)) = some (host, port) →
      Agrees getBrokerIpAndPort s.brokers.data (appendUrl done s.brokerUrls host port)
        (done ++ [bid]) rest := by
    rintro done rest bid host port len hagrees ⟨info, hinfo, rfl⟩ hbroker
    rw [hinfo, Option.bind_some, znodeData, List.take_length] at hbroker
    exact hagrees.next hinfo hbroker
  cases advance_cases h with
  | noIds hat hperm hnil =>
      subst hnil
      exact ⟨rfl, _, rfl, Or.inr (Or.inr ⟨rfl, (Agrees.start hperm).listed⟩)⟩
  | ids hat hperm hids =>
      subst hids
      exact ⟨rfl, _, rfl, Or.inr (Or.inl (if_pos (Agrees.start hperm)))⟩
  | @brokerExists done rest bid len hat hlen =>
      -- the length of the info of one broker is asked for
      refine ⟨rfl, _, rfl, ?_⟩
      by_cases hagrees : Agrees getBrokerIpAndPort s.brokers.data s.brokerUrls done (bid :: rest)
      · refine Or.inr (Or.inl (if_pos ⟨hagrees, ?_⟩))
        have hmem : bid ∈ s.brokers.data.keys :=
          hagrees.1.mem_iff.mp (List.mem_append_right done List.mem_cons_self)
        obtain ⟨info, hinfo⟩ := OrdMap.mem_keys.mp hmem
        exact ⟨info, hinfo, hlen info hinfo⟩
      · left
        rw [running_of_spot hat]
        exact if_neg hagrees
  | brokerFails hat hnone =>
      rcases hread hat with hstale | ⟨-, info, hinfo, rfl⟩
      · exact ⟨rfl, _, rfl, Or.inl hstale⟩
      · obtain ⟨host, port, haddress⟩ := haddressed _ info hinfo
        rw [hinfo, Option.bind_some, znodeData, List.take_length, haddress] at hnone
        cases hnone
  | lastBroker hat hsome =>
      rcases hread hat with hstale | ⟨hagrees, hwhole⟩
      · exact ⟨rfl, _, rfl, Or.inl hstale⟩
      · exact ⟨rfl, _, rfl, Or.inr (Or.inr ⟨rfl, (hnext hagrees hwhole hsome).listed⟩)⟩
  | nextBroker hat hsome =>
      rcases hread hat with hstale | ⟨hagrees, hwhole⟩
      · exact ⟨rfl, _, rfl, Or.inl hstale⟩
      · exact ⟨rfl, _, rfl, Or.inr (Or.inl (if_pos (hnext hagrees hwhole hsome)))⟩
  | enter hat | setWatcher hat | setChildrenWatcher hat | register hat | configExists hat
  | configGet hat =>
      rw [hat] at hin
      cases hin

theorem broker_move_advance (hex : s.Exclusive)
    (haddressed : Addressed getBrokerIpAndPort s.brokers.data)
    (h : s.advance getBrokerIpAndPort th ids = some s') :
    Move (s.brokerView getBrokerIpAndPort) (s'.brokerView getBrokerIpAndPort) := by
  have hinside : (s.threads th).spot.inside = some .brokerUrls →
      Move (s.brokerView getBrokerIpAndPort) (s'.brokerView getBrokerIpAndPort) := by
    intro hin
    obtain ⟨hbrokers, r, hthreads, hafter⟩ := read_advance haddressed hin h
    refine broker_read hex hbrokers hin hthreads
      (hafter.imp_right (Or.imp_right (And.imp_left fun hout => ?_)))
    rw [hout]
    exact not_busy_aheadOf _ _
  cases advance_cases h with
  | enter hat =>
      refine broker_stay rfl rfl rfl ?_
      rw [brokerStage_enter, hat]
  | noIds hat | ids hat | brokerExists hat | brokerFails hat | lastBroker hat | nextBroker hat =>
      exact hinside (by rw [hat]; rfl)
  | setWatcher hat | register hat | configExists hat | configGet hat =>
      refine broker_stay rfl rfl rfl ?_
      rw [running_of_spot hat]
      rfl
  | setChildrenWatcher hat =>
      -- the children watch is armed
      refine .arm th rfl rfl id ?_ (brokerStage_update rfl (Or.inl rfl) rfl)
      have hbefore : (s.brokerView getBrokerIpAndPort).stage th =
          (aheadOf .brokerUrls (s.threads th).todo).unarmed := by
        show brokerStage _ _ _ _ = _
        rw [running_of_spot hat]
        rfl
      rw [hbefore]
      show brokerStage _ _ _ (Function.update s.threads th _ th) = _ ∨
        brokerStage _ _ _ (Function.update s.threads th _ th) = _
      rw [Function.update_self]
      exact Stage.arm_unarmed

theorem broker_move {a : ZkEvent} (hex : s.Exclusive)
    (haddressed : Addressed getBrokerIpAndPort s.brokers.data)
    (hstep : step getBrokerIpAndPort a s = some s') :
    Move (s.brokerView getBrokerIpAndPort) (s'.brokerView getBrokerIpAndPort) := by
  cases step_cases hstep with
  | setConfig => exact broker_rest rfl rfl rfl
  | addBroker | removeBroker => exact broker_change rfl rfl rfl
  | refresh hready hidle => exact broker_call rfl rfl hidle rfl
  | configChanged hidle => exact broker_call (s := s) rfl rfl hidle rfl
  | brokersChanged hidle hpending =>
      refine .notify .completion rfl ?_ ?_ rfl (brokerStage_update rfl (Or.inl rfl) rfl)
      · show s.brokers.pending = s.brokers.pending - 1 + 1
        omega
      · show brokerStage _ _ _ _ = _
        rw [hidle]
        rfl
  | sessionEvent hidle => exact broker_call rfl rfl hidle rfl
  | advance hcall => exact broker_move_advance hex haddressed hcall

/-! ## Until the first watch is armed

The `refresh` of `init` is alone until its watch is armed, which is why nothing
between its reading and its arming may change.
-/

/-- The `refresh` of `init` has not armed the data watch: nobody else is at work. -/
structure Early (s : ZkClient) : Prop where
  config : s.config.armed = false ∧ s.config.pending = 0
  completion : s.threads .completion = idling
  timer : s.threads .timer = ⟨.out, refreshParts⟩ ∨
    ((s.threads .timer).spot.inside = some .brokerUrls ∧
      (s.threads .timer).todo = configChangeParts) ∨
    s.threads .timer = ⟨.out, configChangeParts⟩ ∨ s.threads .timer = ⟨.setWatcher, [.logConfig]⟩

/-- It is about to arm the children watch, and a handler waits for its mutex. -/
structure Arming (s : ZkClient) : Prop where
  timer : s.threads .timer = ⟨.setChildrenWatcher, [.logConfig]⟩
  completion : s.threads .completion = idling ∨ s.threads .completion = ⟨.out, [.watchers]⟩ ∨
    s.threads .completion = ⟨.out, configChangeParts⟩

structure Starting (s : ZkClient) : Prop where
  ready : s.ready = false
  armed : s.brokers.armed = false
  pending : s.brokers.pending = 0
  at_work : Early s ∨ Arming s

/-- The `refresh` of `init` has asked for the brokers, and not armed the children
watch yet. -/
def Unseen (s : ZkClient) : Prop :=
  s.ready = false ∧
    match s.threads .timer with
    | ⟨.brokerExists _ _ _, _⟩ | ⟨.brokerGet _ _ _ _, _⟩ | ⟨.setWatcher, _⟩
    | ⟨.setChildrenWatcher, _⟩ => True
    | ⟨.out, todo⟩ => todo = configChangeParts
    | _ => False

instance (s : ZkClient) : Decidable s.Unseen := by
  unfold Unseen
  have : ∀ r : Running, Decidable (match r with
      | ⟨.brokerExists _ _ _, _⟩ | ⟨.brokerGet _ _ _ _, _⟩ | ⟨.setWatcher, _⟩
      | ⟨.setChildrenWatcher, _⟩ => True
      | ⟨.out, todo⟩ => todo = configChangeParts
      | _ => False) := fun ⟨spot, todo⟩ => by cases spot <;> infer_instance
  infer_instance

section

variable (getBrokerIpAndPort)

/-- No broker is added or removed between the first reading and the first arming,
and a broker that is added has a host and a port. -/
def Timely (s : ZkClient) : ZkEvent → Prop
  | .addBroker _ info =>
      ¬ s.Unseen ∧ ∃ host port, getBrokerIpAndPort (cstr info) = some (host, port)
  | .removeBroker _ => ¬ s.Unseen
  | _ => True

instance (s : ZkClient) : (a : ZkEvent) → Decidable (Timely getBrokerIpAndPort s a)
  | .addBroker _ info =>
      decidable_of_iff (¬ s.Unseen ∧ (getBrokerIpAndPort (cstr info)).isSome) (by
        rw [Option.isSome_iff_exists]
        simp [Timely])
  | .removeBroker _ => inferInstanceAs (Decidable (¬ s.Unseen))
  | .advance _ _ | .setConfig _ | .refresh | .configChanged | .brokersChanged
  | .sessionEvent => isTrue trivial

/-- The `refresh` of `init` has the brokers as they are, or will have. -/
def UpToDate (s : ZkClient) : Prop :=
  (brokerStage getBrokerIpAndPort s.brokers.data s.brokerUrls (s.threads .timer)).Reads ∨
    brokerStage getBrokerIpAndPort s.brokers.data s.brokerUrls (s.threads .timer) = .away ∧
      Listed getBrokerIpAndPort s.brokers.data s.brokerUrls

end

theorem not_reads_away : ¬ Stage.away.Reads := by
  simp [Stage.Reads, Stage.Ahead]

/-- A thread that reads no more has read. -/
theorem UpToDate.listed (h : s.UpToDate getBrokerIpAndPort)
    (haway : brokerStage getBrokerIpAndPort s.brokers.data s.brokerUrls (s.threads .timer) = .away) :
    Listed getBrokerIpAndPort s.brokers.data s.brokerUrls := by
  rcases h with hreads | ⟨-, hlisted⟩
  · rw [haway] at hreads
    exact absurd hreads not_reads_away
  · exact hlisted

/-- A step that has nothing to do with the brokers or the timer. -/
theorem UpToDate.stay (h : s.UpToDate getBrokerIpAndPort) (hbrokers : s'.brokers = s.brokers)
    (hurls : s'.brokerUrls = s.brokerUrls) (htimer : s'.threads .timer = s.threads .timer) :
    s'.UpToDate getBrokerIpAndPort := by
  unfold UpToDate
  rw [hbrokers, hurls, htimer]
  exact h

theorem starting_init (config : Str) (brokers : OrdMap Str Str) :
    (init config brokers).Starting where
  ready := rfl
  armed := rfl
  pending := rfl
  at_work := Or.inl ⟨⟨rfl, rfl⟩, rfl, Or.inl rfl⟩

theorem brokers_of_advance (h : s.advance getBrokerIpAndPort th ids = some s') :
    s'.brokers.data = s.brokers.data := by
  cases advance_cases h <;> rfl

theorem addressed_of_step {a : ZkEvent} (h : Addressed getBrokerIpAndPort s.brokers.data)
    (ha : Timely getBrokerIpAndPort s a) (hstep : step getBrokerIpAndPort a s = some s') :
    Addressed getBrokerIpAndPort s'.brokers.data := by
  cases step_cases hstep with
  | addBroker hnew =>
      intro bid' info' hinfo
      rcases OrdMap.find?_insert_eq_some.mp hinfo with ⟨-, rfl⟩ | ⟨-, hinfo⟩
      · exact ha.2
      · exact h bid' info' hinfo
  | removeBroker hfound =>
      exact fun bid' info' hinfo => h bid' info' (OrdMap.find?_of_find?_erase hinfo)
  | setConfig | refresh | configChanged | brokersChanged | sessionEvent => exact h
  | advance hcall =>
      rw [brokers_of_advance hcall]
      exact h

/-- The reading of the brokers leaves the rest alone. -/
theorem advance_inside (hin : (s.threads th).spot.inside = some .brokerUrls)
    (h : s.advance getBrokerIpAndPort th ids = some s') :
    s'.config = s.config ∧ s'.brokers = s.brokers ∧
      (s'.ready = s.ready ∨ (s.threads th).todo = []) ∧
      ∃ spot, (spot = .out ∨ spot.inside = some .brokerUrls) ∧
        s'.threads = Function.update s.threads th ⟨spot, (s.threads th).todo⟩ := by
  have hleave : (s.leave th).ready = s.ready ∨ (s.threads th).todo = [] := by
    by_cases htodo : (s.threads th).todo = []
    · exact Or.inr htodo
    · left
      simp [leave, htodo]
  cases advance_cases h with
  | noIds | brokerFails | lastBroker => exact ⟨rfl, rfl, hleave, .out, Or.inl rfl, rfl⟩
  | ids | brokerExists | nextBroker => exact ⟨rfl, rfl, Or.inl rfl, _, Or.inr rfl, rfl⟩
  | enter hat | setWatcher hat | setChildrenWatcher hat | register hat | configExists hat
  | configGet hat =>
      rw [hat] at hin
      cases hin

/-- Until it arms the data watch, `refresh` reads the brokers and keeps what it has
read up to date. -/
theorem upToDate_early (he : s.Early) (hu : s.UpToDate getBrokerIpAndPort)
    (haddressed : Addressed getBrokerIpAndPort s.brokers.data)
    (hstep : s.advance getBrokerIpAndPort .timer ids = some s') :
    s'.UpToDate getBrokerIpAndPort := by
  rcases he.timer with ht | ⟨hin, htodo⟩ | ht | ht
  · unfold advance at hstep
    rw [ht] at hstep
    obtain ⟨-, hstep⟩ := Option.ite_none_right_eq_some.mp hstep
    cases hstep
    refine Or.inl (Or.inl (Or.inr ?_))
    rw [threads_setThread, Function.update_self]
    rfl
  · obtain ⟨hbrokers, r, hthreads, hafter⟩ := read_advance haddressed hin hstep
    have hfresh : brokerStage getBrokerIpAndPort s.brokers.data s.brokerUrls (s.threads .timer) ≠
        .stale := by
      intro hstale
      unfold UpToDate at hu
      rw [hstale] at hu
      simp [Stage.Reads, Stage.Ahead] at hu
    unfold UpToDate
    rw [hbrokers, hthreads, Function.update_self]
    rcases hafter.resolve_left hfresh with hreading | ⟨rfl, hlisted⟩
    · exact Or.inl (Or.inr hreading)
    · rw [htodo]
      exact Or.inr ⟨rfl, hlisted⟩
  · have hlisted := hu.listed (by rw [ht]; rfl)
    unfold advance at hstep
    rw [ht] at hstep
    obtain ⟨-, hstep⟩ := Option.ite_none_right_eq_some.mp hstep
    cases hstep
    refine Or.inr ⟨?_, hlisted⟩
    rw [threads_setThread, Function.update_self]
    rfl
  · have hlisted := hu.listed (by rw [ht]; rfl)
    unfold advance at hstep
    rw [ht] at hstep
    cases hstep
    refine Or.inr ⟨?_, hlisted⟩
    rw [threads_setThread, Function.update_self]
    rfl

/-- No watch is armed yet that a change of the brokers would fire. -/
theorem Starting.change (h : s.Starting) (m : OrdMap Str Str) :
    Starting { s with brokers := s.brokers.change m } := by
  refine ⟨h.ready, rfl, ?_, h.at_work.imp (fun hw => ⟨hw.config, hw.completion, hw.timer⟩)
    fun hw => ⟨hw.timer, hw.completion⟩⟩
  show s.brokers.pending + (if s.brokers.armed then 1 else 0) = 0
  simp [h.armed, h.pending]

/-- A change of the brokers finds the list unread. -/
theorem upToDate_change (h : s.Starting) (hseen : ¬ s.Unseen)
    (hthreads : s'.threads .timer = s.threads .timer) : s'.UpToDate getBrokerIpAndPort := by
  unfold UpToDate
  rw [hthreads]
  unfold Unseen at hseen
  refine Or.inl (Or.inl (Or.inr ?_))
  rcases h.at_work with he | ha
  · rcases he.timer with ht | ⟨hin, -⟩ | ht | ht
    · rw [ht]
      rfl
    · cases hr : s.threads .timer with
      | mk spot todo =>
          rw [hr] at hin hseen
          cases spot with
          | brokerIds => rfl
          | brokerExists done bid rest => exact absurd ⟨h.ready, trivial⟩ hseen
          | brokerGet done bid rest len => exact absurd ⟨h.ready, trivial⟩ hseen
          | out | setWatcher | setChildrenWatcher | register | configExists | configGet => cases hin
    · rw [ht] at hseen
      exact absurd ⟨h.ready, rfl⟩ hseen
    · rw [ht] at hseen
      exact absurd ⟨h.ready, trivial⟩ hseen
  · rw [ha.timer] at hseen
    exact absurd ⟨h.ready, trivial⟩ hseen

/-- The first part of `refresh`, up to the arming of the data watch. -/
theorem starting_early (h : s.Starting) (he : s.Early)
    (hstep : s.advance getBrokerIpAndPort .timer ids = some s') : s'.Starting := by
  have hcompletion : ∀ r, (s.setThread .timer r).threads .completion = idling := fun r => by
    rw [threads_setThread, Function.update_of_ne (by decide)]
    exact he.completion
  rcases he.timer with ht | ⟨hin, htodo⟩ | ht | ht
  · unfold advance at hstep
    rw [ht] at hstep
    simp only [refreshParts] at hstep
    split at hstep
    · cases hstep
      refine ⟨h.ready, h.armed, h.pending, Or.inl ⟨he.config, hcompletion _, Or.inr (Or.inl ?_)⟩⟩
      rw [threads_setThread, Function.update_self]
      exact ⟨rfl, rfl⟩
    · cases hstep
  · obtain ⟨hconfig, hbrokers, hready, spot, hspot, hthreads⟩ := advance_inside hin hstep
    have hready' : s'.ready = s.ready := by
      rcases hready with hready | hnil
      · exact hready
      · rw [htodo] at hnil
        cases hnil
    refine ⟨hready'.trans h.ready, hbrokers ▸ h.armed, hbrokers ▸ h.pending,
      Or.inl ⟨hconfig ▸ he.config, ?_, ?_⟩⟩
    · rw [hthreads]
      exact hcompletion ⟨spot, (s.threads .timer).todo⟩
    · rw [hthreads, Function.update_self, htodo]
      rcases hspot with rfl | hspot
      · exact Or.inr (Or.inr (Or.inl rfl))
      · exact Or.inr (Or.inl ⟨hspot, rfl⟩)
  · unfold advance at hstep
    rw [ht] at hstep
    simp only [configChangeParts] at hstep
    split at hstep
    · cases hstep
      refine ⟨h.ready, h.armed, h.pending, Or.inl ⟨he.config, hcompletion _, Or.inr ?_⟩⟩
      rw [threads_setThread, Function.update_self]
      exact Or.inr (Or.inr rfl)
    · cases hstep
  · unfold advance at hstep
    rw [ht] at hstep
    cases hstep
    refine ⟨h.ready, h.armed, h.pending,
      Or.inr ⟨?_, Or.inl (hcompletion ⟨.setChildrenWatcher, [.logConfig]⟩)⟩⟩
    rw [threads_setThread, Function.update_self]

/-- The children watch is armed over a list that is up to date. -/
theorem covered_of_arming (ha : s.Arming) (hu : s.UpToDate getBrokerIpAndPort)
    (hstep : s.advance getBrokerIpAndPort .timer ids = some s') :
    (s'.brokerView getBrokerIpAndPort).Covered := by
  have hlisted := hu.listed (by rw [ha.timer]; rfl)
  unfold advance at hstep
  rw [ha.timer] at hstep
  cases hstep
  have haway : ∀ th, brokerStage getBrokerIpAndPort s.brokers.data s.brokerUrls
      (Function.update s.threads .timer ⟨.register, [.logConfig]⟩ th) = .away := by
    intro th
    cases th with
    | timer =>
        rw [Function.update_self]
        rfl
    | completion =>
        rw [Function.update_of_ne (by decide)]
        rcases ha.completion with hc | hc | hc
        · rw [hc]
          rfl
        · rw [hc]
          rfl
        · rw [hc]
          rfl
  refine ⟨Or.inl rfl, Or.inl hlisted, fun th hstale => ?_, fun th th' hbusy => ?_⟩
  · cases (haway th).symm.trans hstale
  · refine absurd ?_ Stage.not_busy_away
    rw [← haway th]
    exact hbusy

/-- Until then the thread of the client makes no call. -/
theorem completion_waits (h : s.Starting) :
    s.advance getBrokerIpAndPort .completion ids = none := by
  have hidle : s.threads .completion = idling →
      s.advance getBrokerIpAndPort .completion ids = none := by
    intro hc
    unfold advance
    rw [hc]
    rfl
  rcases h.at_work with he | ha
  · exact hidle he.completion
  · have hfree : s.free .watchers = false := by
      rw [free, ha.timer]
      rfl
    rcases ha.completion with hc | hc | hc
    · exact hidle hc
    · unfold advance
      rw [hc]
      simp only [hfree]
      rfl
    · unfold advance
      rw [hc]
      simp only [configChangeParts, hfree]
      rfl

theorem starting_of_step {a : ZkEvent} (h : s.Starting) (hu : s.UpToDate getBrokerIpAndPort)
    (haddressed : Addressed getBrokerIpAndPort s.brokers.data)
    (ha : Timely getBrokerIpAndPort s a) (hstep : step getBrokerIpAndPort a s = some s') :
    s'.Starting ∧ s'.UpToDate getBrokerIpAndPort ∨
      (s'.brokerView getBrokerIpAndPort).Covered := by
  cases step_cases hstep with
  | setConfig =>
      refine Or.inl ⟨?_, hu.stay rfl rfl rfl⟩
      refine ⟨h.ready, h.armed, h.pending, h.at_work.imp ?_ fun hw => ⟨hw.timer, hw.completion⟩⟩
      intro hw
      refine ⟨⟨rfl, ?_⟩, hw.completion, hw.timer⟩
      show s.config.pending + (if s.config.armed then 1 else 0) = 0
      simp [hw.config.1, hw.config.2]
  | addBroker => exact Or.inl ⟨h.change _, upToDate_change h ha.1 rfl⟩
  | removeBroker => exact Or.inl ⟨h.change _, upToDate_change h ha rfl⟩
  | refresh hready =>
      rw [h.ready] at hready
      cases hready
  | configChanged hidle hpending =>
      refine Or.inl ⟨?_, hu.stay rfl rfl rfl⟩
      rcases h.at_work with hw | hw
      · rw [hw.config.2] at hpending
        exact absurd hpending (lt_irrefl 0)
      · exact ⟨h.ready, h.armed, h.pending, Or.inr ⟨hw.timer, Or.inr (Or.inr rfl)⟩⟩
  | brokersChanged hidle hpending =>
      rw [h.pending] at hpending
      exact absurd hpending (lt_irrefl 0)
  | sessionEvent hidle harmed =>
      refine Or.inl ⟨?_, hu.stay rfl rfl rfl⟩
      rcases h.at_work with hw | hw
      · rw [hw.config.1, h.armed] at harmed
        simp at harmed
      · exact ⟨h.ready, h.armed, h.pending, Or.inr ⟨hw.timer, Or.inr (Or.inl rfl)⟩⟩
  | @advance th ids _ hcall =>
      cases th with
      | timer =>
          rcases h.at_work with hw | hw
          · exact Or.inl ⟨starting_early h hw hcall, upToDate_early hw hu haddressed hcall⟩
          · exact Or.inr (covered_of_arming hw hu hcall)
      | completion =>
          rw [completion_waits h] at hcall
          cases hcall

/-- What holds of every state of a run whose steps are `Timely`. -/
structure Followed (getBrokerIpAndPort : Str → Option (Str × Str)) (s : ZkClient) : Prop where
  exclusive : s.Exclusive
  addressed : Addressed getBrokerIpAndPort s.brokers.data
  phase : s.Starting ∧ s.UpToDate getBrokerIpAndPort ∨
    (s.brokerView getBrokerIpAndPort).Covered

theorem followed_of_step {a : ZkEvent} (h : s.Followed getBrokerIpAndPort)
    (ha : Timely getBrokerIpAndPort s a) (hstep : step getBrokerIpAndPort a s = some s') :
    s'.Followed getBrokerIpAndPort where
  exclusive := exclusive_of_step h.exclusive hstep
  addressed := addressed_of_step h.addressed ha hstep
  phase := by
    rcases h.phase with ⟨hstarting, hu⟩ | hcovered
    · exact starting_of_step hstarting hu h.addressed ha hstep
    · exact Or.inr (hcovered.move (broker_move h.exclusive h.addressed hstep))

/-- In every run whose steps are `Timely` no change of the brokers is lost: once
the first `refresh` is done, where no notification of the brokers is pending and
no handler is in progress, `m_broker_urls` lists the brokers that are registered. -/
theorem broker_urls_current (getBrokerIpAndPort : Str → Option (Str × Str)) (config : Str)
    (brokers : OrdMap Str Str) (as : List ZkEvent) (u : ZkClient)
    (hr : run (step getBrokerIpAndPort) as (init config brokers) = some u)
    (haddressed : Addressed getBrokerIpAndPort brokers)
    (htimely : Along (step getBrokerIpAndPort) (Timely getBrokerIpAndPort) as
      (init config brokers))
    (hready : u.ready = true) (hpending : u.brokers.pending = 0) (hquiet : u.Quiet) :
    Listed getBrokerIpAndPort u.brokers.data u.brokerUrls := by
  have hinv : u.Followed getBrokerIpAndPort :=
    run_inv_along (fun a s s' h ha hstep => followed_of_step h ha hstep) as _ u
      ⟨exclusive_init config brokers, haddressed,
        Or.inl ⟨starting_init config brokers, Or.inl (Or.inl (Or.inr rfl))⟩⟩ htimely hr
  rcases hinv.phase with ⟨hstarting, -⟩ | hcovered
  · rw [hstarting.ready] at hready
    cases hready
  · refine hcovered.current hpending fun th => ?_
    show brokerStage _ _ _ _ = _
    rw [hquiet th]
    rfl

/-- {"host":"h","port":1} -/
def brokerInfo : Str :=
  [123, 34, 104, 111, 115, 116, 34, 58, 34, 104, 34, 44, 34, 112, 111, 114, 116, 34, 58, 49, 125]

/-- What `getBrokerIpAndPort` makes of it. -/
def parseBrokerInfo (info : Str) : Option (Str × Str) :=
  if info = brokerInfo then some ([104], [49]) else none

/-- A broker registers before the first `refresh` reads, and leaves once the watch
is armed; another one registers later. -/
def joinedLater : List ZkEvent :=
  .addBroker [49] brokerInfo :: List.replicate 7 (.advance .timer [[49]]) ++
    [.removeBroker [49]] ++ List.replicate 4 (.advance .timer []) ++
    [.brokersChanged] ++ List.replicate 6 (.advance .completion []) ++
    [.addBroker [50] brokerInfo, .brokersChanged] ++
    List.replicate 8 (.advance .completion [[50]])

theorem broker_urls_current_later : ∃ u,
    run (step parseBrokerInfo) joinedLater (init [] OrdMap.empty) = some u ∧
      u.brokerUrls = [104, 58, 49] ∧ Listed parseBrokerInfo u.brokers.data u.brokerUrls := by
  have hrun : (run (step parseBrokerInfo) joinedLater (init [] OrdMap.empty)).map
      (fun u => ((u.ready, u.brokers.pending), (u.threads .timer, u.threads .completion),
        u.brokerUrls)) = some ((true, 0), (idling, idling), [104, 58, 49]) := by
    decide +kernel
  obtain ⟨u, hu, hstate⟩ := Option.map_eq_some_iff.mp hrun
  obtain ⟨hwhen, hrest⟩ := Prod.mk.inj hstate
  obtain ⟨hthreads, hurls⟩ := Prod.mk.inj hrest
  obtain ⟨hready, hpending⟩ := Prod.mk.inj hwhen
  obtain ⟨htimer, hcompletion⟩ := Prod.mk.inj hthreads
  refine ⟨u, hu, hurls, broker_urls_current _ _ _ joinedLater u hu ?_ (by decide +kernel) hready
    hpending (quiet_of_threads htimer hcompletion)⟩
  intro bid info hinfo
  cases hinfo

/-- A broker registers between the reading and the arming of the first `refresh`. -/
def joinedBetween : List ZkEvent :=
  List.replicate 2 (.advance .timer []) ++ [.addBroker [49] brokerInfo] ++
    List.replicate 7 (.advance .timer [])

theorem broker_urls_fails : ∃ u,
    run (step parseBrokerInfo) joinedBetween (init [] OrdMap.empty) = some u ∧
      u.ready = true ∧ u.brokers.pending = 0 ∧ u.Quiet ∧
      ¬ Listed parseBrokerInfo u.brokers.data u.brokerUrls := by
  have hrun : (run (step parseBrokerInfo) joinedBetween (init [] OrdMap.empty)).map
      (fun u => ((u.ready, u.brokers.pending), (u.threads .timer, u.threads .completion),
        decide (Listed parseBrokerInfo u.brokers.data u.brokerUrls))) =
        some ((true, 0), (idling, idling), false) := by
    decide +kernel
  obtain ⟨u, hu, hstate⟩ := Option.map_eq_some_iff.mp hrun
  obtain ⟨hwhen, hrest⟩ := Prod.mk.inj hstate
  obtain ⟨hthreads, hlisted⟩ := Prod.mk.inj hrest
  obtain ⟨hready, hpending⟩ := Prod.mk.inj hwhen
  obtain ⟨htimer, hcompletion⟩ := Prod.mk.inj hthreads
  exact ⟨u, hu, hready, hpending, quiet_of_threads htimer hcompletion, of_decide_eq_false hlisted⟩

end ZkClient

end Logkafka
