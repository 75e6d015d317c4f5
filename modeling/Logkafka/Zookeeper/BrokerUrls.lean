/-
# `Logkafka.Zookeeper.BrokerUrls` — when a refresh of the broker urls fails

`refreshBrokerUrls` first asks for the ids of the brokers.  Then it empties
`m_broker_urls`, and puts the urls into it one by one:

    the ids cannot be had       false, the string as it was
    all brokers can be read     true,  the urls of all of them
    one cannot be read          false, the urls of those before it

In the last case the old string is lost, and what stands there instead is a part
of a new one (`refreshBrokerUrls_eq`); so nothing is lost if and only if that
part happens to be the old string (`all_or_nothing_iff`).  `refreshLogConfig`,
next to it in the source, reads into a string of its own first.

The threads of a `ZkClient` make these rounds one by one, while the brokers
change (`remaining_of_step`).
-/
import Logkafka.Zookeeper.BrokerWatch

namespace Logkafka

/-! ## The document of a broker

`getValue` throws where a member is missing or is not of the type it is asked for,
and the broker has no address then.
-/

/-- A member of a JSON object (rapidjson): what `getValue` asks for here, or `other`. -/
inductive BrokerMember
  | string (s : Str)
  | int (n : Int32)
  | other

/-- What `Parse<0>` makes of the info of a broker. -/
inductive BrokerDocument
  | parseError
  | notObject
  | object (members : List (Str × BrokerMember))

namespace BrokerDocument

variable (members : List (Str × BrokerMember))

/-- `FindMember` -/
def findMember (name : String) : Option BrokerMember :=
  (members.find? fun m => m.1 = ascii name).map Prod.snd

/-- `getValue(obj, name, string)`; `none` where it throws. -/
def getString (name : String) : Option Str :=
  match findMember members name with
  | some (.string s) => some (cstr s)
  | _ => none

/-- `getValue(obj, name, int32_t)` -/
def getInt (name : String) : Option Int32 :=
  match findMember members name with
  | some (.int n) => some n
  | _ => none

/-- From the document on; `none` where `getBrokerIpAndPort` returns false. -/
def address : BrokerDocument → Option (Str × Str)
  | parseError => none
  | notObject => none
  | object members =>
      match getString members "host" with
      | none => none
      | some host =>
          match getInt members "port" with
          | none => none
          | some port => some (host, int2Str port.toInt)

end BrokerDocument

/-! ## The refresh

The loop as the source has it, with all answers it gets given beforehand.
-/

/-- What zookeeper and the parser have to say while `refreshBrokerUrls` runs:
the ids, if they can be had, and what `getZnodeData` gets of a path. -/
structure BrokerAnswers where
  brokerIds : Option (List Str)
  znodeData : Str → Option Str
  parse : Str → BrokerDocument

structure Zookeeper where
  brokerIdsPath : Str
  brokerUrls : Str
deriving DecidableEq

namespace Zookeeper

open ZkClient (appendUrl brokerUrl)

def getBrokerIpAndPort (z : Zookeeper) (a : BrokerAnswers) (brokerid : Str) :
    Option (Str × Str) :=
  let brokeridInfoPath := z.brokerIdsPath ++ ascii "/" ++ brokerid
  match a.znodeData brokeridInfoPath with
  | none => none
  | some brokerinfo => (a.parse (cstr brokerinfo)).address

/-- The loop over the ids; `done` are behind it. -/
def refreshLoop (address : Str → Option (Str × Str)) (done : List Str) :
    List Str → Str → Bool × Str
  | [], urls => (true, urls)
  | bid :: rest, urls =>
      match address bid with
      | none => (false, urls)
      | some (host, port) =>
          refreshLoop address (done ++ [bid]) rest (appendUrl done urls host port)

def refreshBrokerUrls (z : Zookeeper) (a : BrokerAnswers) : Bool × Zookeeper :=
  match a.brokerIds with
  | none => (false, z)
  | some ids =>
      let r := refreshLoop (z.getBrokerIpAndPort a) [] ids []
      (r.1, { z with brokerUrls := r.2 })

def getBrokerUrls (z : Zookeeper) : Str := z.brokerUrls

/-! ## All or nothing

What the loop leaves is determined by the first broker that cannot be read.
-/

/-- A refresh that fails keeps the string, and one that does not makes it the
urls of all the brokers, in order and separated by commas. -/
def AllOrNothing (z : Zookeeper) (a : BrokerAnswers) : Prop :=
  let r := z.refreshBrokerUrls a
  (r.1 = false → r.2.getBrokerUrls = z.getBrokerUrls) ∧
    (r.1 = true → ∃ ids us, a.brokerIds = some ids ∧
      ids.mapM (brokerUrl (z.getBrokerIpAndPort a)) = some us ∧
      r.2.getBrokerUrls = List.intercalate [44] us)

/-- The urls of the brokers before the first one that cannot be read. -/
def firstUrls (address : Str → Option (Str × Str)) : List Str → List Str
  | [] => []
  | bid :: rest =>
      match brokerUrl address bid with
      | none => []
      | some url => url :: firstUrls address rest

/-- The ids cannot be had, all brokers can be read, or the string is already
what those before the first that cannot be read make. -/
def Harmless (z : Zookeeper) (a : BrokerAnswers) : Prop :=
  ∀ ids, a.brokerIds = some ids →
    (∀ bid ∈ ids, z.getBrokerIpAndPort a bid ≠ none) ∨
      z.brokerUrls = List.intercalate [44] (firstUrls (z.getBrokerIpAndPort a) ids)

variable {address : Str → Option (Str × Str)} {done rest ids us : List Str} {bid : Str}

theorem brokerUrl_eq_none : brokerUrl address bid = none ↔ address bid = none :=
  Option.map_eq_none_iff

/-- One round appends one url. -/
theorem appendUrl_intercalate (h : done = [] ↔ us = []) (host port : Str) :
    appendUrl done (List.intercalate [44] us) host port =
      List.intercalate [44] (us ++ [host ++ [58] ++ port]) := by
  rw [ZkClient.intercalate_concat, appendUrl]
  by_cases hdone : done = []
  · rw [if_pos hdone, if_pos (h.mp hdone), h.mp hdone]
    simp
  · rw [if_neg hdone, if_neg fun hus => hdone (h.mpr hus)]
    simp

/-- The loop, with the urls of the brokers behind it already in the string. -/
theorem refreshLoop_eq (rest : List Str) : ∀ done us : List Str, (done = [] ↔ us = []) →
    refreshLoop address done rest (List.intercalate [44] us) =
      (rest.all fun bid => (address bid).isSome,
        List.intercalate [44] (us ++ firstUrls address rest)) := by
  induction rest with
  | nil =>
      intro done us _
      rw [firstUrls, List.append_nil]
      rfl
  | cons bid rest ih =>
      intro done us h
      rw [refreshLoop, firstUrls, brokerUrl, List.all_cons]
      cases hread : address bid with
      | none =>
          simp only [Option.map_none, Option.isSome_none, Bool.false_and, List.append_nil]
      | some hp =>
          obtain ⟨host, port⟩ := hp
          simp only [Option.map_some, Option.isSome_some, Bool.true_and]
          rw [appendUrl_intercalate h, ih _ _ (by simp), List.append_assoc]
          rfl

/-- Whether the refresh succeeds, and the string it leaves. -/
theorem refreshBrokerUrls_eq {z : Zookeeper} {a : BrokerAnswers} (hids : a.brokerIds = some ids) :
    z.refreshBrokerUrls a = (ids.all fun bid => (z.getBrokerIpAndPort a bid).isSome,
      { z with brokerUrls := List.intercalate [44] (firstUrls (z.getBrokerIpAndPort a) ids) }) := by
  have hloop := @refreshLoop_eq (z.getBrokerIpAndPort a) ids [] [] Iff.rfl
  rw [List.intercalate_nil, List.nil_append] at hloop
  rw [refreshBrokerUrls, hids]
  simp only [hloop]

/-- Where all can be read, these are the urls of all. -/
theorem mapM_brokerUrl (h : ∀ bid ∈ ids, address bid ≠ none) :
    ids.mapM (brokerUrl address) = some (firstUrls address ids) := by
  induction ids with
  | nil => rfl
  | cons bid ids ih =>
      obtain ⟨hbid, hrest⟩ := List.forall_mem_cons.mp h
      obtain ⟨url, hurl⟩ := Option.ne_none_iff_exists'.mp (mt brokerUrl_eq_none.mp hbid)
      rw [List.mapM_cons, ih hrest, firstUrls, hurl]
      rfl

/-- **When a refresh is all or nothing.**  For every string there was and whatever
zookeeper answers: if and only if the ids cannot be had, or all brokers can be
read, or the urls before the first one that cannot make the string there was. -/
theorem all_or_nothing_iff (z : Zookeeper) (a : BrokerAnswers) :
    z.AllOrNothing a ↔ z.Harmless a := by
  cases hids : a.brokerIds with
  | none =>
      have hkept : z.refreshBrokerUrls a = (false, z) := by rw [refreshBrokerUrls, hids]
      refine iff_of_true ?_ ?_
      · unfold AllOrNothing
        rw [hkept]
        exact ⟨fun _ => rfl, fun h => by cases h⟩
      · intro ids h
        rw [hids] at h
        cases h
  | some ids =>
      have hall : (ids.all fun bid => (z.getBrokerIpAndPort a bid).isSome) = true ↔
          ∀ bid ∈ ids, z.getBrokerIpAndPort a bid ≠ none := by
        simp only [List.all_eq_true, Option.isSome_iff_ne_none]
      unfold AllOrNothing
      rw [refreshBrokerUrls_eq hids]
      constructor
      · rintro ⟨hkept, -⟩ ids' hids'
        obtain rfl : ids = ids' := Option.some.inj (hids.symm.trans hids')
        by_cases hread : ∀ bid ∈ ids, z.getBrokerIpAndPort a bid ≠ none
        · exact Or.inl hread
        · exact Or.inr (hkept (Bool.eq_false_iff.mpr (mt hall.mp hread))).symm
      · intro hharmless
        refine ⟨fun hfalse => ?_, fun htrue => ?_⟩
        · have hnot := mt hall.mpr (Bool.eq_false_iff.mp hfalse)
          exact ((hharmless ids hids).resolve_left hnot).symm
        · exact ⟨ids, _, hids, mapM_brokerUrl (hall.mp htrue), rfl⟩

/-- {"host":"h","port":1}, of the node /ids/1 alone. -/
def oneBroker : BrokerAnswers where
  brokerIds := some [ascii "1", ascii "2"]
  znodeData path := if path = ascii "/ids/1" then some [123] else none
  parse _ := .object [(ascii "host", .string (ascii "h")), (ascii "port", .int 1)]

/-- The second broker has left between the listing and the reading: the refresh
returns false, and of the old list the first broker is left. -/
theorem all_or_nothing_fails :
    (Zookeeper.mk (ascii "/ids") (ascii "h:1,g:2")).refreshBrokerUrls oneBroker =
      (false, ⟨ascii "/ids", ascii "h:1"⟩) ∧
    ¬ (Zookeeper.mk (ascii "/ids") (ascii "h:1,g:2")).AllOrNothing oneBroker := by
  have hrefresh : (Zookeeper.mk (ascii "/ids") (ascii "h:1,g:2")).refreshBrokerUrls oneBroker =
      (false, ⟨ascii "/ids", ascii "h:1"⟩) := by decide +kernel
  refine ⟨hrefresh, fun hall => ?_⟩
  have hkept := hall.1 (congrArg Prod.fst hrefresh)
  rw [hrefresh] at hkept
  revert hkept
  decide +kernel

end Zookeeper

/-! ## The same, step by step

Among the threads each answer comes in its own step, and the result is the same as
long as a thread holds the mutex.
-/

namespace ZkClient

open Zookeeper (refreshLoop)

section

variable (getBrokerIpAndPort answer : Str → Option (Str × Str))

/-- What the loop a thread is in will return and leave, if `answer` is what it reads. -/
def remaining (s : ZkClient) (th : ZkThread) : Option (Bool × Str) :=
  match (s.threads th).spot with
  | .brokerExists done bid rest => some (refreshLoop answer done (bid :: rest) s.brokerUrls)
  | .brokerGet done bid rest _ => some (refreshLoop answer done (bid :: rest) s.brokerUrls)
  | _ => none

/-- What the thread reads of a broker, if that is the step, is what `answer` says. -/
def Reads (th : ZkThread) (s : ZkClient) (a : ZkEvent) : Prop :=
  ∀ ids done bid rest len, a = .advance th ids →
    (s.threads th).spot = .brokerGet done bid rest len →
      (s.brokers.data.find? bid).bind (fun info => getBrokerIpAndPort (znodeData len info))
        = answer bid

end

variable {s s' u : ZkClient} {th th' : ZkThread} {bid : Str} {ids : List Str} {x : Bool × Str}
  {getBrokerIpAndPort answer : Str → Option (Str × Str)}

theorem inside_of_remaining (h : s.remaining answer th = some x) :
    (s.threads th).spot.inside = some .brokerUrls := by
  unfold remaining at h
  split at h
  · next hat => rw [hat]; rfl
  · next hat => rw [hat]; rfl
  · cases h

theorem remaining_congr (hthread : s'.threads th = s.threads th)
    (hurls : s'.brokerUrls = s.brokerUrls) : s'.remaining answer th = s.remaining answer th := by
  unfold remaining
  rw [hthread, hurls]

/-- The string is written by a thread that holds its mutex. -/
theorem brokerUrls_of_advance (h : s.advance getBrokerIpAndPort th ids = some s')
    (hout : (s.threads th).spot.inside ≠ some .brokerUrls) : s'.brokerUrls = s.brokerUrls := by
  cases advance_cases h with
  | noIds hat | ids hat | brokerExists hat | brokerFails hat | lastBroker hat | nextBroker hat =>
      exact absurd (by rw [hat]; rfl) hout
  | enter | setWatcher | setChildrenWatcher | register | configExists | configGet => rfl

/-- With the first id the whole loop is ahead, and the string empty. -/
theorem remaining_of_ids (hat : (s.threads th).spot = .brokerIds)
    (h : s.advance getBrokerIpAndPort th (bid :: ids) = some s') :
    s'.remaining answer th = some (refreshLoop answer [] (bid :: ids) []) := by
  unfold advance at h
  rw [hat] at h
  dsimp only at h
  split at h
  · cases h
    unfold remaining
    rw [threads_setThread, Function.update_self]
  · cases h

/-- The two calls of one round. -/
theorem remaining_of_advance (hrem : s.remaining answer th = some x)
    (hreads : Reads getBrokerIpAndPort answer th s (.advance th ids))
    (h : s.advance getBrokerIpAndPort th ids = some s') :
    s'.remaining answer th = some x ∨ (s'.threads th).spot = .out ∧ s'.brokerUrls = x.2 := by
  unfold remaining at hrem
  split at hrem
  · next done bid rest hat =>
      left
      unfold advance at h
      rw [hat] at h
      cases h
      unfold remaining
      rw [threads_setThread, Function.update_self]
      exact hrem
  · next done bid rest len hat =>
      have hread := hreads ids done bid rest len rfl hat
      obtain rfl := Option.some.inj hrem
      unfold advance at h
      rw [hat] at h
      dsimp only at h
      rw [hread] at h
      rw [refreshLoop]
      cases hanswer : answer bid with
      | none =>
          rw [hanswer] at h
          cases h
          right
          rw [threads_leave, Function.update_self]
          exact ⟨rfl, rfl⟩
      | some address =>
          obtain ⟨host, port⟩ := address
          rw [hanswer] at h
          dsimp only at h ⊢
          cases rest with
          | nil =>
              cases h
              right
              refine ⟨?_, rfl⟩
              show (Function.update s.threads th _ th).spot = _
              rw [Function.update_self]
          | cons next rest =>
              cases h
              left
              unfold remaining
              show (match (Function.update s.threads th _ th).spot with
                | .brokerExists _ _ _ => _ | .brokerGet _ _ _ _ => _ | _ => _) = _
              rw [Function.update_self]
  · cases hrem

/-- A step of anybody else leaves the loop where it is. -/
theorem remaining_of_step {a : ZkEvent} (hex : s.Exclusive)
    (hrem : s.remaining answer th = some x) (hreads : Reads getBrokerIpAndPort answer th s a)
    (hstep : step getBrokerIpAndPort a s = some s') :
    s'.remaining answer th = some x ∨ (s'.threads th).spot = .out ∧ s'.brokerUrls = x.2 := by
  have hin := inside_of_remaining hrem
  have hbusy : ∀ th', s.threads th' = idling → th ≠ th' := by
    rintro th' hidle rfl
    rw [hidle] at hin
    cases hin
  have hother : ∀ th' r, th ≠ th' → s'.threads = Function.update s.threads th' r →
      s'.brokerUrls = s.brokerUrls → s'.remaining answer th = some x := by
    intro th' r hne hthreads hurls
    rw [remaining_congr (by rw [hthreads, Function.update_of_ne hne]) hurls]
    exact hrem
  cases step_cases hstep with
  | setConfig | addBroker | removeBroker => exact Or.inl hrem
  | refresh hready hidle => exact Or.inl (hother _ _ (hbusy _ hidle) rfl rfl)
  | configChanged hidle | brokersChanged hidle | sessionEvent hidle =>
      exact Or.inl (hother _ _ (hbusy _ hidle) rfl rfl)
  | @advance th' ids _ hcall =>
      by_cases hth : th = th'
      · subst hth
        exact remaining_of_advance hrem hreads hcall
      · left
        obtain ⟨r, hthreads, -⟩ := threads_of_advance hcall
        exact hother th' r hth hthreads
          (brokerUrls_of_advance hcall fun hin' => hth (hex _ _ _ hin hin'))

/-- Until it leaves the loop, whatever else happens, a thread has the result of
`refreshLoop` before it; and that is the string it leaves. -/
theorem remaining_run {as : List ZkEvent} (hex : s.Exclusive)
    (hrem : s.remaining answer th = some x)
    (hreads : Along (step getBrokerIpAndPort) (Reads getBrokerIpAndPort answer th) as s)
    (hr : run (step getBrokerIpAndPort) as s = some u) :
    u.remaining answer th = some x ∨ ∃ t, Visits (step getBrokerIpAndPort) as s t ∧
      (t.threads th).spot = .out ∧ t.brokerUrls = x.2 := by
  induction as generalizing s with
  | nil =>
      obtain rfl : s = u := by simpa using hr
      exact Or.inl hrem
  | cons a as ih =>
      obtain ⟨s', hstep, hrest⟩ := run_cons_eq_some.mp hr
      rcases remaining_of_step hex hrem hreads.1 hstep with hrem' | hleft
      · rcases ih (exclusive_of_step hex hstep) hrem' (hreads.2 s' hstep) hrest with h | ⟨t, ht, h⟩
        · exact Or.inl h
        · exact Or.inr ⟨t, .later hstep ht, h⟩
      · exact Or.inr ⟨s', .later hstep (.here as s'), hleft⟩

end ZkClient

end Logkafka
