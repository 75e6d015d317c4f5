/-
# `Logkafka.Monitor` — listing and alarming with log_config.php

`getInfo_` puts together, for one logkafka id or for all of them, what the
config node says of each log path and what the client node says the daemon does
with it; `monitorConfig` gives each pair to `mon` of MonitorDefault.php.

A document is what `json_decode` makes of the text, arrays for objects, and its
items are objects of strings, as log_config.php and the daemon write them.

In the loop over the ids `$lk_host_confs` keeps its value where the config node
of an id cannot be read, and the id is then reported with the items of the one
before.  And the id "0" counts as none.  Asking for all ids and asking for each
come to the same exactly when neither shows (`info_own_iff`).
-/
import Logkafka.AdminUtils

namespace Logkafka

/-- Items by log path. -/
abbrev Items := List (Str × Fields)

/-- `empty(..)` of a value without items. -/
def Scalar.isEmpty : Scalar → Bool
  | .bool b => !b
  | .number n => n = 0
  | .string s => s = [] || s = [48]

namespace Info

variable {V : Type*}

/-- The items by their keys, in the order of `array_keys`. -/
def items : Info V → List (Str × V)
  | .array elems => numbered elems
  | .object items => items
  | .null | .scalar _ => []

/-- `empty(..)` -/
def isEmpty : Info V → Bool
  | .null => true
  | .scalar v => v.isEmpty
  | .array elems => elems.isEmpty
  | .object items => items.isEmpty

theorem get_eq (path : Str) (info : Info V) : info.get path = getItem path info.items := by
  cases info with
  | null | scalar _ | array _ | object _ => rfl

theorem items_of_isEmpty {info : Info V} (h : info.isEmpty = true) : info.items = [] := by
  cases info with
  | null | scalar _ => rfl
  | array elems =>
      obtain rfl := List.isEmpty_iff.mp h
      rfl
  | object items => exact List.isEmpty_iff.mp h

end Info

/-- What zookeeper has for log_config.php. -/
structure Znodes where
  /-- the children of "logkafka/config" -/
  hosts : List Str
  /-- the document of a config node; `none` where `get` gives `NULL` -/
  config : Str → Option (Info Fields)
  /-- the document of a client node, if there is one -/
  client : Str → Option (Info Fields)
  hosts_nodup : hosts.Nodup
  hosts_ne : [] ∉ hosts
  config_nodup : ∀ host confs, config host = some confs → (confs.items.map Prod.fst).Nodup

/-- What `getConfigByHostAndPath_` returns. -/
structure CollectionInfo where
  conf : Option Fields
  stat : Option Fields
deriving DecidableEq

/-! ## getInfo

`$configs` may name an id and a path.  What is missing, "" or "0" is none
(`given`).  A value without items has no path, with a warning; asked for one, it
still gets an empty entry for it.
-/

namespace AdminUtils

/-- `array_key_exists($name, $configs) && !empty($configs[$name])` -/
def given (option : Option Str) : Option Str := option.filter fun s => s ≠ [] && s ≠ [48]

def getConfigByHostAndPath (confs stats : Info Fields) (logPath : Str) : CollectionInfo :=
  match confs.get logPath with
  | some conf => ⟨some conf, stats.get logPath⟩
  | none => ⟨none, none⟩

/-- What `getInfo_` puts under one id. -/
def hostInfo (confs stats : Info Fields) (logPath : Option Str) : List (Str × CollectionInfo) :=
  if confs.isEmpty then []
  else match given logPath with
    | some path => [(path, getConfigByHostAndPath confs stats path)]
    | none => (confs.items.map Prod.fst).foldl
        (fun ret path => setItem path (getConfigByHostAndPath confs stats path) ret) []

def getLogCollectionState (zk : Znodes) (host : Str) : Info Fields :=
  (zk.client host).getD (.array [])

/-- The loop over the ids; `confs` is `$lk_host_confs`. -/
def getInfoLoop (zk : Znodes) (logPath : Option Str) :
    List Str → Info Fields → List (Str × List (Str × CollectionInfo)) →
      List (Str × List (Str × CollectionInfo))
  | [], _, ret => ret
  | host :: hosts, confs, ret =>
      let confs := (zk.config host).getD confs -- an error leaves it as it is
      getInfoLoop zk logPath hosts confs
        (setItem host (hostInfo confs (getLogCollectionState zk host) logPath) ret)

/-- `getInfo_` -/
def getInfo (zk : Znodes) (logkafkaId logPath : Option Str) :
    List (Str × List (Str × CollectionInfo)) :=
  match given logkafkaId with
  | some id =>
      [(id, hostInfo ((zk.config id).getD .null) (getLogCollectionState zk id) logPath)]
  | none => getInfoLoop zk logPath zk.hosts .null []

end AdminUtils

/-! ## Alarms -/

/-- What `mon` alarms about. -/
inductive Alarm
  | notCollecting
  | lagging (bytes : ℤ)
  | rotateLagging (sec : ℤ)
deriving DecidableEq

namespace MonitorDefault

/-- `(int)$fields[$name]`; what is not there is 0. -/
def int (fields : Fields) (name : String) : ℤ :=
  ((getItem (ascii name) fields).map fun text => (strtol10 text).toInt).getD 0

/-- The limit of this name is there, is not 0, and is passed. -/
def Exceeds (conf : Fields) (limit : String) (value : ℤ) : Prop :=
  int conf limit ≠ 0 ∧ int conf limit < value

instance (conf : Fields) (limit : String) (value : ℤ) : Decidable (Exceeds conf limit value) :=
  inferInstanceAs (Decidable (_ ∧ _))

/-- `mon` up to the alarm it raises. -/
def alarm (now : ℤ) (info : CollectionInfo) : Option Alarm :=
  match info.conf with
  | none => none
  | some conf =>
      if conf = [] then none
      else match info.stat with
        | none => some .notCollecting
        | some stat =>
            let laggingBytes := int stat "filesize" - int stat "filepos"
            let laggingSec := now - int stat "last_rotate_time_sec"
            if stat = [] then some .notCollecting
            else if Exceeds conf "lagging_max_bytes" laggingBytes then
              some (.lagging laggingBytes)
            else if Exceeds conf "rotate_lagging_max_sec" laggingSec then
              some (.rotateLagging laggingSec)
            else none

def reason : Alarm → Str
  | .notCollecting => ascii "Not collecting"
  | .lagging bytes => ascii "Lagging " ++ int2Str bytes ++ ascii " bytes"
  | .rotateLagging sec => ascii "Rotate lagging " ++ int2Str sec ++ ascii " seconds"

/-- The message of an alarm. -/
def message (zookeeperConnect logkafkaId pathPattern : Str) (a : Alarm) : Str :=
  ascii "[Logkafka][" ++ zookeeperConnect ++ ascii "][" ++ logkafkaId ++ ascii "][" ++
    pathPattern ++ ascii "][" ++ reason a ++ ascii ", please check logkafka error logs]"

/-- `mon`; the message it gives to `alarm_`, if any. -/
def mon (zookeeperConnect logkafkaId pathPattern : Str) (now : ℤ) (info : CollectionInfo) :
    Option Str :=
  (alarm now info).map (message zookeeperConnect logkafkaId pathPattern)

end MonitorDefault

/-- `AdminUtils::monitorConfig` with the default monitor: the alarms of one
round; `time` is what `time()` answers for an id and a path. -/
def AdminUtils.monitorConfig (zookeeperConnect : Str) (zk : Znodes)
    (logkafkaId logPath : Option Str) (time : Str → Str → ℤ) : List Str :=
  (getInfo zk logkafkaId logPath).flatMap fun host => host.2.filterMap fun path =>
    MonitorDefault.mon zookeeperConnect host.1 path.1 (time host.1 path.1) path.2

/-! ## Items

A PHP array as a list of keys and values, in the order in which the keys came.
-/

section

variable {V : Type*} {key key' : Str}

/-- Items under keys, all made in one way. -/
theorem getItem_foldl_setItem (f : Str → V) (keys : List Str) (items : List (Str × V)) :
    getItem key (keys.foldl (fun items key => setItem key (f key) items) items) =
      if key ∈ keys then some (f key) else getItem key items := by
  induction keys generalizing items with
  | nil => simp
  | cons k keys ih =>
      rw [List.foldl_cons, ih]
      by_cases hk : key = k
      · subst hk
        simp [getItem_setItem_self]
      · simp [hk, getItem_setItem_ne hk]

theorem getItem_eq_none {items : List (Str × V)} :
    getItem key items = none ↔ key ∉ items.map Prod.fst := by
  induction items with
  | nil => simp [getItem]
  | cons e items ih =>
      obtain ⟨k, v⟩ := e
      by_cases hk : k = key
      · simp [getItem, hk]
      · simp [getItem, hk, ih, Ne.symm hk]

theorem mem_of_getItem {items : List (Str × V)} {v : V} (h : getItem key items = some v) :
    (key, v) ∈ items := by
  induction items with
  | nil => cases h
  | cons e items ih =>
      obtain ⟨k, w⟩ := e
      by_cases hk : k = key
      · rw [getItem, if_pos hk] at h
        cases h
        exact hk ▸ List.mem_cons_self
      · rw [getItem, if_neg hk] at h
        exact List.mem_cons_of_mem _ (ih h)

theorem getItem_of_mem {items : List (Str × V)} {v : V} (hnd : (items.map Prod.fst).Nodup)
    (h : (key, v) ∈ items) : getItem key items = some v := by
  induction items with
  | nil => cases h
  | cons e items ih =>
      obtain ⟨k, w⟩ := e
      obtain ⟨hk, hnd⟩ := List.nodup_cons.mp hnd
      rcases List.mem_cons.mp h with heq | h
      · cases heq
        exact if_pos rfl
      · have hne : k ≠ key := fun heq => hk (List.mem_map.mpr ⟨_, h, heq.symm⟩)
        rw [getItem, if_neg hne]
        exact ih hnd h

theorem setItem_of_not_mem {items : List (Str × V)} (h : key ∉ items.map Prod.fst) (v : V) :
    setItem key v items = items ++ [(key, v)] := by
  induction items with
  | nil => rfl
  | cons e items ih =>
      obtain ⟨k, w⟩ := e
      obtain ⟨hne, hrest⟩ := not_or.mp (fun hmem => h (List.mem_cons.mpr hmem))
      rw [setItem, if_neg (Ne.symm hne), ih hrest]
      rfl

theorem foldl_setItem_eq (f : Str → V) {keys : List Str} {items : List (Str × V)}
    (hnd : keys.Nodup) (hnew : ∀ key ∈ keys, key ∉ items.map Prod.fst) :
    keys.foldl (fun items key => setItem key (f key) items) items =
      items ++ keys.map fun key => (key, f key) := by
  induction keys generalizing items with
  | nil => exact (List.append_nil items).symm
  | cons k keys ih =>
      obtain ⟨hk, hnd⟩ := List.nodup_cons.mp hnd
      obtain ⟨hnew, hrest⟩ := List.forall_mem_cons.mp hnew
      rw [List.foldl_cons, setItem_of_not_mem hnew, ih hnd, List.append_assoc]
      · rfl
      · intro key hkey hmem
        rw [List.map_append, List.mem_append] at hmem
        rcases hmem with hmem | hmem
        · exact hrest key hkey hmem
        · obtain rfl := List.mem_singleton.mp hmem
          exact hk hkey

end

namespace AdminUtils

variable {zk : Znodes} {logPath : Option Str} {confs stats : Info Fields} {host path : Str}
  {hosts : List Str} {ret : List (Str × List (Str × CollectionInfo))}

/-- All paths of a document with what both documents say of them. -/
theorem hostInfo_eq_map (hnd : (confs.items.map Prod.fst).Nodup) :
    hostInfo confs stats none =
      confs.items.map fun e => (e.1, ⟨some e.2, stats.get e.1⟩) := by
  unfold hostInfo
  split
  · next hempty =>
      rw [Info.items_of_isEmpty hempty]
      rfl
  · refine (foldl_setItem_eq _ hnd fun _ _ => List.not_mem_nil).trans ?_
    rw [List.nil_append, List.map_map]
    refine List.map_congr_left fun e he => ?_
    simp [getConfigByHostAndPath, Info.get_eq, getItem_of_mem hnd he]

/-- Nothing is put under an id that has this document. -/
def Silent (logPath : Option Str) (confs : Info Fields) : Prop :=
  confs.isEmpty = true ∨ given logPath = none ∧ confs.items = []

theorem hostInfo_eq_nil_iff : hostInfo confs stats logPath = [] ↔ Silent logPath confs := by
  unfold hostInfo Silent
  split
  · next hempty => exact iff_of_true rfl (Or.inl hempty)
  · next hempty =>
      rw [or_iff_right hempty]
      cases given logPath with
      | some path => exact iff_of_false (List.cons_ne_nil _ _) fun h => by cases h.1
      | none =>
          rw [and_iff_right rfl]
          constructor
          · intro h
            by_contra hne
            obtain ⟨e, es, hitems⟩ := List.exists_cons_of_ne_nil hne
            have hkey := @getItem_foldl_setItem _ e.1 (getConfigByHostAndPath confs stats)
              (confs.items.map Prod.fst) []
            have h : (confs.items.map Prod.fst).foldl
              (fun ret path => setItem path (getConfigByHostAndPath confs stats path) ret) [] = [] := h
            rw [h, hitems, List.map_cons, if_pos List.mem_cons_self] at hkey
            cases hkey
          · intro hitems
            show (confs.items.map Prod.fst).foldl _ [] = _
            rw [hitems]
            rfl

/-! ## All ids and each

In the loop an id has its own document, or where that cannot be read the one of
the id before; asked for alone, it has its own or none.
-/

/-- The document an id is reported with when it is asked for alone. -/
def ownConfs (zk : Znodes) (host : Str) : Info Fields := (zk.config host).getD .null

def ownInfo (zk : Znodes) (logPath : Option Str) (host : Str) : List (Str × CollectionInfo) :=
  hostInfo (ownConfs zk host) (getLogCollectionState zk host) logPath

/-- An id that cannot be read finds nothing to report in its place. -/
def Passes (zk : Znodes) (logPath : Option Str) (confs : Info Fields) (host : Str) : Prop :=
  zk.config host = none → Silent logPath confs

/-- What the loop reports, from a value of `$lk_host_confs`. -/
def reported (zk : Znodes) (logPath : Option Str) :
    List Str → Info Fields → List (Str × List (Str × CollectionInfo))
  | [], _ => []
  | host :: hosts, confs =>
      let confs := (zk.config host).getD confs
      (host, hostInfo confs (getLogCollectionState zk host) logPath) ::
        reported zk logPath hosts confs

theorem getInfoLoop_eq (hnd : hosts.Nodup) (hret : ∀ host ∈ hosts, host ∉ ret.map Prod.fst) :
    getInfoLoop zk logPath hosts confs ret = ret ++ reported zk logPath hosts confs := by
  induction hosts generalizing confs ret with
  | nil => exact (List.append_nil ret).symm
  | cons host hosts ih =>
      obtain ⟨hhost, hnd⟩ := List.nodup_cons.mp hnd
      obtain ⟨hnew, hret⟩ := List.forall_mem_cons.mp hret
      rw [getInfoLoop, setItem_of_not_mem hnew, ih hnd]
      · rw [List.append_assoc]
        rfl
      · intro next hnext hmem
        rw [List.map_append, List.mem_append] at hmem
        rcases hmem with hmem | hmem
        · exact hret next hnext hmem
        · obtain rfl := List.mem_singleton.mp hmem
          exact hhost hnext

theorem silent_null : Silent logPath .null := Or.inl rfl

theorem own_iff_passes :
    hostInfo ((zk.config host).getD confs) (getLogCollectionState zk host) logPath =
      ownInfo zk logPath host ↔ Passes zk logPath confs host := by
  unfold Passes ownInfo ownConfs
  cases zk.config host with
  | some own => simp
  | none =>
      show hostInfo confs _ logPath = hostInfo .null _ logPath ↔ (none = none → _)
      rw [hostInfo_eq_nil_iff.mpr silent_null, hostInfo_eq_nil_iff]
      exact ⟨fun h _ => h, fun h => h rfl⟩

/-- The loop, from any value of `$lk_host_confs`. -/
theorem reported_own_iff :
    reported zk logPath hosts confs = hosts.map (fun host => (host, ownInfo zk logPath host)) ↔
      (∀ host ∈ hosts.head?, Passes zk logPath confs host) ∧
        hosts.IsChain fun host next => Passes zk logPath (ownConfs zk host) next := by
  induction hosts generalizing confs with
  | nil => simp [reported]
  | cons host hosts ih =>
      -- what the next id finds is silent exactly when the id's own document is
      have hnext : Passes zk logPath confs host → ∀ next,
          (Passes zk logPath ((zk.config host).getD confs) next ↔
            Passes zk logPath (ownConfs zk host) next) := by
        intro h next
        unfold ownConfs
        cases hconf : zk.config host with
        | some own => exact Iff.rfl
        | none => exact imp_congr_right fun _ => iff_of_true (h hconf) silent_null
      rw [reported, List.map_cons, List.cons_eq_cons, Prod.mk_inj, own_iff_passes,
        List.isChain_cons, List.head?_cons]
      simp only [true_and, Option.mem_some_iff, forall_eq']
      refine and_congr_right fun hpasses => ?_
      rw [ih]
      simp only [hnext hpasses]

theorem getInfo_all (zk : Znodes) (logPath : Option Str) :
    getInfo zk none logPath = reported zk logPath zk.hosts .null :=
  getInfoLoop_eq zk.hosts_nodup fun _ _ => List.not_mem_nil

/-- Any other id than "0" is asked for alone. -/
theorem getInfo_own (zk : Znodes) (logPath : Option Str) (hne : host ≠ []) (hzero : host ≠ [48]) :
    getInfo zk (some host) logPath = [(host, ownInfo zk logPath host)] := by
  have hgiven : given (some host) = some host := by simp [given, hne, hzero]
  unfold getInfo
  rw [hgiven]
  rfl

theorem length_reported : (reported zk logPath hosts confs).length = hosts.length := by
  induction hosts generalizing confs with
  | nil => rfl
  | cons host hosts ih => exact congrArg (· + 1) ih

/-- Asking for "0" is asking for all, so that what is put together has more ids
than there are, unless it is the only one. -/
theorem hosts_of_zero (hzero : [48] ∈ zk.hosts)
    (heq : getInfo zk none logPath =
      zk.hosts.flatMap fun host => getInfo zk (some host) logPath) : zk.hosts = [[48]] := by
  have hall : (getInfo zk none logPath).length = zk.hosts.length := by
    rw [getInfo_all, length_reported]
  have hsome : ∀ hosts : List Str, (∀ host ∈ hosts, host ∈ zk.hosts) →
      hosts.length ≤ (hosts.flatMap fun host => getInfo zk (some host) logPath).length := by
    intro hosts hmem
    induction hosts with
    | nil => exact Nat.le_refl 0
    | cons host hosts ih =>
        obtain ⟨hhost, hmem⟩ := List.forall_mem_cons.mp hmem
        have hone : 1 ≤ (getInfo zk (some host) logPath).length := by
          by_cases h0 : host = [48]
          · subst h0
            exact (List.length_pos_of_mem hzero).trans_eq hall.symm
          · rw [getInfo_own zk logPath (fun hnil => zk.hosts_ne (hnil ▸ hhost)) h0]
            exact Nat.le_refl 1
        rw [List.flatMap_cons, List.length_append, List.length_cons]
        have := ih hmem
        omega
  obtain ⟨pre, suf, hsplit⟩ := List.append_of_mem hzero
  have hpre := hsome pre fun host h => hsplit ▸ List.mem_append_left _ h
  have hsuf := hsome suf fun host h => hsplit ▸ List.mem_append_right _ (List.mem_cons_of_mem _ h)
  have hlen := congrArg List.length heq
  rw [hsplit, List.flatMap_append, List.flatMap_cons, List.length_append, List.length_append,
    show getInfo zk (some [48]) logPath = getInfo zk none logPath from rfl] at hlen
  have hnil : pre.length = 0 ∧ suf.length = 0 := by omega
  rw [hsplit, List.length_eq_zero_iff.mp hnil.1, List.length_eq_zero_iff.mp hnil.2]
  rfl

theorem getInfo_each (logPath : Option Str) (hzero : [48] ∉ zk.hosts) :
    (zk.hosts.flatMap fun host => getInfo zk (some host) logPath) =
      zk.hosts.map fun host => (host, ownInfo zk logPath host) := by
  rw [← List.flatMap_pure_eq_map]
  refine List.flatMap_congr fun host hhost => ?_
  exact getInfo_own zk logPath (fun hnil => zk.hosts_ne (hnil ▸ hhost)) fun h0 => hzero (h0 ▸ hhost)

/-- All ids at once are reported each as its own document says, exactly when none
that cannot be read comes right after one with something to report. -/
theorem getInfo_own_iff :
    getInfo zk none logPath = zk.hosts.map (fun host => (host, ownInfo zk logPath host)) ↔
      zk.hosts.IsChain fun host next =>
        zk.config next = none → Silent logPath (ownConfs zk host) := by
  rw [getInfo_all, reported_own_iff]
  exact ⟨And.right, fun h => ⟨fun host _ _ => silent_null, h⟩⟩

/-- Over ids that cannot be read a document is carried on. -/
theorem mem_reported_carried {gap suf : List Str} {next : Str}
    (hgap : ∀ id ∈ gap ++ [next], zk.config id = none) :
    (next, hostInfo confs (getLogCollectionState zk next) logPath) ∈
      reported zk logPath (gap ++ next :: suf) confs := by
  induction gap with
  | nil =>
      rw [List.nil_append, reported, hgap next (List.mem_singleton_self next)]
      exact List.mem_cons_self
  | cons id gap ih =>
      obtain ⟨hid, hgap⟩ := List.forall_mem_cons.mp hgap
      rw [List.cons_append, reported, hid]
      exact List.mem_cons_of_mem _ (ih hgap)

theorem mem_reported {pre : List Str} {entry : Str × List (Str × CollectionInfo)}
    (h : ∀ confs, entry ∈ reported zk logPath hosts confs) :
    entry ∈ reported zk logPath (pre ++ hosts) confs := by
  induction pre generalizing confs with
  | nil => exact h confs
  | cons host pre ih => exact List.mem_cons_of_mem _ ih

/-- All ids at once are reported as each would be alone, exactly when none that
cannot be read comes right after one with something to report, and "0" is not
among others; and one that cannot be read is reported with the document of the
last one before it that can. -/
theorem info_own_iff (zk : Znodes) (logPath : Option Str) :
    (getInfo zk none logPath = (zk.hosts.flatMap fun host => getInfo zk (some host) logPath) ↔
      ([48] ∈ zk.hosts → zk.hosts = [[48]]) ∧ zk.hosts.IsChain fun host next =>
        zk.config next = none → Silent logPath (ownConfs zk host)) ∧
    ∀ pre host gap next suf confs, zk.hosts = pre ++ host :: (gap ++ next :: suf) →
      zk.config host = some confs → (∀ id ∈ gap ++ [next], zk.config id = none) →
        (next, hostInfo confs (getLogCollectionState zk next) logPath) ∈
          getInfo zk none logPath := by
  constructor
  · by_cases hzero : [48] ∈ zk.hosts
    · constructor
      · intro heq
        have hone := hosts_of_zero hzero heq
        refine ⟨fun _ => hone, ?_⟩
        rw [hone]
        exact List.isChain_singleton _
      · rintro ⟨hone, -⟩
        rw [hone hzero, List.flatMap_singleton]
        rfl
    · rw [getInfo_each logPath hzero, getInfo_own_iff]
      exact ⟨fun h => ⟨fun hmem => absurd hmem hzero, h⟩, And.right⟩
  · intro pre host gap next suf confs hsplit hconf hgap
    rw [getInfo_all, hsplit]
    refine mem_reported fun before => ?_
    rw [reported, hconf]
    exact List.mem_cons_of_mem _ (mem_reported_carried hgap)

/-- "a" has a path, and "b" cannot be read. -/
def unread : Znodes where
  hosts := [[97], [98]]
  config host := if host = [97] then some (.object [([99], [(ascii "topic", [116])])]) else none
  client _ := none
  hosts_nodup := by decide
  hosts_ne := by decide
  config_nodup host confs h := by
    obtain ⟨-, h⟩ := Option.ite_none_right_eq_some.mp h
    cases h
    exact List.nodup_singleton _

/-- The path of "a" is reported, and missed, at both. -/
example : monitorConfig (ascii "zk") unread none none (fun _ _ => 0) =
    [MonitorDefault.message (ascii "zk") [97] [99] .notCollecting,
      MonitorDefault.message (ascii "zk") [98] [99] .notCollecting] := by
  decide +kernel

end AdminUtils

end Logkafka
