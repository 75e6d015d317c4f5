/-
# `Logkafka.Deployment` — from log_config.php to the tasks of the daemon

    --create, --delete  --set-->  config node  --watch-->  m_log_config  --refresh-->  m_tasks

The commands of `Logkafka.AdminUtils` set the document of a logkafka id, the two
threads of `Logkafka.Zookeeper.Watches` copy its text to `m_log_config`, and
every refresh of the manager reads that.  All of them go on side by side.  The
text is written by `json_encode`, a parameter as the parser is; with rapidjson as
the parser, whatever writes texts of JSON is read (`readable_rapidjson`).

Where no notification is pending and no handler is in progress, the next refresh
makes the tasks those of the document in zookeeper, and they stay so until
another refresh (`tasks_follow`).
-/
import Logkafka.Json.Complete
import Logkafka.Manager.Edits
import Logkafka.Monitor
import Logkafka.Zookeeper.ConfigWatch

namespace Logkafka

/-! ## Documents

The keys of a document are C strings and no two are the same, and it stays so
under every command; then the last command on a path says what is there.
-/

section

variable {V : Type*} {info : Info V} {edit : Edit} {key : Str} {items : List (Str × V)}

/-- The keys are C strings, and no two of them the same. -/
structure CleanKeys (items : List (Str × V)) : Prop where
  nodup : (items.map Prod.fst).Nodup
  cString : ∀ key ∈ items.map Prod.fst, 0 ∉ key

def Info.CleanKeys (info : Info V) : Prop :=
  ∀ items, info = .object items → Logkafka.CleanKeys items

theorem byte_of_isDigit {c : Char} (h : c.isDigit = true) :
    c.toNat.toUInt8.toNat = c.toNat ∧ 48 ≤ c.toNat := by
  simp only [Char.isDigit, Bool.and_eq_true, decide_eq_true_eq, ge_iff_le, UInt32.le_iff_toNat_le]
    at h
  have hlow : 48 ≤ c.toNat := h.1
  have hhigh : c.toNat ≤ 57 := h.2
  refine ⟨?_, hlow⟩
  rw [UInt8.toNat_ofNat']
  omega

theorem isDigit_of_mem_decimal {n : ℕ} {c : Char} (h : c ∈ Nat.toDigits 10 n) :
    c.isDigit = true :=
  Nat.isDigit_of_mem_toDigits (by omega) (Nat.le_refl 10) h

theorem decimal_injective : Function.Injective decimal := by
  have hread : ∀ n, (decimal n).map (fun b => Char.ofNat b.toNat) = Nat.toDigits 10 n := by
    intro n
    rw [decimal, List.map_map]
    refine (List.map_congr_left fun c hc => ?_).trans (List.map_id _)
    show Char.ofNat c.toNat.toUInt8.toNat = c
    rw [(byte_of_isDigit (isDigit_of_mem_decimal hc)).1, Char.ofNat_toNat]
  intro m n h
  have hdigits : Nat.toDigits 10 m = Nat.toDigits 10 n := by rw [← hread, ← hread, h]
  rw [← Nat.ofDigitChars_ten_toDigits (n := m), hdigits, Nat.ofDigitChars_ten_toDigits]

theorem zero_not_mem_decimal (n : ℕ) : 0 ∉ decimal n := by
  intro h
  obtain ⟨c, hc, hzero⟩ := List.mem_map.mp h
  obtain ⟨hnat, hlow⟩ := byte_of_isDigit (isDigit_of_mem_decimal hc)
  rw [hzero] at hnat
  exact absurd (hnat ▸ hlow) (by decide)

theorem map_fst_numbered (elems : List V) :
    (numbered elems).map Prod.fst = (List.range' 0 elems.length).map decimal := by
  rw [← List.zipIdx_map_snd, numbered, List.map_map, List.map_map]
  rfl

theorem cleanKeys_numbered (elems : List V) : CleanKeys (numbered elems) := by
  refine ⟨?_, fun key hkey => ?_⟩
  · rw [map_fst_numbered]
    exact (List.nodup_range' ..).map decimal_injective
  · rw [map_fst_numbered] at hkey
    obtain ⟨n, -, rfl⟩ := List.mem_map.mp hkey
    exact zero_not_mem_decimal n

theorem map_fst_setItem_of_mem (h : key ∈ items.map Prod.fst) (v : V) :
    (setItem key v items).map Prod.fst = items.map Prod.fst := by
  induction items with
  | nil => cases h
  | cons e items ih =>
      obtain ⟨k, w⟩ := e
      by_cases hk : k = key
      · rw [setItem, if_pos hk, ← hk]
        rfl
      · rw [setItem, if_neg hk]
        have hrest := (List.mem_cons.mp h).resolve_left (Ne.symm hk)
        exact congrArg (k :: ·) (ih hrest)

theorem CleanKeys.setItem (h : CleanKeys items) (hkey : 0 ∉ key) (v : V) :
    CleanKeys (setItem key v items) := by
  by_cases hmem : key ∈ items.map Prod.fst
  · have hkeys := map_fst_setItem_of_mem hmem v
    exact ⟨hkeys.symm ▸ h.nodup, hkeys.symm ▸ h.cString⟩
  · rw [setItem_of_not_mem hmem]
    refine ⟨?_, fun k hk => ?_⟩
    · rw [List.map_append]
      refine h.nodup.append (List.nodup_singleton _) fun k hk hk' => ?_
      obtain rfl : k = key := List.mem_singleton.mp hk'
      exact hmem hk
    · rw [List.map_append] at hk
      rcases List.mem_append.mp hk with hk | hk
      · exact h.cString k hk
      · obtain rfl : k = key := List.mem_singleton.mp hk
        exact hkey

theorem cleanKeys_assign {items' : List (Str × V)} {v : V} (h : info.CleanKeys) (hkey : 0 ∉ key)
    (hitems : info.assign key v = some items') : Logkafka.CleanKeys items' := by
  have hone : Logkafka.CleanKeys [(key, v)] :=
    ⟨List.nodup_singleton _, fun k hk => List.mem_singleton.mp hk ▸ hkey⟩
  cases info with
  | null =>
      cases hitems
      exact hone
  | scalar v =>
      obtain ⟨-, hitems⟩ := Option.ite_none_right_eq_some.mp hitems
      cases hitems
      exact hone
  | array elems =>
      cases hitems
      exact (cleanKeys_numbered elems).setItem hkey v
  | object items =>
      cases hitems
      exact (h items rfl).setItem hkey v

/-- A path is no index of an array. -/
theorem getItem_numbered (logPath : LogPath) (elems : List V) :
    getItem logPath.1 (numbered elems) = none := by
  refine getItem_eq_none.mpr fun hmem => ?_
  rw [map_fst_numbered] at hmem
  obtain ⟨n, -, hn⟩ := List.mem_map.mp hmem
  obtain ⟨c, hc, hslash⟩ : ∃ c ∈ Nat.toDigits 10 n, c.toNat.toUInt8 = 47 := by
    have hhead : 47 ∈ decimal n := by
      rw [hn]
      exact List.mem_of_head? logPath.2
    exact List.mem_map.mp hhead
  obtain ⟨hnat, hlow⟩ := byte_of_isDigit (isDigit_of_mem_decimal hc)
  rw [hslash] at hnat
  exact absurd (hnat ▸ hlow) (by decide)

variable [OfFields V]

open OfFields (ofFields)

/-- A command keeps the keys apart. -/
theorem cleanKeys_apply (h : info.CleanKeys) (hpath : 0 ∉ edit.logPath.1) :
    (edit.apply info).CleanKeys := by
  intro items hitems
  cases edit with
  | create logPath configs =>
      rw [ConfigNode.apply_create] at hitems
      split at hitems
      · exact h items hitems
      · next items' hassign =>
          split at hitems
          · cases hitems
            exact cleanKeys_assign h hpath hassign
          · cases hitems
  | delete logPath =>
      cases info with
      | null | scalar _ | array _ => cases hitems
      | object items =>
          cases hitems
          have hsub : ((items.filter (·.1 ≠ logPath.1)).map Prod.fst).Sublist
              (items.map Prod.fst) := List.filter_sublist.map Prod.fst
          obtain ⟨hnodup, hcString⟩ := h items rfl
          exact ⟨hsub.nodup hnodup, fun k hk => hcString k (hsub.subset hk)⟩

theorem get_apply_delete (logPath : LogPath) (info : Info V) :
    ((Edit.delete logPath).apply info).get logPath.1 = none := by
  cases info with
  | null | scalar v => rfl
  | array elems => exact getItem_numbered logPath elems
  | object items =>
      refine getItem_eq_none.mpr fun hmem => ?_
      obtain ⟨e, he, hkey⟩ := List.mem_map.mp hmem
      simpa [hkey] using (List.mem_filter.mp he).2

/-- What takes no items stays what it is. -/
theorem oneByOne_of_not_takesItems (edits : List Edit) (h : ¬ info.TakesItems) :
    oneByOne edits info = info := by
  cases info with
  | null | array _ | object _ => exact absurd trivial h
  | scalar v =>
      have hassign : ∀ logPath configs, (Info.scalar v).assign logPath (ofFields configs) =
          (none : Option (List (Str × V))) := fun _ _ => if_neg h
      induction edits with
      | nil => rfl
      | cons edit edits ih =>
          cases edit with
          | create logPath configs =>
              rw [oneByOne, List.foldl_cons, ConfigNode.apply_create, hassign]
              exact ih
          | delete logPath => exact ih

/-- What a command says of its path. -/
def Edit.item : Edit → Option V
  | .create _ configs => some (ofFields configs)
  | .delete _ => none

/-- The last command on a path says what is there. -/
theorem get_oneByOne_last {earlier later : List Edit}
    (hutf8 : ∀ e ∈ edit :: later, e.isUtf8 = true)
    (hlater : ∀ e ∈ later, e.logPath ≠ edit.logPath)
    (h : (oneByOne (earlier ++ edit :: later) info).TakesItems) :
    (oneByOne (earlier ++ edit :: later) info).get edit.logPath.1 = edit.item := by
  have hsplit : oneByOne (earlier ++ edit :: later) info =
      oneByOne later (edit.apply (oneByOne earlier info)) := by
    simp [oneByOne, List.foldl_append]
  have hearlier : (oneByOne earlier info).TakesItems := by
    by_contra hnot
    have hstays := oneByOne_of_not_takesItems (edit :: later) hnot
    have hall : oneByOne (earlier ++ edit :: later) info =
        oneByOne (edit :: later) (oneByOne earlier info) := by
      simp [oneByOne, List.foldl_append]
    rw [hall, hstays] at h
    exact hnot h
  obtain ⟨hedit, hutf8⟩ := List.forall_mem_cons.mp hutf8
  rw [hsplit, ConfigNode.get_oneByOne_ne hutf8 fun e he heq => hlater e he (Subtype.ext heq)]
  cases edit with
  | create logPath configs => exact ConfigNode.get_apply_create hearlier hedit
  | delete logPath => exact get_apply_delete logPath _

end

/-! ## The tasks of a document

What a refresh makes of a document, pattern by pattern.  No other event changes
the tasks.
-/

section

open Manager Prog

variable {cfg : Config} {env : Env} {s s' : Manager} {tw : WatcherId} {queueMax : UInt64}
  {unset : Str → String → Bool} {items : List (Str × Json)} {P : Str}

/-- The settings that a document has for a pattern; an entry without a topic, or
not legal, is passed over. -/
def confIn (queueMax : UInt64) (unset : Str → String → Bool) (items : List (Str × Json))
    (P : Str) : Option TaskConf :=
  (getItem P items).bind fun logItem =>
    (readItem queueMax (unset P) P logItem).filter TaskConf.isLegal

theorem confIn_cons (key : Str) (logItem : Json) :
    confIn queueMax unset ((key, logItem) :: items) P =
      if key = P then (readItem queueMax (unset P) P logItem).filter TaskConf.isLegal
      else confIn queueMax unset items P := by
  rw [confIn, getItem]
  by_cases hkey : key = P
  · rw [if_pos hkey, if_pos hkey]
    rfl
  · rw [if_neg hkey, if_neg hkey]
    rfl

/-- One member of the document is read. -/
theorem find?_readMember (key : Str) (item : Option TaskConf)
    (members : List (Str × Option TaskConf)) (confs : OrdMap Str TaskConf) :
    ∃ confs', readMembers ((key, item) :: members) confs = readMembers members confs' ∧
      confs'.find? P =
        if key = P then (item.filter TaskConf.isLegal).or (confs.find? P) else confs.find? P := by
  cases item with
  | none => exact ⟨confs, rfl, (ite_self _).symm⟩
  | some conf =>
      refine ⟨_, rfl, ?_⟩
      cases hlegal : conf.isLegal with
      | false => simp [hlegal, Option.filter]
      | true =>
          simp only [if_true, OrdMap.find?_insert, Option.filter, hlegal, Option.some_or]
          by_cases hkey : key = P
          · rw [if_pos hkey.symm, if_pos hkey]
          · rw [if_neg (Ne.symm hkey), if_neg hkey]

theorem find?_newConfs (h : CleanKeys items) {members : List (Str × Option TaskConf)}
    (hdoc : readDocument queueMax unset (some (.object items)) = .object members) (P : Str) :
    (newConfs members).find? P = confIn queueMax unset items P := by
  have hread : ∀ confs : OrdMap Str TaskConf, (readMembers (items.map fun m =>
      (cstr m.1, readItem queueMax (unset (cstr m.1)) (cstr m.1) m.2)) confs).find? P =
        (confIn queueMax unset items P).or (confs.find? P) := by
    clear hdoc
    induction items with
    | nil => exact fun _ => rfl
    | cons m items ih =>
        obtain ⟨key, logItem⟩ := m
        intro confs
        obtain ⟨hnew, hnodup⟩ := List.nodup_cons.mp h.nodup
        obtain ⟨hkey, hrest⟩ := List.forall_mem_cons.mp h.cString
        have hcstr : cstr key = key := cstr_of_not_mem hkey
        rw [List.map_cons, hcstr, confIn_cons]
        obtain ⟨confs', hmember, hfind⟩ := find?_readMember key
          (readItem queueMax (unset key) key logItem) (items.map fun m =>
            (cstr m.1, readItem queueMax (unset (cstr m.1)) (cstr m.1) m.2)) confs (P := P)
        rw [hmember, ih ⟨hnodup, hrest⟩ confs', hfind]
        by_cases hP : key = P
        · subst hP
          have hgone : confIn queueMax unset items key = none := by
            rw [confIn, getItem_eq_none.mpr hnew]
            rfl
          rw [if_pos rfl, if_pos rfl, hgone, Option.none_or]
        · rw [if_neg hP, if_neg hP]
  cases hdoc
  exact (hread OrdMap.empty).trans (by simp)

/-- A refresh that reads a document leaves the tasks with its settings. -/
theorem confAt_refreshWatchers (hs : s.Wf) {members : List (Str × Option TaskConf)}
    (hdoc : env.document = .object members) :
    wp (refreshWatchers cfg env) (fun _ s' => ∀ P, confAt s'.tasks P = (newConfs members).find? P)
      (fun _ => True) [] s := by
  refine wp_refreshWatchers_parts hs trivial (fun _ => trivial)
    (fun hnot => absurd hdoc (hnot members)) ?_
  intro members' s₁ hdoc' hr _ hs₁
  cases hdoc.symm.trans hdoc'
  refine (wp_stopWatchers (fun _ => trivial) _ s₁ hs₁).conseq fun _ s₂ hstop => ?_
  refine (wp_startWatchers (fun _ => trivial) _ s₂ hstop.wf).conseq fun _ s₃ hstart => ?_
  refine (wp_updateWatchers (fun _ => trivial) stable_true stable_true
    (fun _ _ _ _ => trivial) (fun _ _ _ _ _ _ _ _ => trivial) _ s₃ (OrdSet.nodup _) hstart.wf
    fun _ _ => trivial).conseq fun _ s₄ h P => ?_
  rw [h.2.1.tasks, hstart.frame.tasks, hstop.frame.tasks]
  exact hr.tasks P

/-- No other event changes the tasks. -/
theorem tasks_of_step {e : Manager.Event} (hs : s.Wf) (he : ∀ env, e ≠ .refresh env)
    (hstep : Manager.step cfg e s = some s') : s'.tasks = s.tasks := by
  refine of_step (R := fun u => u.tasks = s.tasks) hstep fun henabled => ?_
  cases e with
  | refresh env => exact absurd rfl (he env)
  | notify env tw =>
      obtain ⟨t, hw, -⟩ := henabled
      refine wp_onNotify_inv (I := fun u => u.tasks = s.tasks) hs (fun _ => trivial) hw rfl ?_ ?_
      · intro s₁ t₁ s' t' htasks _ hl _ _ _ _
        exact hl.tasks.trans htasks
      · intro _ tw' t' s₂ t₂ hrel
        obtain ⟨s₁, hl₁, hl₂⟩ := hrel.changes
        have htasks : s₂.tasks = s.tasks := hl₂.tasks.trans hl₁.tasks
        exact ⟨fun _ => htasks, fun _ _ => htasks⟩
  | upload => exact wp_uploadCollectingState (fun _ => trivial) rfl
  | stop env => exact wp_stop_manager hs (fun _ => trivial) fun s' hstop => hstop.frame.tasks

end

/-! ## The three parties

A step is one of a command, of the client or of the main loop.  Two texts follow
the document, that of the node and that in the client, and `Consistent` says how
far; every step keeps it.
-/

/-- Settings are an object of strings. -/
instance : OfFields Json := ⟨fun configs => .object (configs.map fun c => (c.1, .string c.2))⟩

/-- `json_encode` of what has been decoded and what it takes, and the parser of
the daemon; `none` where it fails. -/
structure JsonText where
  encode : Info Json → Str
  parse : Str → Option Json

namespace JsonText

/-- What `refreshTaskConfs` parses `m_log_config` to. -/
def read (j : JsonText) (logConfig : Str) : Option Json :=
  j.parse (if logConfig.length ≤ 2 then [123, 125] else logConfig)

/-- The daemon finds in the data of the node the object that log_config.php has. -/
def Shows (j : JsonText) (data : Str) (info : Info Json) : Prop :=
  ∀ items, info = .object items → j.read (cstr data) = some (.object items)

end JsonText

mutual

/-- What `getValue` tells apart. -/
def Value.toJson : Value → Json
  | .string s => .string s
  | .object members => .object (Value.membersToJson members)
  | .null => .null
  | .bool b => .bool b
  | .int n => .number n
  | .double _ | .array _ => .other

def Value.membersToJson : List (Str × Value) → List (Str × Json)
  | [] => []
  | (key, v) :: members => (key, v.toJson) :: Value.membersToJson members

end

/-- The parser is rapidjson's. -/
def rapidjson (encode : Info Json → Str) : JsonText where
  encode := encode
  parse text := (GenericReader.parse text).toOption.map Value.toJson

namespace Grammar

/-- A text of an object, with blanks around it. -/
def Writes (text : Str) (items : List (Str × Json)) : Prop :=
  ∃ members w t w', text = w ++ (t ++ w') ∧ Blanks w ∧ Text (.object members) t ∧ Blanks w' ∧
    Value.membersToJson members = items

theorem length_object {members : List (Str × Value)} {t : Str} (h : Text (.object members) t) :
    t = [123, 125] ∨ 2 < t.length := by
  cases h with
  | @emptyObject w hw =>
      cases w with
      | nil => exact Or.inl rfl
      | cons b w => exact Or.inr (by simp)
  | object hw h =>
      right
      cases h with
      | last | cons =>
          simp only [List.length_cons, List.length_append]
          omega

/-- The text of an object is read, also by the test for a minimal length. -/
theorem shows_of_writes (encode : Info Json → Str) {text : Str} {items : List (Str × Json)}
    (h : Writes text items) : (rapidjson encode).Shows text (.object items) := by
  obtain ⟨members, w, t, w', rfl, hw, ht, hw', rfl⟩ := h
  rintro _ ⟨⟩
  have hcstr : cstr (w ++ (t ++ w')) = w ++ (t ++ w') := by
    refine cstr_of_not_mem ?_
    simp [zero_not_mem_blanks hw, zero_not_mem_text ht, zero_not_mem_blanks hw']
  have hminimal : (if (w ++ (t ++ w')).length ≤ 2 then [123, 125] else w ++ (t ++ w')) =
      w ++ (t ++ w') := by
    split
    · next hshort =>
        rw [List.length_append, List.length_append] at hshort
        rcases length_object ht with rfl | hlong
        · simp only [List.length_cons, List.length_nil] at hshort
          obtain rfl := List.length_eq_zero_iff.mp (show w.length = 0 by omega)
          obtain rfl := List.length_eq_zero_iff.mp (show w'.length = 0 by omega)
          rfl
        · omega
    · rfl
  rw [JsonText.read, hcstr, hminimal]
  show ((GenericReader.parse (w ++ (t ++ w'))).toOption.map Value.toJson) = _
  rw [GenericReader.parse_of_text hcstr hw ht hw']
  simp [Except.toOption, Value.toJson]

end Grammar

/-- The document of a logkafka id with the commands on it, the zookeeper client
of the daemon, and its manager. -/
structure Deployment where
  node : ConfigNode Json
  client : ZkClient
  manager : Manager

namespace Deployment

inductive Event
  | command (a : AdminEvent)
  | client (e : ZkEvent)
  /-- `unset` is what a `bool` holds that nothing was stored in -/
  | refresh (unset : Str → String → Bool) (env : Env)
  | daemon (e : Manager.Event)

section

variable (cfg : Config) (queueMax : UInt64) (j : JsonText)
  (getBrokerIpAndPort : Str → Option (Str × Str))

/-- One step of a command, of the client or of the main loop.  The data is set
by the commands, and the manager reads it in a refresh, from `m_log_config`. -/
def step : Event → Deployment → Option Deployment
  | .command (.get command edit), d =>
      if 0 ∈ edit.logPath.1 then none -- an argument has no zero byte
      else (d.node.step (.get command edit)).map fun node => { d with node := node }
  | .command (.set command), d =>
      (d.node.step (.set command)).map fun node =>
        { d with
          node := node
          client := { d.client with config := d.client.config.change (j.encode node.info) } }
  | .client (.setConfig _), _ => none
  | .client e, d =>
      (d.client.step getBrokerIpAndPort e).map fun client => { d with client := client }
  | .refresh unset env, d =>
      if d.client.ready ∧ d.client.free .logConfig then
        (d.manager.step cfg (.refresh { env with
          document := readDocument queueMax unset (j.read d.client.logConfig) })).map
            fun manager => { d with manager := manager }
      else none
  | .daemon (.refresh _), _ => none
  | .daemon e, d => (d.manager.step cfg e).map fun manager => { d with manager := manager }

end

/-- When the daemon starts, and the node has `data`. -/
def init (info : Info Json) (data : Str) (brokers : OrdMap Str Str)
    (pf : OrdMap PositionEntryKey Slot) : Deployment where
  node := .init info
  client := .init data brokers
  manager := .init pf

/-- What a set writes, the daemon can read. -/
def Readable (j : JsonText) (d : Deployment) : Event → Prop
  | .command (.set command) => ∀ edit got, d.node.got command = some (edit, got) →
      j.Shows (j.encode (edit.apply got)) (edit.apply got)
  | _ => True

/-- What is written as a text of JSON, rapidjson can read. -/
theorem readable_rapidjson {encode : Info Json → Str} {d : Deployment} {command : ℕ}
    (hencode : ∀ edit got items, d.node.got command = some (edit, got) →
      edit.apply got = .object items → Grammar.Writes (encode (.object items)) items) :
    Readable (rapidjson encode) d (.command (.set command)) := by
  intro edit got hgot
  cases hinfo : edit.apply got with
  | null | scalar _ | array _ => exact fun _ h => by cases h
  | object items => exact Grammar.shows_of_writes encode (hencode edit got items hgot hinfo)

def UpToDate (d : Deployment) : Event → Prop
  | .command a => d.node.UpToDate a
  | _ => True

/-- The text in the node and in the client follows the document. -/
structure Consistent (j : JsonText) (d : Deployment) : Prop where
  shows : j.Shows d.client.config.data d.node.info
  keys : d.node.info.CleanKeys
  asked : ∀ command edit got, d.node.got command = some (edit, got) →
    0 ∉ edit.logPath.1 ∧ got.CleanKeys
  exclusive : d.client.Exclusive
  covered : d.client.configView.Covered
  wf : d.manager.Wf

variable {cfg : Config} {queueMax : UInt64} {j : JsonText}
  {getBrokerIpAndPort : Str → Option (Str × Str)} {d d' : Deployment} {info : Info Json}

/-- What a step is. -/
inductive Stepped (cfg : Config) (queueMax : UInt64) (j : JsonText)
    (getBrokerIpAndPort : Str → Option (Str × Str)) (d : Deployment) : Event → Deployment → Prop
  | get {command : ℕ} {edit : Edit} {node : ConfigNode Json} : 0 ∉ edit.logPath.1 →
      d.node.step (.get command edit) = some node →
      Stepped cfg queueMax j getBrokerIpAndPort d (.command (.get command edit))
        { d with node := node }
  | set {command : ℕ} {node : ConfigNode Json} : d.node.step (.set command) = some node →
      Stepped cfg queueMax j getBrokerIpAndPort d (.command (.set command)) { d with
        node := node
        client := { d.client with config := d.client.config.change (j.encode node.info) } }
  | client {e : ZkEvent} {client : ZkClient} : (∀ data, e ≠ .setConfig data) →
      d.client.step getBrokerIpAndPort e = some client →
      Stepped cfg queueMax j getBrokerIpAndPort d (.client e) { d with client := client }
  | refresh {unset : Str → String → Bool} {env : Env} {manager : Manager} :
      d.manager.step cfg (.refresh { env with
        document := readDocument queueMax unset (j.read d.client.logConfig) }) = some manager →
      Stepped cfg queueMax j getBrokerIpAndPort d (.refresh unset env)
        { d with manager := manager }
  | daemon {e : Manager.Event} {manager : Manager} : (∀ env, e ≠ .refresh env) →
      d.manager.step cfg e = some manager →
      Stepped cfg queueMax j getBrokerIpAndPort d (.daemon e) { d with manager := manager }

theorem step_cases {e : Event}
    (h : step cfg queueMax j getBrokerIpAndPort e d = some d') :
    Stepped cfg queueMax j getBrokerIpAndPort d e d' := by
  cases e with
  | command a =>
      cases a with
      | get command edit =>
          obtain ⟨hedit, h⟩ := Option.ite_none_left_eq_some.mp h
          obtain ⟨node, hnode, rfl⟩ := Option.map_eq_some_iff.mp h
          exact .get hedit hnode
      | set command =>
          obtain ⟨node, hnode, rfl⟩ := Option.map_eq_some_iff.mp h
          exact .set hnode
  | client e =>
      cases e with
      | setConfig data => cases h
      | addBroker | removeBroker | refresh | configChanged | brokersChanged | sessionEvent
      | advance =>
          obtain ⟨client, hclient, rfl⟩ := Option.map_eq_some_iff.mp h
          exact .client (fun _ heq => by cases heq) hclient
  | refresh unset env =>
      obtain ⟨-, h⟩ := Option.ite_none_right_eq_some.mp h
      obtain ⟨manager, hmanager, rfl⟩ := Option.map_eq_some_iff.mp h
      exact .refresh hmanager
  | daemon e =>
      cases e with
      | refresh env => cases h
      | notify | upload | stop =>
          obtain ⟨manager, hmanager, rfl⟩ := Option.map_eq_some_iff.mp h
          exact .daemon (fun _ heq => by cases heq) hmanager

theorem consistent_init {data : Str} (hkeys : info.CleanKeys) (hshows : j.Shows data info)
    (brokers : OrdMap Str Str) (pf : OrdMap PositionEntryKey Slot) :
    Consistent j (init info data brokers pf) where
  shows := hshows
  keys := hkeys
  asked _ _ _ h := by cases h
  exclusive := ZkClient.exclusive_init data brokers
  covered := ZkClient.config_covered_init data brokers
  wf := wf_init pf

/-- Only `setConfig` writes the data. -/
theorem data_of_step {e : ZkEvent} {s s' : ZkClient} (he : ∀ data, e ≠ .setConfig data)
    (h : ZkClient.step getBrokerIpAndPort e s = some s') : s'.config.data = s.config.data := by
  cases ZkClient.step_cases h with
  | setConfig => exact absurd rfl (he _)
  | addBroker | removeBroker | refresh | configChanged | brokersChanged | sessionEvent => rfl
  | advance hcall => cases ZkClient.advance_cases hcall <;> rfl

theorem Consistent.client {e : ZkEvent} {client : ZkClient} (h : Consistent j d)
    (he : ∀ data, e ≠ .setConfig data)
    (hstep : d.client.step getBrokerIpAndPort e = some client) :
    Consistent j { d with client := client } where
  shows := by
    show j.Shows client.config.data d.node.info
    rw [data_of_step he hstep]
    exact h.shows
  keys := h.keys
  asked := h.asked
  exclusive := ZkClient.exclusive_of_step h.exclusive hstep
  covered := h.covered.move (ZkClient.config_move h.exclusive hstep)
  wf := h.wf

theorem Consistent.manager {e : Manager.Event} {manager : Manager} (h : Consistent j d)
    (hstep : d.manager.step cfg e = some manager) :
    Consistent j { d with manager := manager } :=
  ⟨h.shows, h.keys, h.asked, h.exclusive, h.covered, wf_step e _ _ h.wf hstep⟩

theorem Consistent.get {command : ℕ} {edit : Edit} {node : ConfigNode Json}
    (h : Consistent j d) (hedit : 0 ∉ edit.logPath.1)
    (hstep : d.node.step (.get command edit) = some node) :
    Consistent j { d with node := node } := by
  simp only [ConfigNode.step] at hstep
  split at hstep
  · cases hstep
    refine ⟨h.shows, h.keys, fun command' edit' got hgot => ?_, h.exclusive, h.covered, h.wf⟩
    by_cases hcommand : command' = command
    · subst hcommand
      obtain ⟨rfl, rfl⟩ : edit = edit' ∧ d.node.info = got := by
        simpa using (Function.update_self ..).symm.trans hgot
      exact ⟨hedit, h.keys⟩
    · exact h.asked command' edit' got ((Function.update_of_ne hcommand ..).symm.trans hgot)
  · cases hstep

theorem Consistent.set {command : ℕ} {node : ConfigNode Json} (h : Consistent j d)
    (hread : Readable j d (.command (.set command)))
    (hstep : d.node.step (.set command) = some node) :
    Consistent j { d with
      node := node
      client := { d.client with config := d.client.config.change (j.encode node.info) } } := by
  simp only [ConfigNode.step] at hstep
  split at hstep
  · cases hstep
  · next edit got hgot =>
      cases hstep
      obtain ⟨hedit, hkeys⟩ := h.asked command edit got hgot
      have hset : d.client.step (fun _ => none) (.setConfig (j.encode (edit.apply got))) =
          some { d.client with config := d.client.config.change (j.encode (edit.apply got)) } := rfl
      refine ⟨hread edit got hgot, cleanKeys_apply hkeys hedit, fun command' edit' got' hgot' => ?_,
        ZkClient.exclusive_of_step h.exclusive hset,
        h.covered.move (ZkClient.config_move h.exclusive hset), h.wf⟩
      by_cases hcommand : command' = command
      · subst hcommand
        have hnone := (Function.update_self ..).symm.trans hgot'
        cases hnone
      · exact h.asked command' edit' got' ((Function.update_of_ne hcommand ..).symm.trans hgot')

theorem consistent_step {e : Event} (h : Consistent j d) (hread : Readable j d e)
    (hstep : step cfg queueMax j getBrokerIpAndPort e d = some d') : Consistent j d' := by
  cases step_cases hstep with
  | get hedit hnode => exact h.get hedit hnode
  | set hnode => exact h.set hread hnode
  | client he hclient => exact h.client he hclient
  | refresh hmanager | daemon _ hmanager => exact h.manager hmanager

/-! ## A refresh and what follows

In the quiet the client has the text of the node, so the refresh reads the
document, and what it makes of it stays until the next one.
-/

def Event.IsRefresh : Event → Prop
  | .refresh _ _ => True
  | _ => False

/-- Until a refresh the tasks stay what they are. -/
theorem tasks_of_run {es : List Event} (hwf : d.manager.Wf) (hes : ∀ e ∈ es, ¬ e.IsRefresh)
    (hrun : run (step cfg queueMax j getBrokerIpAndPort) es d = some d') :
    d'.manager.tasks = d.manager.tasks := by
  have hstep : ∀ e u u', (u.manager.Wf ∧ u.manager.tasks = d.manager.tasks) → ¬ Event.IsRefresh e →
      step cfg queueMax j getBrokerIpAndPort e u = some u' →
      u'.manager.Wf ∧ u'.manager.tasks = d.manager.tasks := by
    rintro e u u' ⟨hu, htasks⟩ he hstep
    cases step_cases hstep with
    | get | set | client => exact ⟨hu, htasks⟩
    | refresh => exact absurd trivial he
    | daemon hother hmanager =>
        exact ⟨wf_step _ _ _ hu hmanager, (tasks_of_step hu hother hmanager).trans htasks⟩
  exact (run_inv_along hstep es d d' ⟨hwf, rfl⟩ (along_of_forall hes) hrun).2

/-- A refresh in the quiet reads the document that is in zookeeper. -/
theorem Consistent.refresh {unset : Str → String → Bool} {env : Env} {items : List (Str × Json)}
    (h : Consistent j d) (hitems : d.node.info = .object items)
    (hpending : d.client.config.pending = 0) (hquiet : d.client.Quiet)
    (hstep : step cfg queueMax j getBrokerIpAndPort (.refresh unset env) d = some d') (P : Str) :
    confAt d'.manager.tasks P = confIn queueMax unset items P := by
  have hlog : d.client.logConfig = cstr d.client.config.data := by
    refine h.covered.current hpending fun th => ?_
    show ZkClient.configStage _ _ = _
    rw [hquiet th]
    rfl
  cases step_cases hstep with
  | refresh hmanager =>
      rw [hlog, h.shows items hitems] at hmanager
      have hconf := of_step (R := fun u => ∀ P, confAt u.tasks P = _) hmanager fun _ => by
        unfold Manager.exec
        rw [Prog.wp_bind]
        exact confAt_refreshWatchers h.wf rfl
      exact (hconf P).trans (find?_newConfs (h.keys items hitems) rfl P)

theorem inOrder_of_run {es : List Event} (hup : Along (step cfg queueMax j getBrokerIpAndPort)
      UpToDate es d) (h : d.node.InOrder info)
    (hrun : run (step cfg queueMax j getBrokerIpAndPort) es d = some d') :
    d'.node.InOrder info := by
  refine run_inv_along (I := fun u => u.node.InOrder info) ?_ es d d' h hup hrun
  intro e u u' hu hup hstep
  cases step_cases hstep with
  | get _ hnode => exact ConfigNode.inOrder_get hu hnode
  | @set command _ hnode =>
      cases hgot : u.node.got command with
      | none =>
          simp only [ConfigNode.step, hgot] at hnode
          cases hnode
      | some e => exact (ConfigNode.inOrder_set_iff hu hgot hnode).mpr (hup e.1 e.2 hgot)
  | client | refresh | daemon => exact hu

/-- **What is asked is what is collected.**  Commands, client and daemon take
their steps in any order; every set writes what the daemon can read.  A refresh
that comes when no notification is pending and no handler is in progress makes
the tasks those of the document in zookeeper, up to the next refresh.  And if
every set was up to date, a path has the settings that the last command on it
asked for, where this and what was brought later is UTF-8. -/
theorem tasks_follow (cfg : Config) (queueMax : UInt64) (j : JsonText)
    (getBrokerIpAndPort : Str → Option (Str × Str)) (info : Info Json) (data : Str)
    (brokers : OrdMap Str Str) (pf : OrdMap PositionEntryKey Slot) (as bs : List Event)
    (unset : Str → String → Bool) (env : Env) (d d' d'' : Deployment) (items : List (Str × Json))
    (hkeys : info.CleanKeys) (hshows : j.Shows data info)
    (hreadable : Along (step cfg queueMax j getBrokerIpAndPort) (Readable j) as
      (init info data brokers pf))
    (hrun : run (step cfg queueMax j getBrokerIpAndPort) as (init info data brokers pf) = some d)
    (hitems : d.node.info = .object items) (hpending : d.client.config.pending = 0)
    (hquiet : d.client.Quiet)
    (hrefresh : step cfg queueMax j getBrokerIpAndPort (.refresh unset env) d = some d')
    (hlater : run (step cfg queueMax j getBrokerIpAndPort) bs d' = some d'')
    (hnone : ∀ e ∈ bs, ¬ e.IsRefresh) :
    (∀ P, confAt d''.manager.tasks P = confIn queueMax unset items P) ∧
      (Along (step cfg queueMax j getBrokerIpAndPort) UpToDate as (init info data brokers pf) →
        ∀ earlier edit later, d.node.succeeded = earlier ++ edit :: later →
          (∀ e ∈ edit :: later, e.isUtf8 = true) → (∀ e ∈ later, e.logPath ≠ edit.logPath) →
          confAt d''.manager.tasks edit.logPath.1 = edit.item.bind fun logItem =>
            (readItem queueMax (unset edit.logPath.1) edit.logPath.1 logItem).filter
              TaskConf.isLegal) := by
  have hd : Consistent j d :=
    run_inv_along (fun _ _ _ h hread hstep => consistent_step h hread hstep) as _ d
      (consistent_init hkeys hshows brokers pf) hreadable hrun
  have hread : Readable j d (.refresh unset env) := trivial
  have hd' : d'.manager.Wf := (consistent_step hd hread hrefresh).wf
  have htasks : ∀ P, confAt d''.manager.tasks P = confIn queueMax unset items P := by
    intro P
    rw [tasks_of_run hd' hnone hlater]
    exact hd.refresh hitems hpending hquiet hrefresh P
  refine ⟨htasks, fun hup earlier edit later hedits hutf8 hlast => ?_⟩
  have horder : d.node.info = oneByOne d.node.succeeded info := inOrder_of_run hup rfl hrun
  rw [htasks, confIn, show getItem edit.logPath.1 items = d.node.info.get edit.logPath.1 by
    rw [hitems]; rfl, horder, hedits, get_oneByOne_last hutf8 hlast]
  rw [← hedits, ← horder, hitems]
  trivial

instance (j : JsonText) (data : Str) : (info : Info Json) → Decidable (j.Shows data info)
  | .object items =>
      decidable_of_iff (j.read (cstr data) = some (.object items)) (by simp [JsonText.Shows])
  | .null | .scalar _ | .array _ => isTrue (by simp [JsonText.Shows])

instance (j : JsonText) (d : Deployment) : (e : Event) → Decidable (Readable j d e)
  | .command (.set command) =>
      match h : d.node.got command with
      | none => isTrue (by simp [Readable, h])
      | some (edit, got) =>
          decidable_of_iff (j.Shows (j.encode (edit.apply got)) (edit.apply got))
            (by simp [Readable, h])
  | .command (.get _ _) | .client _ | .refresh _ _ | .daemon _ => isTrue trivial

instance (d : Deployment) : (e : Event) → Decidable (UpToDate d e)
  | .command a => inferInstanceAs (Decidable (d.node.UpToDate a))
  | .client _ | .refresh _ _ | .daemon _ => isTrue trivial

/-- The topic "t" for "/a". -/
def oneItem : List (Str × Json) := [([47, 97], .object [(ascii "topic", .string [116])])]

def oneText : Str := ascii "\x7b\"\\/a\":\x7b\"topic\":\"t\"\x7d\x7d"

/-- `oneItem` and the empty object as text. -/
def twoTexts : JsonText where
  encode info := if info = .object oneItem then oneText else [123, 125]
  parse text :=
    if text = oneText then some (.object oneItem)
    else if text = [123, 125] then some (.object [])
    else none

theorem head_onePath : ([47, 97] : Str).head? = some 47 := rfl

/-- The node has "{}" until "/a" is created, and the client takes the notice. -/
def created : List Event :=
  List.replicate 9 (.client (.advance .timer [])) ++
    [.command (.get 0 (.create ⟨[47, 97], head_onePath⟩ [(ascii "topic", [116])])),
      .command (.set 0), .client .configChanged] ++
    List.replicate 7 (.client (.advance .completion []))

def next : Event → Deployment → Option Deployment :=
  step Manager.sizes 100000 twoTexts fun _ => none

def noItems : Deployment := init (.object []) [123, 125] OrdMap.empty OrdMap.empty

/-- The refresh finds the topic, and it is there after an upload. -/
theorem tasks_follow_created : ∃ d d' d'', run next created noItems = some d ∧
    next (.refresh (fun _ _ => true) (Manager.idle .parseError)) d = some d' ∧
    run next [.daemon .upload] d' = some d'' ∧
    (confAt d''.manager.tasks [47, 97]).map (·.kafkaTopicConf.topic) = some [116] := by
  have hall : ((run next created noItems).bind fun d =>
      (next (.refresh (fun _ _ => true) (Manager.idle .parseError)) d).bind fun d' =>
        (run next [.daemon .upload] d').map fun _ => ((d.node.info, d.client.config.pending),
          d.client.threads .timer, d.client.threads .completion)) =
      some ((.object oneItem, 0), idling, idling) := by
    decide +kernel
  obtain ⟨d, hrun, hall⟩ := Option.bind_eq_some_iff.mp hall
  obtain ⟨d', hrefresh, hall⟩ := Option.bind_eq_some_iff.mp hall
  obtain ⟨d'', hlater, hstate⟩ := Option.map_eq_some_iff.mp hall
  obtain ⟨hnode, hthreads⟩ := Prod.mk.inj hstate
  obtain ⟨hitems, hpending⟩ := Prod.mk.inj hnode
  obtain ⟨htimer, hcompletion⟩ := Prod.mk.inj hthreads
  have hquiet := ZkClient.quiet_of_threads htimer hcompletion
  have hkeys : (Info.object ([] : List (Str × Json))).CleanKeys := by
    rintro _ ⟨⟩
    exact ⟨List.nodup_nil, fun _ h => by cases h⟩
  have hfollow := tasks_follow Manager.sizes 100000 twoTexts (fun _ => none) (.object [])
    [123, 125] OrdMap.empty OrdMap.empty created [.daemon .upload] (fun _ _ => true)
    (Manager.idle .parseError) d d' d'' oneItem hkeys (by decide +kernel) (by decide +kernel)
    hrun hitems hpending hquiet hrefresh hlater (by simp [Event.IsRefresh])
  refine ⟨d, d', d'', hrun, hrefresh, hlater, ?_⟩
  rw [hfollow.1]
  decide +kernel

end Deployment

end Logkafka
