/-
# `Logkafka.Manager.State` — the collecting state, and the alarms made of it

`getCollectingState` writes what every registered watcher does as an object of
strings, under its path pattern; it is what `uploadCollectingState` sets, and
what the monitor of log_config.php reads back.

    collecting r s      the document of a state `s`
    lag r tw t          the bytes the monitor takes a watcher to lag by

The numbers are printed by `int2Str` and read by `strtol`, and come back as they
were (`strtol10_int2Str`).  So the alarms say what the daemon does, as far as
the files say it: a watcher without a reader lags by one byte, and one whose
file was closed by none (`alarm_iff`).

The text between the two is that of rapidjson's `Writer`, which `json_decode`
takes apart again; here it is the document.
-/
import Logkafka.Manager.Rotate
import Logkafka.Monitor

namespace Logkafka

open Prog Manager

variable {cfg : Config} {P : Str} {tw : WatcherId} {t : TailWatcher} {s : Manager}

/-- What the system and the rotate handlers answer while the state is written. -/
structure Readings where
  /-- `getFsize(m_file)` -/
  fsize : WatcherId → OffT
  /-- `tv_sec` of `getLastRotateTime` -/
  lastRotateTime : WatcherId → Int64

namespace Reader

/-- `getFileInode()` -/
def getFileInode (r : Reader) : OffT := (if r.handler.fileOpen then r.inode else inoNone).toInt64

/-- `getFilePos()` -/
def getFilePos (r : Reader) : OffT := Int64.ofNat r.handler.getFilePos

/-- `getFileSize()` -/
def getFileSize (fsize : OffT) (r : Reader) : OffT := if r.handler.fileOpen then fsize else 0

end Reader

/-- `TailWatcher::Serialize` -/
def TailWatcher.serialize (r : Readings) (tw : WatcherId) : M Fields := do
  let t ← getWatcher tw
  let (inode, filepos, filesize) ← scopedLock (.ioHandler tw) do
    match t.reader with
    | some reader => do
        let inode ← scopedLock (.file tw) (pure reader.getFileInode)
        let filepos ← scopedLock (.file tw) (pure reader.getFilePos)
        let filesize ← scopedLock (.file tw) (pure (reader.getFileSize (r.fsize tw)))
        pure (inode, filepos, filesize)
    | none => pure (inoNone.toInt64, -1, 0)
  let lastRotateTimeSec ← scopedLock (.rotateHandler tw) (pure (r.lastRotateTime tw))
  pure
    [(ascii "realpath", t.path),
      (ascii "inode", int2Str inode.toInt),
      (ascii "filepos", int2Str filepos.toInt),
      (ascii "filesize", int2Str filesize.toInt),
      (ascii "last_rotate_time_sec", int2Str lastRotateTimeSec.toInt)]

namespace Manager

/-- The loop over `m_tails`. -/
def serializeTails (r : Readings) : List (Str × Option WatcherId) → M Items
  | [] => pure []
  | (pathPattern, some tw) :: es => do
      if pathPattern ≠ [] then
        let fields ← TailWatcher.serialize r tw
        let items ← serializeTails r es
        pure ((pathPattern, fields) :: items)
      else serializeTails r es
  | (_, none) :: es => serializeTails r es

def getCollectingState (r : Readings) : M Items :=
  scopedLock .tailWatchers (do serializeTails r (← get).tails.entries)

end Manager

/-! ## What is written -/

/-- The numbers of a watcher's handlers. -/
def TailWatcher.numbers (r : Readings) (tw : WatcherId) (t : TailWatcher) : OffT × OffT × OffT :=
  match t.reader with
  | some reader => (reader.getFileInode, reader.getFilePos, reader.getFileSize (r.fsize tw))
  | none => (inoNone.toInt64, -1, 0)

/-- The object of a watcher. -/
def TailWatcher.fields (r : Readings) (tw : WatcherId) (t : TailWatcher) : Fields :=
  [(ascii "realpath", t.path),
    (ascii "inode", int2Str (t.numbers r tw).1.toInt),
    (ascii "filepos", int2Str (t.numbers r tw).2.1.toInt),
    (ascii "filesize", int2Str (t.numbers r tw).2.2.toInt),
    (ascii "last_rotate_time_sec", int2Str (r.lastRotateTime tw).toInt)]

namespace Manager

/-- The registered watcher of a pattern. -/
def watcherOf (s : Manager) (P : Str) : Option (WatcherId × TailWatcher) :=
  if P = [] then none
  else (s.tails.find? P).join.bind fun tw => (s.watchers tw).map fun t => (tw, t)

/-- The item of an entry of `m_tails`. -/
def item (r : Readings) (s : Manager) : Str × Option WatcherId → Option (Str × Fields)
  | (pathPattern, some tw) =>
      if pathPattern ≠ [] then
        (s.watchers tw).map fun t => (pathPattern, t.fields r tw)
      else none
  | (_, none) => none

/-- The document of a state. -/
def collecting (r : Readings) (s : Manager) : Items := s.tails.entries.filterMap (item r s)

end Manager

section

variable {r : Readings} {E : Fault Mutex Crash → Prop} {L : List Mutex}

theorem wp_serialize_fields {Q : Fields → Manager → Prop} (hw : s.watchers tw = some t)
    (hio : .ioHandler tw ∉ L) (hrotate : .rotateHandler tw ∉ L) (hfile : .file tw ∉ L)
    (h : Q (t.fields r tw) s) : wp (TailWatcher.serialize r tw) Q E L s := by
  have hfile' : Mutex.file tw ∉ Mutex.ioHandler tw :: L := by simpa using hfile
  unfold TailWatcher.fields TailWatcher.numbers at h
  unfold TailWatcher.serialize
  rw [wp_bind, wp_getWatcher hw, wp_bind, wp_scopedLock hio]
  cases hreader : t.reader with
  | some reader =>
      rw [hreader] at h
      simp only [wp_bind, wp_scopedLock hfile', wp_scopedLock hrotate, wp_pure]
      exact h
  | none =>
      rw [hreader] at h
      simp only [wp_bind, wp_scopedLock hrotate, wp_pure]
      exact h

/-- The loop, over entries whose watchers are alive. -/
theorem wp_serializeTails {Q : Items → Manager → Prop} {es : List (Str × Option WatcherId)}
    (hlive : ∀ e ∈ es, ∀ tw, e.2 = some tw → ∃ t, s.watchers tw = some t)
    (h : Q (es.filterMap (item r s)) s) :
    wp (serializeTails r es) Q E [.tailWatchers] s := by
  induction es generalizing Q with
  | nil => exact h
  | cons e es ih =>
      obtain ⟨hhead, hrest⟩ := List.forall_mem_cons.mp hlive
      obtain ⟨pathPattern, _ | tw⟩ := e
      · exact ih hrest h
      · obtain ⟨t, hw⟩ := hhead tw rfl
        unfold serializeTails
        rw [wp_ite]
        by_cases hP : pathPattern = []
        · rw [if_neg (not_not_intro hP)]
          refine ih hrest ?_
          have hitem : item r s (pathPattern, some tw) = none := if_neg (not_not_intro hP)
          rwa [List.filterMap_cons_none hitem] at h
        · rw [if_pos hP, wp_bind]
          refine wp_serialize_fields hw (by simp) (by simp) (by simp) ?_
          rw [wp_bind]
          refine ih hrest ?_
          have hitem : item r s (pathPattern, some tw) = some (pathPattern, t.fields r tw) := by
            simp [item, hP, hw]
          rwa [List.filterMap_cons_some hitem] at h

end

/-- Where the registered watchers are alive, the document is written. -/
theorem getCollectingState_eq (hs : Sound s) (r : Readings) :
    getCollectingState r [] s = .ok (collecting r s, s) := by
  have hlive : ∀ e ∈ s.tails.entries, ∀ tw, e.2 = some tw → ∃ t, s.watchers tw = some t := by
    rintro ⟨P, v⟩ he tw rfl
    obtain ⟨t, hw, -⟩ := hs.live P tw (OrdMap.mem_entries.mp he)
    exact ⟨t, hw⟩
  have hwp : wp (getCollectingState r) (fun items s' => items = collecting r s ∧ s' = s)
      (fun _ => False) [] s := by
    unfold getCollectingState
    rw [wp_scopedLock List.not_mem_nil, wp_bind, wp_get]
    exact wp_serializeTails hlive ⟨rfl, rfl⟩
  cases hx : getCollectingState r [] s with
  | error e => exact (hwp.error hx).elim
  | ok p =>
      obtain ⟨items, s'⟩ := p
      obtain ⟨rfl, rfl⟩ := hwp.ok hx
      rfl

/-! ## The upload

The upload does the same and gives the document away, so it is the document up to
the last lock.
-/

theorem alike_serialize (r : Readings) (tw : WatcherId) :
    Alike (TailWatcher.serialize r tw) (Manager.serialize tw) := by
  have hread {α : Type} (a : α) (m : Mutex) :
      Alike (scopedLock m (pure a) : M α) (scopedLock m (pure ())) := (Alike.pure a ()).scopedLock
  unfold TailWatcher.serialize Manager.serialize
  refine Alike.after fun t => (Alike.scopedLock ?_).bind fun _ _ => (hread _ _).made _
  cases t.reader with
  | none => exact Alike.pure _ _
  | some reader =>
      exact (hread _ _).bind fun _ _ => (hread _ _).bind fun _ _ => (hread _ _).made _

theorem alike_serializeTails (r : Readings) : ∀ es, Alike (serializeTails r es) (serializeAll es)
  | [] => Alike.pure _ _
  | (_, none) :: es => by
      unfold serializeTails serializeAll
      exact alike_serializeTails r es
  | (pathPattern, some tw) :: es => by
      unfold serializeTails serializeAll
      split
      · exact (alike_serialize r tw).bind fun _ _ => (alike_serializeTails r es).made _
      · exact alike_serializeTails r es

/-- The upload is the document, and the lock of `setLogState`. -/
theorem uploadCollectingState_eq (r : Readings) :
    uploadCollectingState = (getCollectingState r >>= fun _ => scopedLock .zhandle (pure ())) := by
  have hdocument : Alike (getCollectingState r)
      (scopedLock .tailWatchers (do serializeAll (← get).tails.entries)) := by
    unfold getCollectingState
    refine Alike.scopedLock (Alike.after fun s => ?_)
    exact alike_serializeTails r s.tails.entries
  exact (hdocument.bind fun _ _ => Alike.refl _).eq.symm

/-! ## The alarms

The document as the monitor reads it, number by number, and the alarm that comes
of it.
-/

/-- The bytes the monitor takes a watcher to lag by. -/
def lag (r : Readings) (tw : WatcherId) (t : TailWatcher) : ℤ :=
  match t.reader with
  | none => 1
  | some reader =>
      if reader.handler.fileOpen then (r.fsize tw).toInt - reader.getFilePos.toInt else 0

theorem int_of_getItem {fields : Fields} {name : String} {n : Int64}
    (h : getItem (ascii name) fields = some (int2Str n.toInt)) :
    MonitorDefault.int fields name = n.toInt := by
  unfold MonitorDefault.int
  rw [h]
  show (strtol10 (int2Str n.toInt)).toInt = n.toInt
  rw [strtol10_int2Str]

/-- The numbers of a watcher, as the monitor reads them. -/
theorem int_fields (r : Readings) (tw : WatcherId) (t : TailWatcher) :
    MonitorDefault.int (t.fields r tw) "filepos" = (t.numbers r tw).2.1.toInt ∧
      MonitorDefault.int (t.fields r tw) "filesize" = (t.numbers r tw).2.2.toInt ∧
      MonitorDefault.int (t.fields r tw) "last_rotate_time_sec" =
        (r.lastRotateTime tw).toInt := by
  have hnames : [ascii "realpath", ascii "inode", ascii "filepos", ascii "filesize",
      ascii "last_rotate_time_sec"].Nodup := by decide +kernel
  have hmem : ∀ {key text : Str}, (key, text) ∈ t.fields r tw →
      getItem key (t.fields r tw) = some text := fun h => getItem_of_mem hnames h
  exact ⟨int_of_getItem (hmem (by simp [TailWatcher.fields])),
    int_of_getItem (hmem (by simp [TailWatcher.fields])),
    int_of_getItem (hmem (by simp [TailWatcher.fields]))⟩

theorem numbers_lag (r : Readings) (tw : WatcherId) (t : TailWatcher) :
    (t.numbers r tw).2.2.toInt - (t.numbers r tw).2.1.toInt = lag r tw t := by
  unfold TailWatcher.numbers lag
  cases t.reader with
  | none => rfl
  | some reader =>
      by_cases hopen : reader.handler.fileOpen = true
      · simp only [Reader.getFileSize, if_pos hopen]
      · have hpos : reader.handler.getFilePos = 0 := if_neg hopen
        simp only [Reader.getFileSize, Reader.getFilePos, if_neg hopen, hpos]
        rfl

theorem item_eq_some_iff {r : Readings} {e : Str × Option WatcherId} {o : Str × Fields} :
    item r s e = some o ↔ e.1 = o.1 ∧ e.1 ≠ [] ∧
      ∃ tw t, e.2 = some tw ∧ s.watchers tw = some t ∧ o.2 = t.fields r tw := by
  obtain ⟨P, _ | tw⟩ := e
  · simp [item]
  · obtain ⟨Q, fields⟩ := o
    simp only [item, Option.ite_none_right_eq_some, Option.map_eq_some_iff, Prod.mk.injEq]
    constructor
    · rintro ⟨hP, t, hw, rfl, rfl⟩
      exact ⟨rfl, hP, tw, t, rfl, hw, rfl⟩
    · rintro ⟨rfl, hP, v, t, hv, hw, rfl⟩
      cases hv
      exact ⟨hP, t, hw, rfl, rfl⟩

/-- The keys of the document are those of the entries it is made of. -/
theorem sublist_filterMap_item (r : Readings) (s : Manager)
    (es : List (Str × Option WatcherId)) :
    ((es.filterMap (item r s)).map Prod.fst).Sublist (es.map Prod.fst) := by
  induction es with
  | nil => exact List.Sublist.slnil
  | cons e es ih =>
      cases hitem : item r s e with
      | none =>
          rw [List.filterMap_cons_none hitem]
          exact ih.cons _
      | some o =>
          rw [List.filterMap_cons_some hitem, List.map_cons, List.map_cons,
            (item_eq_some_iff.mp hitem).1]
          exact ih.cons_cons _

theorem watcherOf_eq_some_iff :
    s.watcherOf P = some (tw, t) ↔
      P ≠ [] ∧ s.tails.find? P = some (some tw) ∧ s.watchers tw = some t := by
  unfold watcherOf
  split
  · next h => simp [h]
  · next h =>
      simp only [Option.bind_eq_some_iff, Option.map_eq_some_iff, Prod.mk.injEq,
        Option.join_eq_some_iff]
      constructor
      · rintro ⟨_, htail, _, hw, rfl, rfl⟩
        exact ⟨h, htail, hw⟩
      · rintro ⟨-, htail, hw⟩
        exact ⟨tw, htail, t, hw, rfl, rfl⟩

/-- What the document says of a path. -/
theorem getItem_collecting (r : Readings) (s : Manager) (P : Str) :
    getItem P (collecting r s) = (s.watcherOf P).map fun w => w.2.fields r w.1 := by
  have hnd : ((collecting r s).map Prod.fst).Nodup :=
    (sublist_filterMap_item r s s.tails.entries).nodup s.tails.keys.nodup
  have hmem : ∀ fields, (P, fields) ∈ collecting r s ↔
      ∃ tw t, s.watcherOf P = some (tw, t) ∧ t.fields r tw = fields := by
    intro fields
    unfold collecting
    simp only [List.mem_filterMap, item_eq_some_iff, watcherOf_eq_some_iff]
    constructor
    · rintro ⟨⟨Q, v⟩, he, rfl, hP, tw, t, rfl, hw, rfl⟩
      exact ⟨tw, t, ⟨hP, OrdMap.mem_entries.mp he, hw⟩, rfl⟩
    · rintro ⟨tw, t, ⟨hP, htail, hw⟩, rfl⟩
      exact ⟨(P, some tw), OrdMap.mem_entries.mpr htail, rfl, hP, tw, t, rfl, hw, rfl⟩
  refine Option.ext fun fields => ?_
  rw [Option.map_eq_some_iff]
  constructor
  · intro h
    obtain ⟨tw, t, hw, hfields⟩ := (hmem fields).mp (mem_of_getItem h)
    exact ⟨(tw, t), hw, hfields⟩
  · rintro ⟨⟨tw, t⟩, hw, hfields⟩
    exact getItem_of_mem hnd ((hmem fields).mpr ⟨tw, t, hw, hfields⟩)

/-- What there is to alarm about a path and its settings. -/
def due (r : Readings) (s : Manager) (now : ℤ) (e : Str × Fields) : Option Alarm :=
  if e.2 = [] then none
  else match s.watcherOf e.1 with
    | none => some .notCollecting
    | some (tw, t) =>
        let laggingSec := now - (r.lastRotateTime tw).toInt
        if MonitorDefault.Exceeds e.2 "lagging_max_bytes" (lag r tw t) then
          some (.lagging (lag r tw t))
        else if MonitorDefault.Exceeds e.2 "rotate_lagging_max_sec" laggingSec then
          some (.rotateLagging laggingSec)
        else none

/-- The monitor comes to what there is to alarm. -/
theorem alarm_eq_due (r : Readings) (s : Manager) (now : ℤ) (e : Str × Fields) :
    MonitorDefault.alarm now ⟨some e.2, (Info.object (collecting r s)).get e.1⟩ =
      due r s now e := by
  rw [show (Info.object (collecting r s)).get e.1 = _ from getItem_collecting r s e.1]
  unfold MonitorDefault.alarm due
  cases s.watcherOf e.1 with
  | none => rfl
  | some w =>
      obtain ⟨tw, t⟩ := w
      obtain ⟨hpos, hsize, htime⟩ := int_fields r tw t
      have hne : t.fields r tw ≠ [] := List.cons_ne_nil _ _
      simp only [Option.map_some, hpos, hsize, htime, numbers_lag, if_neg hne]

/-- The logkafka of one host, in a state that it reaches. -/
structure Daemon where
  cfg : Config
  pf : OrdMap PositionEntryKey Slot
  events : List Event
  state : Manager
  reaches : run (step cfg) events (Manager.init pf) = some state
  keyed : Along (step cfg) (Keyed cfg) events (Manager.init pf)

/-- What it uploads, if it does not crash. -/
def Daemon.uploads (d : Daemon) (r : Readings) : Option Items :=
  match getCollectingState r [] d.state with
  | .ok (items, _) => some items
  | .error _ => none

theorem Daemon.uploads_eq (d : Daemon) (r : Readings) :
    d.uploads r = some (collecting r d.state) := by
  unfold uploads
  rw [getCollectingState_eq (sound_run d.keyed d.reaches)]

/-- Every daemon writes its document; and where each host is reported with its own
settings, the monitor raises what there is to alarm about them, in their order. -/
theorem alarms_due (zookeeperConnect : Str) (zk : Znodes) (daemons : Str → Daemon)
    (r : Str → Readings) (time : Str → Str → ℤ)
    (hclient : ∀ host ∈ zk.hosts,
      zk.client host = ((daemons host).uploads (r host)).map Info.object)
    (hread : zk.hosts.IsChain fun host next =>
      zk.config next = none → (AdminUtils.ownConfs zk host).items = []) :
    (∀ host, (daemons host).uploads (r host) =
      some (collecting (r host) (daemons host).state)) ∧
    AdminUtils.monitorConfig zookeeperConnect zk none none time =
      zk.hosts.flatMap fun host => (AdminUtils.ownConfs zk host).items.filterMap fun e =>
        (due (r host) (daemons host).state (time host e.1) e).map
          (MonitorDefault.message zookeeperConnect host e.1) := by
  have huploads := fun host => (daemons host).uploads_eq (r host)
  refine ⟨huploads, ?_⟩
  have hown := (@AdminUtils.getInfo_own_iff zk none).mpr
    (hread.imp fun host next h hnone => Or.inr ⟨rfl, h hnone⟩)
  unfold AdminUtils.monitorConfig
  rw [hown, List.flatMap_map]
  refine List.flatMap_congr fun host hhost => ?_
  have hstats : AdminUtils.getLogCollectionState zk host =
      .object (collecting (r host) (daemons host).state) := by
    unfold AdminUtils.getLogCollectionState
    rw [hclient host hhost, huploads host]
    rfl
  have hnodup : ((AdminUtils.ownConfs zk host).items.map Prod.fst).Nodup := by
    unfold AdminUtils.ownConfs
    cases hconf : zk.config host with
    | none => exact List.nodup_nil
    | some confs => exact zk.config_nodup host confs hconf
  show (AdminUtils.ownInfo zk none host).filterMap _ = _
  rw [AdminUtils.ownInfo, hstats, AdminUtils.hostInfo_eq_map hnodup, List.filterMap_map]
  refine List.filterMap_congr fun e _ => ?_
  show (MonitorDefault.alarm _ _).map _ = _
  rw [alarm_eq_due]

/-- The daemon of `handedOnce`: the watcher of "b" gave way to another one. -/
def handedDaemon : Daemon where
  cfg := sizes
  pf := OrdMap.empty
  events := handedOnce
  state := (run (step sizes) handedOnce (Manager.init OrdMap.empty)).get (by decide +kernel)
  reaches := (Option.some_get _).symm
  keyed := by decide +kernel

/-- The files are of ten bytes now. -/
def tenBytes : Readings := ⟨fun _ => 10, fun _ => 0⟩

/-- "b" may lag by five bytes, "c" by fifty; "d" was configured since. -/
def threeItems : Items :=
  [([98], [(ascii "lagging_max_bytes", [53])]), ([99], [(ascii "lagging_max_bytes", [53, 48])]),
    ([100], [(ascii "topic", [116])])]

theorem threeItems_nodup : (threeItems.map Prod.fst).Nodup := by decide

/-- The document of "e" is empty, that of "f" cannot be read. -/
def threeHosts : Znodes where
  hosts := [[101], [102], [103]]
  config host :=
    if host = [102] then none else some (.object (if host = [101] then [] else threeItems))
  client _ := (handedDaemon.uploads tenBytes).map Info.object
  hosts_nodup := by decide
  hosts_ne := by simp
  config_nodup host confs h := by
    obtain ⟨-, h⟩ := Option.ite_none_left_eq_some.mp h
    cases h
    show ((if host = [101] then [] else threeItems).map Prod.fst).Nodup
    split
    · exact List.nodup_nil
    · exact threeItems_nodup

/-- Of "g" the new watcher of "b" lags, that of "c" may, and "d" is not watched. -/
theorem alarms_due_two :
    AdminUtils.monitorConfig (ascii "zk") threeHosts none none (fun _ _ => 0) =
      [MonitorDefault.message (ascii "zk") [103] [98] (.lagging 10),
        MonitorDefault.message (ascii "zk") [103] [100] .notCollecting] := by
  have hclient : ∀ host, threeHosts.client host =
      (handedDaemon.uploads tenBytes).map Info.object := fun host => by
    rw [threeHosts]
  have hread : threeHosts.hosts.IsChain fun host next =>
      threeHosts.config next = none → (AdminUtils.ownConfs threeHosts host).items = [] := by
    decide +kernel
  have hdue : (threeHosts.hosts.flatMap fun host =>
      (AdminUtils.ownConfs threeHosts host).items.filterMap fun e =>
        (due tenBytes handedDaemon.state 0 e).map
          (MonitorDefault.message (ascii "zk") host e.1)) =
      [MonitorDefault.message (ascii "zk") [103] [98] (.lagging 10),
        MonitorDefault.message (ascii "zk") [103] [100] .notCollecting] := by
    decide +kernel
  rw [← hdue]
  exact (alarms_due (ascii "zk") threeHosts (fun _ => handedDaemon) (fun _ => tenBytes)
    (fun _ _ => 0) (fun host _ => hclient host) hread).2

end Logkafka
