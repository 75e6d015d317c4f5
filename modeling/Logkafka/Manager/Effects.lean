/-
# `Logkafka.Manager.Effects` — what the main loop does to its state

The programs of the main loop change the watchers, the producers and the
position store by a few calls on one object each.  `Effect` is such a call:

    watcher, made, gone          an object of a watcher is changed, new, deleted
    producer                     `initProducer` makes one
    entry, written, removed      `operator[]`, `update`, `remove` of the position file
    beside                       what is changed is none of these

and `acts_exec` says that an event is a list of them, with what the program has
made sure of by then: a new watcher has a producer for its codec, and an entry
that is written is alive.  What every effect keeps, every event keeps
(`Effects.inv`).
-/
import Logkafka.Manager.Spec
import Mathlib.Logic.Relation

namespace Logkafka

open Manager PositionFile Prog

variable {cfg : Config} {env : Env} {L : List Mutex} {α β : Type}
  {P : Str} {tw : WatcherId} {t t' : TailWatcher} {s s' s'' : Manager}

/-- The map, what the places hold, the lines of removed entries, and the number
of the next line. -/
structure Store where
  peMap : OrdMap PositionEntryKey EntryId
  slots : EntryId → Option Slot
  removed : List (EntryId × Slot)
  nextSerial : ℕ

def Manager.store (s : Manager) : Store := ⟨s.peMap, s.slots, s.removed, s.nextSerial⟩

/-- `m_conf.kafka_topic_conf.compression_codec` -/
def TailWatcher.codec (t : TailWatcher) : Str := t.conf.kafkaTopicConf.compressionCodec

/-- The codec is known, and has a producer. -/
def Manager.HasProducer (s : Manager) (codec : Str) : Prop := codec ∈ ccMap ∧ codec ∈ s.producers

/-- One change of the state. -/
inductive Effect : Manager → Manager → Prop
  | beside {s s' : Manager} : s'.store = s.store → s'.watchers = s.watchers →
      s'.producers = s.producers → Effect s s'
  | watcher {s : Manager} {tw : WatcherId} {t t' : TailWatcher} : s.watchers tw = some t →
      t'.codec = t.codec → Effect s { s with watchers := Function.update s.watchers tw (some t') }
  | made {s : Manager} {P path : Str} {pe : EntryId} {conf : TaskConf} :
      s.HasProducer conf.kafkaTopicConf.compressionCodec → Effect s { s with
        nextWatcher := s.nextWatcher + 1
        watchers := Function.update s.watchers s.nextWatcher
          (some (TailWatcher.init P path pe conf)) }
  | gone {s : Manager} {tw : WatcherId} :
      Effect s { s with watchers := Function.update s.watchers tw none }
  | producer {s : Manager} {codec : Str} : codec ∈ ccMap →
      Effect s { s with producers := codec :: s.producers }
  | entry {s : Manager} {key : PositionEntryKey} : s.peMap.find? key = none → Effect s { s with
        nextSerial := s.nextSerial + 1
        peMap := s.peMap.insert key ⟨key, s.nextSerial⟩
        slots := Function.update s.slots ⟨key, s.nextSerial⟩ (some ⟨0, 0⟩) }
  | written {s : Manager} {pe : EntryId} {slot : Slot} : (s.slots pe).isSome →
      Effect s { s with slots := Function.update s.slots pe (some slot) }
  | removed {s : Manager} {key : PositionEntryKey} {pe : EntryId} :
      s.peMap.find? key = some pe → Effect s { s with
        peMap := s.peMap.erase key
        slots := Function.update s.slots pe none
        removed := s.removed ++ (s.slots pe).toList.map fun slot => (pe, slot) }

/-- Any number of changes. -/
def Effects : Manager → Manager → Prop := Relation.ReflTransGen Effect

theorem Effects.refl (s : Manager) : Effects s s := Relation.ReflTransGen.refl

theorem Effects.one (h : Effect s s') : Effects s s' := Relation.ReflTransGen.single h

theorem Effects.trans (h : Effects s s') (h' : Effects s' s'') : Effects s s'' :=
  Relation.ReflTransGen.trans h h'

/-- What every effect keeps. -/
theorem Effects.inv {I : Manager → Prop} (hstep : ∀ {s s'}, Effect s s' → I s → I s')
    (h : Effects s s') (hs : I s) : I s' := by
  induction h with
  | refl => exact hs
  | tail _ heffect ih => exact hstep heffect ih

/-- A watcher and its entry are written. -/
theorem Effects.watcher_slot {pe : EntryId} {slot : Slot} (hw : s.watchers tw = some t)
    (hcodec : t'.codec = t.codec) (halive : (s.slots pe).isSome) : Effects s { s with
      watchers := Function.update s.watchers tw (some t')
      slots := Function.update s.slots pe (some slot) } :=
  (Effects.one (.watcher hw hcodec)).tail
    (Effect.written (s := { s with watchers := Function.update s.watchers tw (some t') }) halive)

/-! ## Programs that act by effects alone

As for `Moves`, the rules follow the text of a program.  A lock and a crash are no
effects.
-/

/-- Whatever it finds, `x` changes the state by effects alone. -/
def Acts (x : M α) : Prop := Moves [] Effects (fun _ => True) x

namespace Acts

theorem pure (a : α) : Acts (pure a) := Moves.pure Effects.refl a

theorem bind {x : M α} {f : α → M β} (hx : Acts x) (hf : ∀ a, Acts (f a)) :
    Acts (x >>= f) :=
  Moves.bind Effects.trans hx hf

theorem get : Acts (get : M Manager) := Moves.get Effects.refl

theorem lock {m : Mutex} {x : M α} (hx : Acts x) : Acts (Prog.scopedLock m x) :=
  Moves.scopedLock trivial hx

theorem crash (e : Crash) : Acts (Prog.crash e : M α) := fun _ _ _ => trivial

theorem modify {g : Manager → Manager} (hg : ∀ s, Effect s (g s)) : Acts (modify g : M Unit) :=
  fun _ s _ => .one (hg s)

end Acts

/-! ## The calls on one object

Where the effects come from: each of these calls is one of them, or none.
-/

theorem acts_getWatcher (tw : WatcherId) : Acts (getWatcher tw) := fun _ _ _ =>
  wp_getWatcher_of trivial fun _ _ => Effects.refl _

theorem acts_modifyWatcher {f : TailWatcher → TailWatcher} (hf : ∀ t, (f t).codec = t.codec) :
    Acts (modifyWatcher tw f) := by
  intro L s _
  unfold modifyWatcher
  rw [wp_bind]
  exact wp_getWatcher_of trivial fun t hw => .one (.watcher hw (hf t))

theorem acts_getSlot (pe : EntryId) : Acts (getSlot pe) := fun _ _ _ =>
  wp_getSlot (fun _ => trivial) fun _ _ => Effects.refl _

theorem acts_setSlot (pe : EntryId) (slot : Slot) : Acts (setSlot pe slot) := fun _ _ _ =>
  wp_setSlot (fun _ => trivial) fun halive => .one (.written halive)

theorem acts_modifySlot (pe : EntryId) (f : Slot → Slot) : Acts (modifySlot pe f) :=
  (acts_getSlot pe).bind fun slot => acts_setSlot pe (f slot)

theorem acts_getEntry (pek : PositionEntryKey) : Acts (getEntry pek) := by
  intro L s _
  simp only [getEntry, wp_bind, wp_get]
  cases hfind : s.peMap.find? pek with
  | some pe => exact Effects.refl s
  | none =>
      simp only [wp_bind, wp_modify, wp_pure]
      exact .one (.entry hfind)

theorem acts_removeEntry (pek : PositionEntryKey) : Acts (removeEntry pek) := by
  intro L s _
  simp only [removeEntry, wp_bind, wp_get]
  cases hfind : s.peMap.find? pek with
  | some pe => exact .one (.removed hfind)
  | none => exact Effects.refl s

/-! ## The calls on a watcher -/

theorem acts_notifyIoHandler (io : Io) (tw : WatcherId) :
    Acts (TailWatcher.notifyIoHandler cfg io tw) := by
  intro L s _
  refine wp_notifyIoHandler_of (fun _ => trivial) trivial (fun _ => trivial)
    (fun _ _ _ => trivial) (fun _ _ => .refl s) ?_
  intro t t' slot slot' hw heq
  have hcodec : t'.codec = t.codec := by
    rw [TailWatcher.codec, (Kept.of_notifyIo heq).1.conf, TailWatcher.codec]
  exact ⟨.one (.watcher hw hcodec), fun hslot => .watcher_slot hw hcodec (by simp [hslot])⟩

theorem acts_closeIoHandler (tw : WatcherId) : Acts (TailWatcher.closeIoHandler tw) := by
  intro L s _
  unfold TailWatcher.closeIoHandler
  rw [wp_bind]
  refine wp_getWatcher_of trivial fun t hw => ?_
  rw [wp_ite]
  split
  · exact wp_scopedLock_any trivial (.one (.watcher hw rfl))
  · exact .refl s

theorem acts_stop (tw : WatcherId) (closeIo : Bool) :
    Acts (TailWatcher.stop cfg env tw closeIo) := by
  unfold TailWatcher.stop
  refine Acts.bind (acts_modifyWatcher fun _ => rfl) fun _ => ?_
  refine Acts.lock (Moves.ite ?_ (Acts.pure _))
  exact (acts_notifyIoHandler _ tw).bind fun _ => acts_closeIoHandler tw

theorem acts_active (tw : WatcherId) : Acts (TailWatcher.active cfg env tw) :=
  (acts_getWatcher tw).bind fun _ => Acts.lock (Acts.pure _)

theorem acts_delete (tw : WatcherId) : Acts (TailWatcher.delete tw) := by
  unfold TailWatcher.delete
  refine (acts_getWatcher tw).bind fun _ => ?_
  refine (Acts.lock (Acts.pure _)).bind fun _ => ?_
  refine (Acts.lock (Acts.pure _)).bind fun _ => ?_
  exact Acts.modify fun _ => .gone

/-! ## Setting up and closing

The one place where a watcher is made; its producer was made sure of before.
-/

/-- What `initProducer` returns says whether the codec has a producer. -/
theorem wp_initProducer_acts {E : Fault Mutex Crash → Prop} {codec : Str}
    (hE : E (.selfDeadlock .brokerUrls)) :
    wp (initProducer env codec) (fun ok s' => Effects s s' ∧ (ok = true → s'.HasProducer codec) ∧
      (s.HasProducer codec → ok = true)) E L s := by
  unfold initProducer
  rw [wp_ite]
  split
  · next hnone => exact ⟨.refl s, fun h => (nomatch h), fun h => absurd h.1 hnone⟩
  · next hcodec =>
      have hcodec : codec ∈ ccMap := not_not.mp hcodec
      simp only [wp_bind, wp_get, wp_ite]
      split
      · next hthere => exact ⟨.refl s, fun _ => ⟨hcodec, hthere⟩, fun _ => rfl⟩
      · next hnew =>
          refine wp_scopedLock_any hE ?_
          rw [wp_pure]
          split
          · exact ⟨.one (.producer hcodec), fun _ => ⟨hcodec, List.mem_cons_self⟩, fun _ => rfl⟩
          · exact ⟨.refl s, fun h => (nomatch h), fun h => absurd h.2 hnew⟩

theorem acts_setupWatcher (conf : TaskConf) (P path : Str) (pe : EntryId) (enabled : Bool) :
    Acts (setupWatcher env conf P path pe enabled) := by
  intro L s _
  unfold setupWatcher
  rw [wp_bind]
  refine (wp_initProducer_acts trivial).conseq ?_
  rintro ok s₁ ⟨hs₁, hhas, -⟩
  rw [wp_ite]
  split
  · next hok =>
      rw [wp_ite]
      split
      · simp only [wp_bind, wp_get]
        refine wp_scopedLock_any trivial ?_
        simp only [wp_pure, wp_modify]
        exact hs₁.trans (.one (.made (hhas hok)))
      · trivial
  · exact hs₁

theorem acts_closeWatcher (tw : WatcherId) (closeIo removePosEntry : Bool) :
    Acts (closeWatcher cfg env tw closeIo removePosEntry) := by
  have hremove : ∀ t : TailWatcher, Acts
      (if removePosEntry then removeEntry ⟨t.pathPattern, t.path⟩ else Pure.pure () : M Unit) :=
    fun t => Moves.ite (acts_removeEntry _) (Acts.pure _)
  unfold closeWatcher
  refine (acts_stop tw closeIo).bind fun _ => (acts_getWatcher tw).bind fun t => ?_
  refine Moves.ite ((acts_getEntry _).bind fun pe => ?_) (hremove t)
  exact (acts_modifySlot pe _).bind fun _ => hremove t

theorem acts_startEntry (task : Task) (P : Str) : Acts (startEntry env task P) := by
  unfold startEntry
  refine (acts_getEntry _).bind fun pe => Moves.ite ?_ (Acts.pure _)
  refine (acts_getSlot pe).bind fun slot => Moves.ite ?_ (Acts.pure _)
  exact (acts_setSlot pe _).bind fun _ => Acts.pure _

theorem acts_startWatchers : ∀ ps, Acts (startWatchers env ps)
  | [] => Acts.pure _
  | P :: ps => by
      unfold startWatchers
      refine Acts.get.bind fun s => ?_
      split
      · exact Acts.crash _
      · refine Moves.ite (Acts.pure _) (Moves.ite (Acts.pure _) ?_)
        refine (acts_startEntry _ P).bind fun pe => ?_
        refine (acts_setupWatcher _ P _ pe _).bind fun tw => ?_
        refine Moves.ite ?_ (acts_startWatchers ps)
        exact Acts.bind (Acts.modify fun _ => .beside rfl rfl rfl) fun _ => acts_startWatchers ps

theorem acts_stopWatchers (immediate unwatched : Bool) :
    ∀ ps, Acts (stopWatchers cfg env immediate unwatched ps)
  | [] => Acts.pure _
  | P :: ps => by
      have hrest := acts_stopWatchers immediate unwatched ps
      unfold stopWatchers
      refine Acts.get.bind fun s => ?_
      cases s.tails.find? P with
      | none => exact hrest
      | some tw =>
          cases tw with
          | none => exact (Acts.crash _).bind fun _ => hrest
          | some tw =>
              refine Acts.bind (acts_modifyWatcher fun _ => rfl) fun _ => Moves.ite ?_ hrest
              refine (acts_closeWatcher tw true true).bind fun _ => ?_
              refine (acts_delete tw).bind fun _ => ?_
              exact Acts.bind (Acts.modify fun _ => .beside rfl rfl rfl) fun _ => hrest

/-! ## Rotation -/

theorem acts_updateWatcherRotate (P path : Str) (pe : EntryId) :
    Acts (updateWatcherRotate cfg env P path pe) := by
  unfold updateWatcherRotate
  refine Acts.lock (Acts.get.bind fun s => ?_)
  split
  · next tw _ =>
      refine (acts_active tw).bind fun active => Moves.ite (Acts.pure _) ?_
      refine (acts_closeWatcher tw true false).bind fun _ => ?_
      refine (acts_modifySlot pe _).bind fun _ => ?_
      refine (acts_getWatcher tw).bind fun t => Acts.get.bind fun s₁ => ?_
      split
      · refine (acts_setupWatcher t.conf P path pe _).bind fun new => ?_
        refine Moves.ite ?_ (Acts.pure _)
        refine Acts.bind (Acts.modify fun _ => .beside rfl rfl rfl) fun _ => ?_
        exact Acts.bind (Acts.lock (Acts.modify fun _ => .beside rfl rfl rfl)) fun _ => Acts.pure _
      · exact Acts.crash _
  · exact Acts.crash _

theorem acts_rotateIo (tw : WatcherId) (file : File) :
    Acts (TailWatcher.rotateIo env tw file) := by
  intro L s _
  refine wp_rotateIo_of (fun _ => trivial) (fun _ => trivial) (fun _ _ _ => trivial) ?_
    (fun _ _ _ _ _ => .refl s)
  intro t t' slot slot' ok hw hslot heq
  have hcodec : t'.codec = t.codec := by
    rw [TailWatcher.codec, (Kept.of_onRotate heq).1.conf, TailWatcher.codec]
  exact .watcher_slot hw hcodec (by simp [hslot])

theorem acts_rotate (tw : WatcherId) (file : File) :
    Acts (TailWatcher.rotate cfg env tw file) := by
  unfold TailWatcher.rotate
  refine (Acts.lock (acts_rotateIo tw file)).bind fun r => ?_
  cases r with
  | some ok => exact Acts.pure ok
  | none => exact (acts_getWatcher tw).bind fun t => acts_updateWatcherRotate _ _ _

theorem acts_notifyRotateHandler (tw : WatcherId) :
    Acts (TailWatcher.notifyRotateHandler cfg env tw) := by
  intro L s hL
  unfold TailWatcher.notifyRotateHandler
  rw [wp_bind]
  refine wp_getWatcher_of trivial fun t hw => ?_
  simp only [wp_ite]
  split
  · split
    · exact .refl s
    · next opened _ =>
      have hrest : Acts (do
          if ← TailWatcher.rotate cfg env tw (fopen opened) then
            modifyWatcher tw fun t' =>
              { t' with rotateHandler := RotateHandler.record (env.stat t.path) } : M Unit) := by
        refine (acts_rotate tw _).bind fun ok => ?_
        exact Moves.ite (acts_modifyWatcher fun t => rfl) (Acts.pure _)
      exact hrest L s hL
  · exact .one (.watcher hw rfl)

theorem acts_onNotify (tw : WatcherId) : Acts (TailWatcher.onNotify cfg env tw) := by
  unfold TailWatcher.onNotify
  refine (Acts.lock (acts_notifyRotateHandler tw)).bind fun _ => ?_
  exact Acts.lock (acts_notifyIoHandler _ tw)

/-! ## The events -/

theorem acts_followEnabled (task : Task) (tw : WatcherId) :
    Acts (followEnabled cfg env task tw) := by
  have hset : ∀ enabled, Acts (modifyWatcher tw (·.setEnabled enabled)) := fun enabled =>
    acts_modifyWatcher fun _ => rfl
  have hstop : Acts (do
      let t ← getWatcher tw
      if ¬ task.getEnabled ∧ t.getEnabled then
        TailWatcher.stop cfg env tw false
        modifyWatcher tw (·.setEnabled false) : M Unit) := by
    refine (acts_getWatcher tw).bind fun t => Moves.ite ?_ (Acts.pure _)
    exact (acts_stop tw false).bind fun _ => hset false
  unfold followEnabled TailWatcher.start
  refine (acts_getWatcher tw).bind fun t => Moves.ite ?_ hstop
  refine Acts.bind ?_ fun _ => (hset true).bind fun _ => hstop
  exact Acts.bind (acts_modifyWatcher fun _ => rfl) fun _ => acts_onNotify tw

theorem acts_replaceWatcher (task : Task) (tw : WatcherId) (P : Str) :
    Acts (replaceWatcher cfg env task tw P) := by
  unfold replaceWatcher
  refine (acts_closeWatcher tw true false).bind fun _ => (acts_getWatcher tw).bind fun t => ?_
  refine (acts_getEntry _).bind fun pe => (acts_setupWatcher _ P _ pe _).bind fun new => ?_
  exact Acts.modify fun _ => .beside rfl rfl rfl

theorem acts_updateWatchers : ∀ ps, Acts (updateWatchers cfg env ps)
  | [] => Acts.pure _
  | P :: ps => by
      unfold updateWatchers updateWatchersBody
      refine Acts.bind (Acts.get.bind fun s => ?_) fun _ => acts_updateWatchers ps
      split
      · next task tw _ _ =>
          refine (acts_getWatcher tw).bind fun t => Moves.ite ?_ ?_
          · refine Moves.ite ?_ (Acts.pure _)
            exact (acts_stopWatchers true true [P]).bind fun _ => acts_startWatchers [P]
          · refine Moves.ite ?_ (acts_followEnabled task tw)
            exact (acts_replaceWatcher task tw P).bind fun _ => acts_followEnabled task tw
      · exact Acts.crash _

theorem acts_removeExpired (expandedPath : Str) (tail : Option (WatcherId × Str)) :
    ∀ paths, Acts (removeExpired cfg env expandedPath tail paths)
  | [] => Acts.pure _
  | path :: paths => by
      have hrest := acts_removeExpired expandedPath tail paths
      unfold removeExpired
      cases tail with
      | none => exact Moves.ite hrest (Acts.pure _)
      | some tail =>
          refine Moves.ite ?_ (Moves.ite hrest (Acts.pure _))
          exact (acts_active tail.1).bind fun active => Moves.ite (Acts.pure _) hrest

theorem acts_updateTaskPaths (P : Str) : Acts (updateTaskPaths cfg env P) := by
  unfold updateTaskPaths tailPath
  refine Acts.get.bind fun s => ?_
  split
  · exact Acts.crash _
  · refine Acts.bind (Acts.get.bind fun s => ?_) fun tail => ?_
    · split
      · exact Acts.pure _
      · exact Acts.crash _
      · exact (acts_getWatcher _).bind fun t => Acts.pure _
    · refine (acts_removeExpired _ tail _).bind fun paths => ?_
      exact Acts.modify fun _ => .beside rfl rfl rfl

theorem acts_deleteTasks : ∀ ps, Acts (deleteTasks ps)
  | [] => Acts.pure _
  | P :: ps => by
      unfold deleteTasks
      exact Acts.bind (Acts.modify fun _ => .beside rfl rfl rfl) fun _ => acts_deleteTasks ps

theorem acts_addTasks : ∀ ps, Acts (addTasks cfg env ps)
  | [] => Acts.pure _
  | P :: ps => by
      have hrest := acts_addTasks ps
      unfold addTasks
      refine Acts.get.bind fun s => ?_
      cases s.taskConfs.find? P with
      | none => exact (Acts.crash _).bind fun _ => hrest
      | some conf =>
          refine Acts.bind (Acts.modify fun _ => .beside rfl rfl rfl) fun _ => ?_
          exact (acts_updateTaskPaths P).bind fun _ => hrest

theorem acts_updateTasks : ∀ ps, Acts (updateTasks cfg env ps)
  | [] => Acts.pure _
  | P :: ps => by
      have hrest := acts_updateTasks ps
      unfold updateTasks
      refine Acts.get.bind fun s => ?_
      cases s.tasks.find? P with
      | none => exact (Acts.crash _).bind fun _ => hrest
      | some task =>
          cases s.taskConfs.find? P with
          | none => exact (Acts.crash _).bind fun _ => hrest
          | some conf =>
              refine Acts.bind (Acts.modify fun _ => .beside rfl rfl rfl) fun _ => ?_
              exact (acts_updateTaskPaths P).bind fun _ => hrest

theorem acts_deleteOld : ∀ tws, Acts (deleteOld tws)
  | [] => Acts.modify fun _ => .beside rfl rfl rfl
  | tw :: tws => (acts_delete tw).bind fun _ => acts_deleteOld tws

theorem acts_refreshTasks : Acts (refreshTasks cfg env) := by
  unfold refreshTasks
  refine Acts.get.bind fun s => (acts_deleteTasks _).bind fun _ => ?_
  refine (acts_addTasks _).bind fun _ => (acts_updateTasks _).bind fun _ => ?_
  exact Acts.lock (Acts.get.bind fun s => acts_deleteOld _)

theorem acts_refreshTaskConfs : Acts (refreshTaskConfs env) := by
  unfold refreshTaskConfs
  refine (Acts.lock (Acts.pure _)).bind fun _ => ?_
  split
  · exact Acts.pure _
  · exact Acts.bind (Acts.modify fun _ => .beside rfl rfl rfl) fun _ => Acts.pure _
  · exact Acts.bind (Acts.modify fun _ => .beside rfl rfl rfl) fun _ => Acts.pure _

theorem acts_refreshWatchers : Acts (refreshWatchers cfg env) := by
  unfold refreshWatchers
  refine Acts.lock (acts_refreshTaskConfs.bind fun ok => Moves.ite ?_ (Acts.pure _))
  refine acts_refreshTasks.bind fun _ => Acts.get.bind fun s => ?_
  refine (acts_stopWatchers true true _).bind fun _ => ?_
  refine (acts_startWatchers _).bind fun _ => ?_
  exact (acts_updateWatchers _).bind fun _ => Acts.pure _

theorem acts_serialize (tw : WatcherId) : Acts (serialize tw) := by
  have hlock : ∀ m, Acts (Prog.scopedLock m (Pure.pure ()) : M Unit) := fun m =>
    Acts.lock (Acts.pure _)
  unfold serialize
  refine (acts_getWatcher tw).bind fun t => ?_
  refine (Acts.lock (Moves.ite ?_ (Acts.pure _))).bind fun _ => hlock _
  exact (hlock _).bind fun _ => (hlock _).bind fun _ => hlock _

theorem acts_serializeAll : ∀ es, Acts (serializeAll es)
  | [] => Acts.pure _
  | (P, some tw) :: es => by
      unfold serializeAll
      refine Moves.ite ?_ (acts_serializeAll es)
      exact (acts_serialize tw).bind fun _ => acts_serializeAll es
  | (_, none) :: es => by
      unfold serializeAll
      exact acts_serializeAll es

/-- Every event of the main loop changes the state by effects alone. -/
theorem acts_exec (e : Event) : Acts (exec cfg e) := by
  cases e with
  | refresh env => exact acts_refreshWatchers.bind fun _ => Acts.pure _
  | notify env tw => exact acts_onNotify tw
  | upload =>
      refine (Acts.lock (Acts.get.bind fun s => acts_serializeAll _)).bind fun _ => ?_
      exact Acts.lock (Acts.pure _)
  | stop env =>
      refine Acts.bind (Acts.modify fun _ => .beside rfl rfl rfl) fun _ => Acts.lock ?_
      refine Acts.get.bind fun s => ?_
      exact (acts_stopWatchers true false _).bind fun _ => Acts.lock (Acts.pure _)

end Logkafka
