/-
# `Logkafka.Manager.Refused` — a rotation that is refused changes nothing

`updateWatcherRotate` stops the old watcher, closes its file and sets the entry
back before it sets the new watcher up, and returns `false` if that fails.  It
does not fail:

    initProducer           the codec is that of the old watcher, so it is one of
                           `cc_map`, and its producer is there already
    TailWatcher::init      where it fails, `setupWatcher` does not return

The first is an invariant of the main loop: a watcher that is alive has been set
up with a codec that has a producer, and no producer is taken away (`Supplied`,
which every `Effect` keeps).  So what returns `false` is the test for an active
watcher alone, with nothing changed before it.
-/
import Logkafka.IOHandler.Accounting
import Logkafka.Manager.Effects
import Logkafka.Manager.Quiet
import Logkafka.Manager.Rotate

namespace Logkafka

open Manager PositionFile Prog

variable {cfg : Config} {env : Env} {L : List Mutex} {P : Str} {tw : WatcherId}
  {t t' : TailWatcher} {s s' : Manager}

/-- Every watcher that is alive has a producer. -/
structure Manager.Supplied (s : Manager) : Prop where
  hasProducer : ∀ v t, s.watchers v = some t → s.HasProducer t.codec

theorem Manager.Supplied.effect (hs : s.Supplied) (h : Effect s s') : s'.Supplied := by
  refine ⟨fun v t' hv => ?_⟩
  cases h with
  | beside _ hw hp =>
      rw [hw] at hv
      rw [Manager.HasProducer, hp]
      exact hs.hasProducer v t' hv
  | @watcher tw t t₁ hw hcodec =>
      have hv : Function.update s.watchers tw (some t₁) v = some t' := hv
      by_cases hvw : v = tw
      · subst hvw
        rw [Function.update_self] at hv
        cases hv
        rw [hcodec]
        exact hs.hasProducer v t hw
      · rw [Function.update_of_ne hvw] at hv
        exact hs.hasProducer v t' hv
  | @made P path pe conf hhas =>
      have hv : Function.update s.watchers s.nextWatcher
        (some (TailWatcher.init P path pe conf)) v = some t' := hv
      by_cases hnew : v = s.nextWatcher
      · rw [hnew, Function.update_self] at hv
        cases hv
        exact hhas
      · rw [Function.update_of_ne hnew] at hv
        exact hs.hasProducer v t' hv
  | gone => exact hs.hasProducer v t' (of_update_none hv)
  | producer =>
      obtain ⟨hcc, hmem⟩ := hs.hasProducer v t' hv
      exact ⟨hcc, List.mem_cons_of_mem _ hmem⟩
  | entry | written | removed => exact hs.hasProducer v t' hv

theorem Manager.Supplied.effects (hs : s.Supplied) (h : Effects s s') : s'.Supplied :=
  h.inv (fun heffect hs => hs.effect heffect) hs

/-! ## Rotation

Where the setup cannot fail, `false` comes from the test for an active watcher,
which is made before anything is done.
-/

/-- With a producer for its codec a watcher is set up, if the call returns. -/
theorem wp_setupWatcher_supplied {E : Fault Mutex Crash → Prop} {conf : TaskConf} {path : Str}
    {pe : EntryId} {enabled : Bool} (hE : ∀ e, E e)
    (h : s.HasProducer conf.kafkaTopicConf.compressionCodec) :
    wp (setupWatcher env conf P path pe enabled) (fun new _ => new.isSome = true) E L s := by
  unfold setupWatcher
  rw [wp_bind]
  refine (wp_initProducer_acts (hE _)).conseq ?_
  rintro ok s₁ ⟨-, -, hok⟩
  rw [if_pos (hok h), wp_ite]
  split
  · simp only [wp_bind, wp_get]
    refine wp_scopedLock_any (hE _) ?_
    simp only [wp_pure, wp_modify, Option.isSome_some]
  · exact hE _

/-- What the test for an active watcher finds, it leaves as it was. -/
theorem wp_active_same {E : Fault Mutex Crash → Prop} (hE : ∀ e, E e) :
    wp (TailWatcher.active cfg env tw) (fun _ s' => s' = s) E L s := by
  unfold TailWatcher.active
  rw [wp_bind]
  refine wp_getWatcher_of (hE _) fun t _ => ?_
  exact wp_scopedLock_any (hE _) rfl

/-- It returns `false` only where it has done nothing. -/
theorem wp_updateWatcherRotate_refused {E : Fault Mutex Crash → Prop} {path : Str} {pe : EntryId}
    (hE : ∀ e, E e) (hs : s.Supplied) :
    wp (updateWatcherRotate cfg env P path pe) (fun ok s' => ok = false → s' = s) E L s := by
  unfold updateWatcherRotate
  refine wp_scopedLock_any (hE _) ?_
  simp only [wp_bind, wp_get]
  split
  · next tw _ =>
      rw [wp_bind]
      refine (wp_active_same hE).conseq ?_
      rintro active s₁ rfl
      rw [wp_ite]
      split
      · exact fun _ => rfl
      · -- closed and set back: from here on it does not return `false`
        have hclose : Acts (do
            closeWatcher cfg env tw true false
            modifySlot pe (·.updatePos 0) : M Unit) :=
          (acts_closeWatcher tw true false).bind fun _ => acts_modifySlot pe _
        have hclosed := (hclose (.tailWatchers :: L) s₁ (List.nil_subset _)).mono
          (fun _ _ h => hs.effects h) fun e _ => hE e
        simp only [wp_bind] at hclosed ⊢
        refine hclosed.conseq fun _ s₂ h₂ => h₂.conseq fun _ s₃ hs₃ => ?_
        refine wp_getWatcher_of (hE _) fun t hw => ?_
        simp only [wp_get]
        split
        · rw [wp_bind]
          refine (wp_setupWatcher_supplied hE (hs₃.hasProducer tw t hw)).conseq ?_
          intro new s₄ hnew
          rw [if_pos hnew]
          simp only [wp_bind, wp_modify]
          refine wp_scopedLock_any (hE _) ?_
          intro h
          cases h
        · exact hE _
  · exact hE _

/-! ## Every run

No effect takes a producer away, and each watcher that is made has one.
-/

theorem supplied_run {pf : OrdMap PositionEntryKey Slot} {es : List Event}
    (hr : run (step cfg) es (Manager.init pf) = some s) : s.Supplied := by
  refine run_inv (I := Manager.Supplied) (fun e u u' hu hstep => ?_) es _ s ⟨fun v t hv => ?_⟩ hr
  · exact of_step hstep fun _ => (acts_exec e [] u (List.nil_subset _)).conseq
      fun _ _ h => hu.effects h
  · cases hv

/-! ## A refused rotation

From the watcher's side: the tick that is refused is a tick of reading, and the
handler asks again at the next one.
-/

/-- What reading changes of a watcher and its entry, and what it does not. -/
structure Reads (tw : WatcherId) (t : TailWatcher) (s s' : Manager) : Prop where
  tails : s'.tails = s.tails
  watcher : ∃ reader, s'.watchers tw = some { t with reader := reader } ∧
    ∀ r, t.reader = some r → ∃ r', reader = some r' ∧ r'.inode = r.inode ∧
      r'.handler.fileOpen = r.handler.fileOpen
  entry : ∀ slot, s.slots t.positionEntry = some slot →
    ∃ slot', s'.slots t.positionEntry = some slot' ∧ slot'.readInode = slot.readInode

theorem notifyIo_cases {f : LogFile} {now : ℤ} {es : List IOHandler.Event} {slot slot' : Slot}
    (h : t.notifyIo cfg f now es slot = some (t', slot')) :
    (∃ reader, t' = { t with reader := reader } ∧ ∀ r, t.reader = some r →
      ∃ r', reader = some r' ∧ r'.inode = r.inode ∧ r'.handler.fileOpen = r.handler.fileOpen) ∧
    slot'.readInode = slot.readInode := by
  unfold TailWatcher.notifyIo at h
  split at h
  · next hnone =>
      cases h
      refine ⟨⟨t.reader, rfl, fun r hr => ?_⟩, rfl⟩
      rw [hnone] at hr
      cases hr
  · next r hsome =>
      obtain ⟨h', hnotify, heq⟩ := Option.map_eq_some_iff.mp h
      cases heq
      refine ⟨⟨_, rfl, fun r₁ hr₁ => ?_⟩, ?_⟩
      · cases hsome.symm.trans hr₁
        exact ⟨_, rfl, rfl, IOHandler.onNotify_fileOpen hnotify⟩
      · split
        · rfl
        · rfl

theorem reads_notifyIoHandler {E : Fault Mutex Crash → Prop} {io : Io} (hE : ∀ e, E e)
    (hw : s.watchers tw = some t) :
    wp (TailWatcher.notifyIoHandler cfg io tw) (fun _ => Reads tw t s) E L s := by
  have hsame : Reads tw t s s :=
    ⟨rfl, ⟨t.reader, hw, fun r hr => ⟨r, hr, rfl, rfl⟩⟩, fun slot hslot => ⟨slot, hslot, rfl⟩⟩
  refine wp_notifyIoHandler_of (fun _ => hE _) (hE _) (fun _ => hE _) (fun _ _ _ => hE _)
    (fun _ _ => hsame) ?_
  intro t₁ t' slot slot' hw₁ heq
  cases hw.symm.trans hw₁
  obtain ⟨⟨reader, rfl, hreader⟩, hinode⟩ := notifyIo_cases heq
  have hread : Reads tw t s { s with
      watchers := Function.update s.watchers tw (some { t with reader := reader }) } :=
    ⟨rfl, ⟨reader, Function.update_self .., hreader⟩, fun slot hslot => ⟨slot, hslot, rfl⟩⟩
  refine ⟨hread, fun hslot => ⟨rfl, hread.watcher, fun slot₁ hslot₁ => ?_⟩⟩
  cases hslot.symm.trans hslot₁
  exact ⟨slot', Function.update_self .., hinode⟩

theorem onRotate_eq_handOver {initOk : Bool} {now : ℤ} {file : File} {slot : Slot} {r : Reader}
    (hr : t.reader = some r) (hopen : r.handler.fileOpen = true)
    (hinode : file.stat.inode ≠ slot.readInode) : t.onRotate initOk now file slot = .handOver := by
  unfold TailWatcher.onRotate
  rw [hr]
  simp only [if_neg hinode, hopen, Bool.true_eq_false, if_false]

/-- A tick that is refused the rotation goes on to read. -/
theorem reads_of_refused {E : Fault Mutex Crash → Prop} (hE : ∀ e, E e)
    (hw : s.watchers tw = some t) (hover : HandsOver env s t)
    (hfalse : updateWatcherRotate cfg env t.pathPattern t.path t.positionEntry [.rotateHandler tw] s
      = .ok (false, s)) :
    wp (TailWatcher.onNotify cfg env tw) (fun _ => Reads tw t s) E [] s := by
  obtain ⟨opened, slot, r, hopened, hrotated, hslot, hr, hopen, hinode⟩ := hover
  have hrotateIo : wp (TailWatcher.rotateIo env tw (fopen opened)) (fun ok s' => ok = none ∧ s' = s)
      E [.ioHandler tw, .rotateHandler tw] s := by
    refine wp_rotateIo_of (fun _ => hE _) (fun _ => hE _) (fun _ _ _ => hE _) ?_
      (fun _ _ _ _ _ => ⟨rfl, rfl⟩)
    intro t₁ t' slot₁ slot' ok hw₁ hslot₁ heq
    cases hw.symm.trans hw₁
    cases hslot.symm.trans hslot₁
    rw [onRotate_eq_handOver hr hopen hinode] at heq
    cases heq
  unfold TailWatcher.onNotify TailWatcher.notifyRotateHandler TailWatcher.rotate
  rw [wp_bind, wp_scopedLock (by simp), wp_bind, wp_getWatcher hw]
  simp only [hrotated, if_true, hopened, wp_bind]
  rw [wp_scopedLock (by simp)]
  refine hrotateIo.conseq ?_
  rintro _ _ ⟨rfl, rfl⟩
  simp only [wp_bind]
  rw [wp_getWatcher hw, wp_of_ok hfalse]
  simp only [Bool.false_eq_true, if_false, wp_pure]
  exact wp_scopedLock_any (hE _) (reads_notifyIoHandler hE hw)

/-- The tick after it gets to the Manager again. -/
theorem Reads.handsOver {env' : Env} (hread : Reads tw t s s') (hover : HandsOver env s t)
    (hstat : env'.stat t.path = env.stat t.path) (hfopen : env'.fopen t.path = env.fopen t.path) :
    ∃ t', s'.watchers tw = some t' ∧ t'.running = t.running ∧ t'.rotateHandler = t.rotateHandler ∧
      HandsOver env' s' t' := by
  obtain ⟨opened, slot, r, hopened, hrotated, hslot, hr, hopen, hinode⟩ := hover
  obtain ⟨reader, hw', hreader⟩ := hread.watcher
  obtain ⟨r', hr', -, hopen'⟩ := hreader r hr
  obtain ⟨slot', hslot', hinode'⟩ := hread.entry slot hslot
  refine ⟨_, hw', rfl, rfl, opened, slot', r', hfopen.trans hopened, ?_, hslot', hr', ?_, ?_⟩
  · show t.rotateHandler.rotated (env'.stat t.path) = true
    rw [hstat]
    exact hrotated
  · rw [hopen', hopen]
  · rw [hinode']
    exact hinode

/-- **A refused rotation changes nothing.**  In every state of the main loop,
whichever watcher asks: where `updateWatcherRotate` returns `false` the state is
what it was, with every watcher, file and entry.  So the watcher that asked in a
tick of its triggers is there after it, running and registered as before, with
its file open and its rotate handler as it was; and the next tick that finds the
file so asks again. -/
theorem refused_rotation {pf : OrdMap PositionEntryKey Slot} {es : List Event}
    (hr : run (step cfg) es (Manager.init pf) = some s) (hw : s.watchers tw = some t)
    (hfalse : updateWatcherRotate cfg env t.pathPattern t.path t.positionEntry [.rotateHandler tw] s
      = .ok (false, s')) :
    s' = s ∧ (HandsOver env s t → ∀ s'', step cfg (.notify env tw) s = some s'' →
      s''.tails = s.tails ∧ ∀ env' : Env, env'.stat t.path = env.stat t.path →
        env'.fopen t.path = env.fopen t.path → ∃ t', s''.watchers tw = some t' ∧
          t'.running = true ∧ t'.rotateHandler = t.rotateHandler ∧ HandsOver env' s'' t') := by
  obtain rfl : s' = s :=
    (wp_updateWatcherRotate_refused (E := fun _ => True) (fun _ => trivial)
      (supplied_run hr)).ok hfalse rfl
  refine ⟨rfl, fun hover s'' hstep => ?_⟩
  obtain ⟨⟨t₀, hw₀, hrun⟩, hexec⟩ := step_eq_some.mp hstep
  cases hw.symm.trans hw₀
  have hread : Reads tw t s' s'' :=
    (reads_of_refused (E := fun _ => True) (fun _ => trivial) hw hover hfalse).ok hexec
  refine ⟨hread.tails, fun env' hstat hfopen => ?_⟩
  obtain ⟨t', hw', hrun', hsame, hagain⟩ := hread.handsOver hover hstat hfopen
  exact ⟨t', hw', hrun'.trans hrun, hsame, hagain⟩

/-- The watcher of "b" opened its file at the same second as the file is replaced. -/
theorem refused_rotation_active :
    ∃ s t s'', run (step sizes)
        [.refresh (atNoon (.object [([98], some (plainConf true [98]))]) (emptyFile 1 (by decide))),
          .notify (atNoon .parseError (emptyFile 1 (by decide))) 0] (Manager.init OrdMap.empty)
        = some s ∧
      s.tails.find? t.path = some (some 0) ∧ s.watchers 0 = some t ∧
      step sizes (.notify (atNoon .parseError (emptyFile 2 (by decide))) 0) s = some s'' ∧
      s''.tails = s.tails ∧ ∃ t', s''.watchers 0 = some t' ∧ t'.running = true ∧
        HandsOver (atNoon .parseError (emptyFile 2 (by decide))) s'' t' := by
  obtain ⟨s, t, s'', hr, htail, hw, hfalse, hover, hstep⟩ : ∃ s t s'', run (step sizes)
        [.refresh (atNoon (.object [([98], some (plainConf true [98]))]) (emptyFile 1 (by decide))),
          .notify (atNoon .parseError (emptyFile 1 (by decide))) 0] (Manager.init OrdMap.empty)
        = some s ∧
      s.tails.find? t.path = some (some 0) ∧ s.watchers 0 = some t ∧
      updateWatcherRotate sizes (atNoon .parseError (emptyFile 2 (by decide))) t.pathPattern t.path
        t.positionEntry [.rotateHandler 0] s = .ok (false, s) ∧
      HandsOver (atNoon .parseError (emptyFile 2 (by decide))) s t ∧
      step sizes (.notify (atNoon .parseError (emptyFile 2 (by decide))) 0) s = some s'' :=
    ⟨_, _, _, rfl, rfl, rfl, rfl, ⟨_, _, _, rfl, rfl, rfl, rfl, rfl, by decide⟩, rfl⟩
  obtain ⟨-, hnext⟩ := refused_rotation hr hw hfalse
  obtain ⟨htails, hagain⟩ := hnext hover s'' hstep
  obtain ⟨t', hw', hrun, -, hhand⟩ := hagain (atNoon .parseError (emptyFile 2 (by decide))) rfl rfl
  exact ⟨s, t, s'', hr, htail, hw, hstep, htails, t', hw', hrun, hhand⟩

end Logkafka
