/-
# `Logkafka.Manager.Changes` — the functions that change the tables

`setupWatcher`, `startWatchers`, `stopWatchers` and `updateWatchers` make and
take away watchers and entries.  For each there is one rule that says exactly
what becomes of the tables, up to quiet work before and after, with the entry
of a new watcher and whether `setupWatcher` returned `NULL`:

    CanProduce env ps conf     a producer for `conf` is there, or can be made

A `NULL` that is dereferenced is asked about where there may be one; all the
other faults are admitted.
-/
import Logkafka.Manager.Events
import Logkafka.Manager.Quiet

namespace Logkafka

open Manager PositionFile Prog

variable {cfg : Config} {env : Env} {L : List Mutex} {P : Str} {tw : WatcherId}
  {E : Fault Mutex Crash → Prop} {t : TailWatcher} {s s' : Manager} {conf : TaskConf}
  {ps ps' ps'' : List Str}

/-! ## Producers

A producer is made at the first setup that needs it and is never given up, so
what can be set up once can be set up later.
-/

/-- Producers were made in this environment, and none is lost. -/
structure Grows (env : Env) (ps ps' : List Str) : Prop where
  kept : ∀ c ∈ ps, c ∈ ps'
  made : ∀ c ∈ ps', c ∈ ps ∨ env.producerInit c = true

theorem Grows.refl : Grows env ps ps := ⟨fun _ h => h, fun _ => Or.inl⟩

theorem Grows.trans (h : Grows env ps ps') (h' : Grows env ps' ps'') : Grows env ps ps'' where
  kept c hc := h'.kept c (h.kept c hc)
  made c hc := by
    rcases h'.made c hc with hc | hc
    · exact h.made c hc
    · exact Or.inr hc

theorem Grows.canProduce_iff (h : Grows env ps ps') :
    CanProduce env ps' conf ↔ CanProduce env ps conf := by
  refine and_congr_right fun _ => ⟨?_, ?_⟩
  · rintro (hc | hc)
    · exact h.made _ hc
    · exact Or.inr hc
  · rintro (hc | hc)
    · exact Or.inl (h.kept _ hc)
    · exact Or.inr hc

theorem wp_initProducer_grows {Q : Bool → Manager → Prop} (hE : ∀ e, NotNull e → E e)
    (hok : CanProduce env s.producers conf → ∀ ps, Grows env s.producers ps →
      Q true { s with producers := ps })
    (hfail : ¬ CanProduce env s.producers conf → Q false s) :
    wp (initProducer env conf.kafkaTopicConf.compressionCodec) Q E L s := by
  unfold initProducer
  rw [wp_ite]
  split
  · next hcodec => exact hfail fun h => hcodec h.1
  · next hcodec =>
      have hcodec := not_not.mp hcodec
      simp only [wp_bind, wp_get, wp_ite]
      split
      · next hmem => exact hok ⟨hcodec, Or.inl hmem⟩ s.producers Grows.refl
      · next hmem =>
          refine wp_scopedLock_any (hE _ (by simp [NotNull])) ?_
          rw [wp_pure]
          split
          · next hinit =>
              refine hok ⟨hcodec, Or.inr hinit⟩ _ ⟨fun _ => List.mem_cons_of_mem _, fun c hc => ?_⟩
              rcases List.mem_cons.mp hc with rfl | hc
              · exact Or.inr hinit
              · exact Or.inl hc
          · next hinit => exact hfail fun h => h.2.elim hmem hinit

/-! ## Setting up

A round of `startWatchers` makes an entry before it knows whether the watcher can
be set up, and the entry stays.
-/

theorem wp_setupWatcher_grows {path : Str} {pe : EntryId} {enabled : Bool}
    {Q : Option WatcherId → Manager → Prop} (hE : ∀ e, NotNull e → E e)
    (hnew : CanProduce env s.producers conf → ∀ ps, Grows env s.producers ps →
      Q (some s.nextWatcher) (s.withNew ps (TailWatcher.init P path pe conf)))
    (hfail : ¬ CanProduce env s.producers conf → Q none s) :
    wp (setupWatcher env conf P path pe enabled) Q E L s := by
  unfold setupWatcher
  rw [wp_bind]
  refine wp_initProducer_grows hE (fun hcan ps hps => ?_) fun hcan => ?_
  · rw [if_pos rfl, wp_ite]
    split
    · simp only [wp_bind, wp_get]
      refine wp_scopedLock_any (hE _ (by simp [NotNull])) ?_
      rw [wp_pure, wp_modify]
      exact hnew hcan ps hps
    · exact hE _ (by simp [NotNull])
  · rw [if_neg (by simp), wp_pure]
    exact hfail hcan

theorem wp_startEntry_quiet {task : Task} {Q : EntryId → Manager → Prop}
    (hE : ∀ e, NotNull e → E e)
    (h : ∀ pe s', Opens ⟨P, task.getPath⟩ s s' →
      s'.peMap.find? ⟨P, task.getPath⟩ = some pe → Q pe s') :
    wp (startEntry env task P) Q E L s := by
  unfold startEntry
  rw [wp_bind]
  refine wp_getEntry_opens fun pe s₁ ho₁ hpe => ?_
  simp only [wp_ite, wp_bind, wp_pure]
  split
  · refine wp_getSlot (fun _ => hE _ (by simp [NotNull])) fun slot _ => ?_
    split
    · refine wp_setSlot (fun _ => hE _ (by simp [NotNull])) fun halive => ?_
      exact h pe _ (ho₁.setSlot halive) hpe
    · exact h pe s₁ ho₁ hpe
  · exact h pe s₁ ho₁ hpe

/-- A round of `startWatchers`. -/
theorem wp_startWatchers_quiet {Q : Unit → Manager → Prop} (hE : ∀ e, NotNull e → E e)
    (hnull : s.tasks.find? P = none → E (.crash .nullPointer)) (hleave : Q () s)
    (hnew : ∀ task s₁ pe, s.tasks.find? P = some task → Opens ⟨P, task.getPath⟩ s s₁ →
      s₁.peMap.find? ⟨P, task.getPath⟩ = some pe → s.tails.find? P = none →
      ∀ ps', Grows env s.producers ps' → wp (startWatchers env ps) Q E L
        (s₁.register P ps' (TailWatcher.init P task.getPath pe task.conf)))
    (hfail : ∀ task s₁, s.tasks.find? P = some task → task.conf.valid = true →
      Opens ⟨P, task.getPath⟩ s s₁ → s.tails.find? P = none →
      ¬ CanProduce env s.producers task.conf → wp (startWatchers env ps) Q E L s₁) :
    wp (startWatchers env (P :: ps)) Q E L s := by
  simp only [startWatchers, wp_bind, wp_get]
  split
  · next hnone => exact hnull hnone
  · next task htask =>
      simp only [wp_ite, wp_pure]
      split
      · exact hleave
      · next hvalid =>
        split
        · exact hleave
        · next hnone =>
            have hnone : s.tails.find? P = none := by simpa using hnone
            simp only [wp_bind]
            refine wp_startEntry_quiet hE fun pe s₁ ho₁ hpe => ?_
            refine wp_setupWatcher_grows hE (fun _ ps' hps' => ?_) fun hcan => ?_
            · rw [ho₁.quiet.producers] at hps'
              exact hnew task s₁ pe htask ho₁ hpe hnone ps' hps'
            · rw [ho₁.quiet.producers] at hcan
              exact hfail task s₁ htask (by simpa using hvalid) ho₁ hnone hcan

/-! ## Stopping

`stopWatchers` is where an entry leaves the map.  The state without it is given a
name, since what is proved of it is about the other keys.
-/

/-- Without the entry of `pek`. -/
def Manager.dropEntry (s : Manager) (pek : PositionEntryKey) : Manager :=
  match s.peMap.find? pek with
  | some pe => { s with
      peMap := s.peMap.erase pek
      slots := Function.update s.slots pe none
      removed := s.removed ++ (s.slots pe).toList.map fun slot => (pe, slot) }
  | none => s

/-- What is not of the entries is as before. -/
theorem dropEntry_field {β : Type} (field : Manager → β) (pek : PositionEntryKey)
    (h : ∀ peMap slots removed,
      field { s with peMap := peMap, slots := slots, removed := removed } = field s) :
    field (s.dropEntry pek) = field s := by
  unfold dropEntry
  cases s.peMap.find? pek with
  | some pe => exact h _ _ _
  | none => rfl

@[simp] theorem dropEntry_tasks (pek : PositionEntryKey) : (s.dropEntry pek).tasks = s.tasks :=
  dropEntry_field _ pek fun _ _ _ => rfl

@[simp] theorem dropEntry_tails (pek : PositionEntryKey) : (s.dropEntry pek).tails = s.tails :=
  dropEntry_field _ pek fun _ _ _ => rfl

@[simp] theorem dropEntry_producers (pek : PositionEntryKey) :
    (s.dropEntry pek).producers = s.producers :=
  dropEntry_field _ pek fun _ _ _ => rfl

@[simp] theorem dropEntry_nextWatcher (pek : PositionEntryKey) :
    (s.dropEntry pek).nextWatcher = s.nextWatcher :=
  dropEntry_field _ pek fun _ _ _ => rfl

@[simp] theorem dropEntry_watchers (pek : PositionEntryKey) :
    (s.dropEntry pek).watchers = s.watchers :=
  dropEntry_field _ pek fun _ _ _ => rfl

theorem dropEntry_of_some {pek : PositionEntryKey} {pe : EntryId}
    (hpe : s.peMap.find? pek = some pe) : s.dropEntry pek = { s with
      peMap := s.peMap.erase pek
      slots := Function.update s.slots pe none
      removed := s.removed ++ (s.slots pe).toList.map fun slot => (pe, slot) } := by
  unfold dropEntry
  rw [hpe]

theorem dropEntry_of_none {pek : PositionEntryKey} (hpe : s.peMap.find? pek = none) :
    s.dropEntry pek = s := by
  unfold dropEntry
  rw [hpe]

/-- All that is seen of it in the slots. -/
theorem dropEntry_alive (h : s.Held) (pek : PositionEntryKey) (pe : EntryId) :
    ((s.dropEntry pek).slots pe).isSome ↔ (s.slots pe).isSome ∧ pe.key ≠ pek := by
  cases hpe : s.peMap.find? pek with
  | none =>
      rw [dropEntry_of_none hpe]
      refine (and_iff_left_of_imp fun halive hkey => ?_).symm
      have hfound := (h pek pe).mpr ⟨hkey, halive⟩
      rw [hpe] at hfound
      cases hfound
  | some pe₀ =>
      obtain ⟨hkey₀, -⟩ := (h _ _).mp hpe
      rw [dropEntry_of_some hpe]
      show (Function.update s.slots pe₀ none pe).isSome ↔ _
      by_cases heq : pe = pe₀
      · rw [heq, Function.update_self]
        exact iff_of_false (by simp) fun hne => hne.2 hkey₀
      · rw [Function.update_of_ne heq]
        refine (and_iff_left_of_imp fun halive hkey => heq ?_).symm
        exact Option.some.inj (((h pek pe).mpr ⟨hkey, halive⟩).symm.trans hpe)

theorem find?_dropEntry_self (pek : PositionEntryKey) :
    (s.dropEntry pek).peMap.find? pek = none := by
  cases hpe : s.peMap.find? pek with
  | none => rwa [dropEntry_of_none hpe]
  | some pe =>
      rw [dropEntry_of_some hpe]
      exact OrdMap.find?_erase_self _ _

theorem find?_dropEntry_ne {pek pek' : PositionEntryKey} (hne : pek' ≠ pek) :
    (s.dropEntry pek).peMap.find? pek' = s.peMap.find? pek' := by
  cases hpe : s.peMap.find? pek with
  | none => rw [dropEntry_of_none hpe]
  | some pe =>
      rw [dropEntry_of_some hpe]
      exact OrdMap.find?_erase_ne hne _

theorem Manager.Held.dropEntry (h : s.Held) (pek : PositionEntryKey) : (s.dropEntry pek).Held := by
  intro pek' pe'
  rw [dropEntry_alive h]
  by_cases hpek : pek' = pek
  · subst hpek
    rw [find?_dropEntry_self]
    exact iff_of_false (by simp) fun h' => h'.2.2 h'.1
  · rw [find?_dropEntry_ne hpek, h pek' pe']
    refine and_congr_right fun hkey => (and_iff_left ?_).symm
    exact hkey.symm ▸ hpek

theorem Manager.Wf.dropEntry (hs : s.Wf) (h : s.Held) {pek : PositionEntryKey} :
    (s.dropEntry pek).Wf := by
  refine ⟨?_, ?_, ?_, ?_, (h.dropEntry pek).entriesOk⟩
  · rw [dropEntry_watchers, dropEntry_nextWatcher]
    exact hs.watchers_lt
  · rw [dropEntry_tails, dropEntry_nextWatcher]
    exact hs.tails_lt
  · rw [dropEntry_watchers, dropEntry_tails]
    exact hs.tails_pattern
  · rw [dropEntry_watchers]
    exact hs.entry_pattern

theorem wp_removeEntry_iff {pek : PositionEntryKey} {Q : Unit → Manager → Prop} :
    wp (removeEntry pek) Q E L s ↔ Q () (s.dropEntry pek) := by
  simp only [removeEntry, wp_bind, wp_get]
  unfold dropEntry
  cases s.peMap.find? pek with
  | some pe => rfl
  | none => rfl

/-- A round of `stopWatchers`. -/
theorem wp_stopWatchers_quiet {unwatched : Bool} {Q : Unit → Manager → Prop}
    (hE : ∀ e, NotNull e → E e)
    (hnull : s.tails.find? P = some none → E (.crash .nullPointer))
    (hskip : s.tails.find? P = none → wp (stopWatchers cfg env true unwatched ps) Q E L s)
    (hstop : ∀ tw t s₁, s.tails.find? P = some (some tw) → s.watchers tw = some t →
      Closing ⟨t.pathPattern, t.path⟩ unwatched s s₁ →
      wp (stopWatchers cfg env true unwatched ps) Q E L
        ((s₁.dropEntry ⟨t.pathPattern, t.path⟩).unregister P tw)) :
    wp (stopWatchers cfg env true unwatched (P :: ps)) Q E L s := by
  simp only [stopWatchers, wp_bind, wp_get]
  split
  · next hnone => exact hskip hnone
  · next hnone => exact hnull hnone
  · next tw htail =>
      simp only [modifyWatcher, wp_bind, if_true]
      refine wp_getWatcher_of (hE _ (by simp [NotNull])) fun t hw => ?_
      rw [wp_setWatcher]
      have hq₁ : Quiet s { s with
          watchers := Function.update s.watchers tw (some { t with unwatched := unwatched }) } :=
        Quiet.setWatcher hw ⟨rfl, rfl, rfl⟩
      refine wp_closeWatcher_quiet hE fun s₂ t₁ hc hw₁ => ?_
      cases (Function.update_self ..).symm.trans hw₁
      rw [if_pos rfl, wp_removeEntry_iff]
      refine wp_delete_any hE (hstop tw t s₂ htail hw ?_)
      exact ⟨⟨hq₁.trans hc.quiet, hc.opens⟩, hc.marked⟩

/-! ## Updating

The body of `updateWatchers`, with the outcomes it has for a watcher that is
alive: left as it is, replaced, or moved to another path.
-/

theorem wp_replaceWatcher_quiet {task : Task} {Q : Unit → Manager → Prop}
    (hE : ∀ e, NotNull e → E e)
    (h : ∀ s₁ t pe, Quiet s s₁ → s.watchers tw = some t →
      s₁.peMap.find? ⟨P, t.path⟩ = some pe →
      (CanProduce env s.producers task.conf → ∀ ps, Grows env s.producers ps →
        Q () (s₁.register P ps (TailWatcher.init P task.getPath pe task.conf))) ∧
      (¬ CanProduce env s.producers task.conf →
        Q () { s₁ with tails := s₁.tails.insert P none })) :
    wp (replaceWatcher cfg env task tw P) Q E L s := by
  unfold replaceWatcher
  rw [wp_bind]
  refine ((quietly_closeWatcher tw true).wp (List.Subset.refl L) hE).conseq fun _ s₁ hq₁ => ?_
  rw [wp_bind]
  refine wp_getWatcher_of (hE _ (by simp [NotNull])) fun t₁ hw₁ => ?_
  obtain ⟨t, hw, ht⟩ := hq₁.watcher tw t₁ hw₁
  rw [ht.path, wp_bind]
  refine wp_getEntry_opens fun pe s₂ ho₂ hpe => ?_
  have hq := hq₁.trans ho₂.quiet
  obtain ⟨hcan, hnot⟩ := h s₂ t pe hq hw hpe
  rw [wp_bind]
  refine wp_setupWatcher_grows hE (fun hc ps hps => ?_) fun hc => ?_
  · rw [hq.producers] at hc hps
    exact hcan hc ps hps
  · rw [hq.producers] at hc
    exact hnot hc

/-- A round of `updateWatchers`, under the lock of the refresh. -/
theorem wp_updateWatchersBody_quiet {Q : Unit → Manager → Prop} (hE : ∀ e, NotNull e → E e)
    (hL : .tailWatchers ∈ L)
    (hnull : (∀ task tw, s.tasks.find? P = some task → s.tails.find? P ≠ some (some tw)) →
      E (.crash .nullPointer))
    (hmove : ∀ task tw t, Watched s P task tw t → task.conf.sameOutput t.conf = true →
      wp (stopWatchers cfg env true true [P])
        (fun _ s₁ => wp (startWatchers env [P]) Q E L s₁) E L s)
    (hkeep : ∀ task tw t s', Watched s P task tw t → task.conf.sameOutput t.conf = true →
      Quiet s s' → Q () s')
    (hreplace : ∀ task tw t s₁ s' pe, Watched s P task tw t →
      task.conf.sameOutput t.conf = false → Quiet s s₁ →
      s₁.peMap.find? ⟨P, t.path⟩ = some pe →
      (CanProduce env s.producers task.conf → ∀ ps, Grows env s.producers ps →
        Quiet (s₁.register P ps (TailWatcher.init P task.getPath pe task.conf)) s' → Q () s') ∧
      (¬ CanProduce env s.producers task.conf →
        Quiet { s₁ with tails := s₁.tails.insert P none } s' → Q () s')) :
    wp (updateWatchersBody cfg env P) Q E L s := by
  simp only [updateWatchersBody, wp_bind, wp_get]
  split
  · next task tw htask htail =>
      have hfollow : ∀ s₁ : Manager, wp (followEnabled cfg env task tw) (fun _ => Quiet s₁) E L
          s₁ := fun s₁ => (quietly_followEnabled hL task tw).wp (List.Subset.refl L) hE
      simp only [wp_bind]
      refine wp_getWatcher_of (hE _ (by simp [NotNull])) fun t hw => ?_
      have hp : Watched s P task tw t := ⟨htask, htail, hw⟩
      simp only [wp_ite, wp_bind]
      split
      · next hsame =>
          have hout := ((TaskConf.same_iff _ _).mp hsame).2
          split
          · exact hmove task tw t hp hout
          · exact hkeep task tw t s hp hout Quiet.refl
      · split
        · next hout =>
            have hout : task.conf.sameOutput t.conf = false := by simpa using hout
            refine wp_replaceWatcher_quiet hE fun s₁ t' pe hq₁ hw' hpe => ?_
            cases hw.symm.trans hw'
            refine ⟨fun hcan ps hps => ?_, fun hcan => ?_⟩
            · refine (hfollow _).conseq fun _ s' hq => ?_
              exact (hreplace task tw t s₁ s' pe hp hout hq₁ hpe).1 hcan ps hps hq
            · refine (hfollow _).conseq fun _ s' hq => ?_
              exact (hreplace task tw t s₁ s' pe hp hout hq₁ hpe).2 hcan hq
        · next hout =>
            have hout : task.conf.sameOutput t.conf = true := by simpa using hout
            exact (hfollow s).conseq fun _ s' hq => hkeep task tw t s' hp hout hq
  · next hboth => exact hnull fun task tw htask htail => hboth task tw htask htail

/-! ## Triggers

The one event that comes from a watcher.  What it does to the tables is in
`updateWatcherRotate`, so the two rules say the same of them.
-/

/-- `updateWatcherRotate` is quiet, or it hands over: the new watcher has the path
and the entry of the caller, which is alive, for it was written. -/
theorem wp_updateWatcherRotate_quiet {pe : EntryId} {path : Str} {Q : Bool → Manager → Prop}
    (hkeep : ∀ s', Quiet s s' → Q false s')
    (hover : ∀ s' ps old conf, Quiet s s' → (s'.slots pe).isSome →
      Q true (s'.handedOver P ps old (TailWatcher.init P path pe conf))) :
    wp (updateWatcherRotate cfg env P path pe) Q (fun _ => True) L s := by
  have hE : ∀ e, NotNull e → True := fun _ _ => trivial
  unfold updateWatcherRotate
  refine wp_scopedLock_any trivial ?_
  simp only [wp_bind, wp_get]
  split
  · next tw _ =>
      simp only [wp_bind]
      refine ((quietly_active tw).wp (List.Subset.refl _) hE).conseq fun active s₁ hq₁ => ?_
      rw [wp_ite]
      split
      · exact hkeep s₁ hq₁
      · simp only [wp_bind]
        refine ((quietly_closeWatcher tw true).wp (List.Subset.refl _) hE).conseq
          fun _ s₂ hq₂ => ?_
        unfold modifySlot
        rw [wp_bind]
        refine wp_getSlot (fun _ => trivial) fun slot _ => ?_
        refine wp_setSlot (fun _ => trivial) fun halive => ?_
        have hq₃ : Quiet s₂ { s₂ with
            slots := Function.update s₂.slots pe (some (slot.updatePos 0)) } :=
          Quiet.setSlot halive
        have hq := (hq₁.trans hq₂).trans hq₃
        refine wp_getWatcher_of trivial fun t _ => ?_
        simp only [wp_get]
        split
        · rw [wp_bind]
          refine wp_setupWatcher_grows hE (fun _ ps _ => ?_) fun _ => ?_
          · simp only [Option.isSome_some, if_true, wp_bind, wp_modify]
            refine wp_scopedLock_any trivial ?_
            exact hover _ ps tw t.conf hq (hq₃.alive pe halive)
          · exact hkeep _ hq
        · trivial
  · trivial

/-- A trigger keeps what quiet work keeps, if handing over keeps it. -/
theorem wp_onNotify_quiet {I : Manager → Prop} (hquiet : ∀ s s', Quiet s s' → I s → I s')
    (hover : ∀ s s' t ps old conf, I s → s.watchers tw = some t → Quiet s s' →
      (s'.slots t.positionEntry).isSome → I (s'.handedOver t.pathPattern ps old
        (TailWatcher.init t.pathPattern t.path t.positionEntry conf))) (h : I s) :
    wp (TailWatcher.onNotify cfg env tw) (fun _ => I) (fun _ => True) L s := by
  have hE : ∀ e, NotNull e → True := fun _ _ => trivial
  have hkeep : ∀ {α : Type} {x : M α} {s₁ : Manager} {L : List Mutex}, Quietly [] x → I s₁ →
      wp x (fun _ => I) (fun _ => True) L s₁ := fun {_ _ s₁ _} hx h₁ =>
    (hx.wp (List.nil_subset _) hE).conseq fun _ s₂ hq => hquiet s₁ s₂ hq h₁
  have hrotate : wp (TailWatcher.notifyRotateHandler cfg env tw) (fun _ => I) (fun _ => True)
      (.rotateHandler tw :: L) s := by
    unfold TailWatcher.notifyRotateHandler
    rw [wp_bind]
    refine wp_getWatcher_of trivial fun t hw => ?_
    simp only [wp_ite]
    split
    · split
      · exact h
      · simp only [TailWatcher.rotate, wp_bind]
        refine (hkeep (quietly_rotateIo tw _).scopedLock h).conseq fun r s₁ h₁ => ?_
        have hset : ∀ (ok : Bool) (s₂ : Manager), I s₂ → wp (if ok = true then
            modifyWatcher tw fun t' =>
              { t' with rotateHandler := RotateHandler.record (env.stat t.path) }
            else pure ()) (fun _ => I) (fun _ => True) (.rotateHandler tw :: L) s₂ := by
          intro ok s₂ h₂
          refine hkeep (Moves.ite (quietly_modifyWatcher fun t' => ?_) (Quietly.pure _)) h₂
          exact ⟨rfl, rfl, rfl⟩
        cases r with
        | some ok => exact hset ok s₁ h₁
        | none =>
            simp only [wp_bind]
            refine wp_getWatcher_of trivial fun t₁ hw₁ => ?_
            refine wp_updateWatcherRotate_quiet (fun s₂ hq => ?_) fun s₂ ps old conf hq halive => ?_
            · exact hset false s₂ (hquiet s₁ s₂ hq h₁)
            · exact hset true _ (hover s₁ s₂ t₁ ps old conf h₁ hw₁ hq halive)
    · rw [wp_setWatcher]
      exact hquiet _ _ (Quiet.setWatcher hw ⟨rfl, rfl, rfl⟩) h
  unfold TailWatcher.onNotify
  rw [wp_bind]
  refine wp_scopedLock_any trivial (hrotate.conseq fun _ s₁ h₁ => ?_)
  exact hkeep (quietly_notifyIoHandler _ tw).scopedLock h₁

/-! ## Invariants of the tables

What is asked of a property so that a whole refresh keeps it: one field for each
kind of change, and the rules above reduce every loop to them.
-/

/-- The tasks are the same, and producers may be new. -/
structure Sourced (env : Env) (s s' : Manager) : Prop where
  tasks : s'.tasks = s.tasks
  grows : Grows env s.producers s'.producers

theorem Sourced.refl : Sourced env s s := ⟨rfl, Grows.refl⟩

theorem Sourced.trans {s'' : Manager} (h : Sourced env s s') (h' : Sourced env s' s'') :
    Sourced env s s'' :=
  ⟨h'.tasks.trans h.tasks, h.grows.trans h'.grows⟩

theorem Quiet.sourced (h : Quiet s s') : Sourced env s s' := ⟨h.tasks, h.producers ▸ Grows.refl⟩

/-- What is kept by quiet work, by a watcher that is registered with the entry of
its path, and by one that is taken out with its entry, as unwatched or not. -/
structure TableInv (unwatched : Bool) (I : Manager → Prop) : Prop where
  quiet : ∀ s s', Quiet s s' → I s → I s'
  register : ∀ s P path pe ps conf, s.peMap.find? ⟨P, path⟩ = some pe → I s →
    I (s.register P ps (TailWatcher.init P path pe conf))
  unregister : ∀ s s₁ P tw t, s.tails.find? P = some (some tw) → s.watchers tw = some t →
    Closing ⟨t.pathPattern, t.path⟩ unwatched s s₁ → I s →
    I ((s₁.dropEntry ⟨t.pathPattern, t.path⟩).unregister P tw)

variable {I : Manager → Prop} {unwatched : Bool}

theorem TableInv.stopWatchers (hI : TableInv unwatched I) (hE : ∀ e, NotNull e → E e) :
    ∀ (ps : List Str) (s : Manager),
      (∀ P ∈ ps, ∀ s, I s → s.tails.find? P = some none → E (.crash .nullPointer)) → I s →
      wp (stopWatchers cfg env true unwatched ps) (fun _ s' => I s' ∧ Sourced env s s') E L s
  | [], s, _, hs => ⟨hs, Sourced.refl⟩
  | P :: ps, s, hnull, hs => by
      have hrest : ∀ s₁, I s₁ → Sourced env s s₁ →
          wp (Manager.stopWatchers cfg env true unwatched ps)
            (fun _ s' => I s' ∧ Sourced env s s') E L s₁ := by
        intro s₁ hs₁ hsrc
        refine (TableInv.stopWatchers hI hE ps s₁ (fun Q hQ => ?_) hs₁).conseq fun _ s₂ h =>
          ⟨h.1, hsrc.trans h.2⟩
        exact hnull Q (List.mem_cons_of_mem _ hQ)
      refine wp_stopWatchers_quiet hE (hnull P List.mem_cons_self s hs) ?_ ?_
      · exact fun _ => hrest s hs Sourced.refl
      · intro tw t s₁ htail hw hc
        refine hrest _ (hI.unregister s s₁ P tw t htail hw hc hs) ⟨?_, ?_⟩
        · exact (dropEntry_tasks _).trans hc.quiet.tasks
        · have hproducers : (s₁.dropEntry ⟨t.pathPattern, t.path⟩).producers = s.producers :=
            (dropEntry_producers _).trans hc.quiet.producers
          exact hproducers.symm ▸ Grows.refl

theorem TableInv.startWatchers (hI : TableInv unwatched I) (hE : ∀ e, NotNull e → E e) :
    ∀ (ps : List Str) (s : Manager),
      (∀ P ∈ ps, s.tasks.find? P = none → E (.crash .nullPointer)) → I s →
      wp (startWatchers env ps) (fun _ s' => I s' ∧ Sourced env s s') E L s
  | [], s, _, hs => ⟨hs, Sourced.refl⟩
  | P :: ps, s, hnull, hs => by
      have hrest : ∀ s₁, I s₁ → Sourced env s s₁ → wp (Manager.startWatchers env ps)
          (fun _ s' => I s' ∧ Sourced env s s') E L s₁ := by
        intro s₁ hs₁ hsrc
        refine (TableInv.startWatchers hI hE ps s₁ (fun Q hQ => ?_) hs₁).conseq fun _ s₂ h =>
          ⟨h.1, hsrc.trans h.2⟩
        rw [hsrc.tasks]
        exact hnull Q (List.mem_cons_of_mem _ hQ)
      refine wp_startWatchers_quiet hE (hnull P List.mem_cons_self) ⟨hs, Sourced.refl⟩ ?_ ?_
      · intro task s₁ pe _ ho hpe _ ps' hps'
        exact hrest _ (hI.register s₁ P _ pe ps' _ hpe (hI.quiet s s₁ ho.quiet hs))
          ⟨ho.quiet.tasks, hps'⟩
      · exact fun task s₁ _ _ ho _ _ => hrest s₁ (hI.quiet s s₁ ho.quiet hs) ho.quiet.sourced

/-- The path changed: the watcher is stopped and another one started. -/
theorem TableInv.moveWatcher (hI : TableInv true I) (hE : ∀ e, NotNull e → E e)
    (hnull : ∀ s, I s → s.tails.find? P = some none → E (.crash .nullPointer)) {task : Task}
    (htask : s.tasks.find? P = some task) (hs : I s) :
    wp (Manager.stopWatchers cfg env true true [P]) (fun _ s₁ =>
      wp (Manager.startWatchers env [P]) (fun _ s' => I s' ∧ Sourced env s s') E L s₁) E L s := by
  refine (hI.stopWatchers hE [P] s (fun Q hQ => ?_) hs).conseq ?_
  · rw [List.mem_singleton.mp hQ]
    exact hnull
  · rintro _ s₁ ⟨hs₁, hsrc₁⟩
    refine (hI.startWatchers hE [P] s₁ (fun Q hQ hnone => ?_) hs₁).conseq fun _ s₂ h =>
      ⟨h.1, hsrc₁.trans h.2⟩
    rw [List.mem_singleton.mp hQ, hsrc₁.tasks, htask] at hnone
    cases hnone

/-- What a round needs and what it establishes, over the whole loop: `C` is not
touched by work for other patterns, and neither is `R`. -/
theorem wp_updateWatchers_rounds {C R : Str → Manager → Prop}
    (hC : ∀ P T s s', ¬ T P → Frame T s s' → s.Wf → s'.Wf → Sourced env s s' → C P s → C P s')
    (hR : Stable R)
    (hround : ∀ P s, s.Wf → I s → C P s → wp (updateWatchersBody cfg env P)
      (fun _ s' => I s' ∧ Sourced env s s' ∧ R P s') E [.tailWatchers] s) :
    ∀ (ps : List Str) (s : Manager), ps.Nodup → s.Wf → I s → (∀ P ∈ ps, C P s) →
      wp (updateWatchers cfg env ps) (fun _ s' => s'.Wf ∧ I s' ∧ Frame (· ∈ ps) s s' ∧
        ∀ P ∈ ps, R P s') E [.tailWatchers] s
  | [], s, _, hs, hI, _ => ⟨hs, hI, Frame.refl, fun P hP => absurd hP List.not_mem_nil⟩
  | P :: ps, s, hnd, hs, hI, hps => by
      obtain ⟨hP, hnd⟩ := List.nodup_cons.mp hnd
      have hframe : wp (updateWatchersBody cfg env P) (fun _ s' => s'.Wf ∧ Frame (· = P) s s')
          (fun _ => True) [.tailWatchers] s :=
        wp_updateWatchersBody hs (fun _ => trivial) (fun _ => trivial) fun s' hs' hf _ => ⟨hs', hf⟩
      unfold updateWatchers
      rw [wp_bind]
      refine ((hround P s hs hI (hps P List.mem_cons_self)).and hframe).conseq ?_
      rintro _ s₁ ⟨⟨hI₁, hsrc, hRP⟩, hs₁, hf₁⟩
      have hne : ∀ Q ∈ ps, ¬ Q = P := fun Q hQ heq => hP (heq ▸ hQ)
      refine (wp_updateWatchers_rounds hC hR hround ps s₁ hnd hs₁ hI₁ fun Q hQ => ?_).conseq ?_
      · exact hC Q (· = P) s s₁ (hne Q hQ) hf₁ hs hs₁ hsrc (hps Q (List.mem_cons_of_mem _ hQ))
      · rintro _ s₂ ⟨hs₂, hI₂, hf₂, hall⟩
        refine ⟨hs₂, hI₂, (hf₁.mono fun Q hQ => hQ ▸ List.mem_cons_self).trans
          (hf₂.mono fun Q => List.mem_cons_of_mem _), fun Q hQ => ?_⟩
        rcases List.mem_cons.mp hQ with rfl | hQ
        · exact hR Q (· ∈ ps) s₁ s₂ hP hf₂ hs₁ hs₂ hRP
        · exact hall Q hQ

/-- A refresh up to `updateWatchers`, which finds the kept patterns as they were
when the tasks were done. -/
theorem TableInv.refreshWatchers (hI : TableInv true I) {Q : Bool → Manager → Prop} (hs : s.Wf)
    (hE : ∀ e, NotNull e → E e)
    (hnull : ∀ s, I s → ∀ P, s.tails.find? P = some none → E (.crash .nullPointer))
    (hIs : I s)
    (hfail : (∀ members, env.document ≠ .object members) →
      ∀ confs, Q false { s with taskConfs := confs })
    (htasks : ∀ members s₁, env.document = .object members →
      TasksRefreshed (newConfs members) s s₁ → I s₁)
    (hrest : ∀ members s₁ s₃, env.document = .object members →
      TasksRefreshed (newConfs members) s s₁ → TasksDone cfg env s s₁ → s₁.Wf → s₃.Wf → I s₃ →
      Sourced env s₁ s₃ → Frame (· ∉ s₁.keptKeys) s₁ s₃ →
      wp (updateWatchers cfg env s₁.keptKeys.elems) (fun _ => Q true) E [.tailWatchers] s₃) :
    wp (refreshWatchers cfg env) Q E [] s := by
  refine wp_refreshWatchers_parts hs (hE _ (by simp [NotNull])) ?_ hfail ?_
  · rintro ⟨P, hP⟩
    exact hnull s hIs P hP
  · intro members s₁ hdoc hr hdone hs₁
    refine ((hI.stopWatchers hE _ s₁ (fun P _ s hs => hnull s hs P)
      (htasks members s₁ hdoc hr)).and
      (wp_stopWatchers (E := fun _ => True) (fun _ => trivial) _ s₁ hs₁)).conseq ?_
    rintro _ s₂ ⟨⟨hI₂, hsrc₂⟩, hstop⟩
    refine ((hI.startWatchers hE _ s₂ (fun P hP hnone => ?_) hI₂).and
      (wp_startWatchers (E := fun _ => True) (fun _ => trivial) _ s₂ hstop.wf)).conseq ?_
    · obtain ⟨task, htask⟩ := OrdMap.mem_keys.mp (OrdSet.mem_diff.mp hP).1
      rw [hsrc₂.tasks, htask] at hnone
      cases hnone
    rintro _ s₃ ⟨⟨hI₃, hsrc₃⟩, hstart⟩
    refine hrest members s₁ s₃ hdoc hr hdone hs₁ hstart.wf hI₃ (hsrc₂.trans hsrc₃) ?_
    refine (hstop.frame.mono fun P hP hkept => ?_).trans
      (hstart.frame.mono fun P hP hkept => ?_)
    · exact (OrdSet.mem_diff.mp hP).2 (OrdSet.mem_inter.mp hkept).2
    · exact (OrdSet.mem_diff.mp hP).2 (OrdSet.mem_inter.mp hkept).1

end Logkafka
