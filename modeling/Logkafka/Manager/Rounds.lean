/-
# `Logkafka.Manager.Rounds` — what becomes of the patterns of a loop

`startWatchers`, `stopWatchers` and `updateWatchers` run over sets of patterns
and do their work for one of them at a time.  Each has a relation for what it
does, and a rule that proves it of the loop:

    Started T s s'      new watchers for patterns of `T` that had none
    Stopped T s s'      the patterns of `T` have no watcher any more
    Updated env P s s'  one round of `updateWatchers`, in its four outcomes

`wp_updateWatchers` takes any fact about a pattern that a round establishes,
and that work for other patterns leaves alone (`Stable`), to all patterns of
the loop.
-/
import Logkafka.Manager.Frame

namespace Logkafka

open Manager PositionFile Prog

variable {cfg : Config} {env : Env} {E : Fault Mutex Crash → Prop}
  {P : Str} {tw : WatcherId} {t t' : TailWatcher} {s s' s'' : Manager} {T T' : Str → Prop}

/-! ## Starting

A round leaves the loop or gives its pattern a watcher; `Started` is what is true
after any number of rounds.
-/

/-- A watcher that `setupWatcher` just made, for the task of its pattern. -/
structure JustSet (s : Manager) (v : WatcherId) (t : TailWatcher) : Prop where
  registered : s.tails.find? t.pathPattern = some (some v)
  alive : (s.slots t.positionEntry).isSome
  running : t.running = true
  task : ∃ task, s.tasks.find? t.pathPattern = some task ∧ task.conf.valid = true ∧
    t.conf = task.conf

/-- Nothing but new watchers for patterns of `T` that had none. -/
structure Started (T : Str → Prop) (s s' : Manager) : Prop where
  wf : s'.Wf
  frame : Frame T s s'
  kept : ∀ v t, s.watchers v = some t → s'.watchers v = some t
  new : ∀ v t, s'.watchers v = some t → s.watchers v = some t ∨ JustSet s' v t
  tails : ∀ P, s'.tails.find? P = s.tails.find? P ∨
    s.tails.find? P = none ∧ ∃ v t, s'.tails.find? P = some (some v) ∧ s'.watchers v = some t ∧
      s.watchers v = none
  slots : ∀ pe, (s.slots pe).isSome → (s'.slots pe).isSome

theorem Started.refl (hs : s.Wf) : Started T s s :=
  ⟨hs, Frame.refl, fun _ _ h => h, fun _ _ h => Or.inl h, fun _ => Or.inl rfl, fun _ h => h⟩

theorem JustSet.started (h : JustSet s tw t) (hst : Started T s s') : JustSet s' tw t where
  registered := by
    rcases hst.tails t.pathPattern with heq | ⟨hnone, -⟩
    · rw [heq]
      exact h.registered
    · rw [h.registered] at hnone
      cases hnone
  alive := hst.slots _ h.alive
  running := h.running
  task := by
    rw [hst.frame.tasks]
    exact h.task

theorem Started.trans (h : Started T s s') (h' : Started T s' s'') : Started T s s'' where
  wf := h'.wf
  frame := h.frame.trans h'.frame
  kept v t hv := h'.kept v t (h.kept v t hv)
  new v t hv := by
    rcases h'.new v t hv with hv' | hnew
    · rcases h.new v t hv' with hv'' | hnew
      · exact Or.inl hv''
      · exact Or.inr (hnew.started h')
    · exact Or.inr hnew
  tails P := by
    rcases h'.tails P with heq' | ⟨hnone', v, t, hP, hv, hvnone⟩
    · rw [heq']
      rcases h.tails P with heq | ⟨hnone, v, t, hP, hv, hvnone⟩
      · exact Or.inl heq
      · exact Or.inr ⟨hnone, v, t, hP, h'.kept v t hv, hvnone⟩
    · refine Or.inr ⟨?_, v, t, hP, hv, ?_⟩
      · rcases h.tails P with heq | ⟨hnone, -⟩
        · exact heq ▸ hnone'
        · exact hnone
      · cases hsv : s.watchers v with
        | none => rfl
        | some t₀ => exact absurd ((h.kept v t₀ hsv).symm.trans hvnone) (by simp)
  slots pe hpe := h'.slots pe (h.slots pe hpe)

theorem Started.mono (h : Started T s s') (hT : ∀ P, T P → T' P) : Started T' s s' :=
  { h with frame := h.frame.mono hT }

/-- `startWatchers` gives an entry of the pattern, which is alive. -/
theorem wp_startEntry {L : List Mutex} {task : Task} {Q : EntryId → Manager → Prop}
    (hs : s.EntriesOk) (hE : ∀ c, E (.crash c))
    (h : ∀ pe s', (∀ tw, Local tw P s s') → s'.watchers = s.watchers →
      pe.key.pathPattern = P → (s'.slots pe).isSome → Q pe s') :
    wp (startEntry env task P) Q E L s := by
  unfold startEntry
  rw [wp_bind]
  refine wp_getEntry ?_
  intro pe s₁ hl hw hpe
  obtain ⟨hkey, halive⟩ := hpe hs
  have hP : pe.key.pathPattern = P := by rw [hkey]
  simp only [wp_bind, wp_ite, wp_pure]
  split
  · refine wp_getSlot (fun _ => hE _) fun slot hslot => ?_
    split
    · refine wp_setSlot (fun _ => hE _) fun _ => ?_
      exact h _ _ (fun tw => (hl tw).trans (Local.setSlot hP)) hw hP (by simp)
    · exact h pe s₁ hl hw hP halive
  · exact h pe s₁ hl hw hP halive

/-- `setupWatcher` made a watcher of the task of `P`, and it is stored. -/
theorem Started.register {task : Task} {pe : EntryId} {ps : List Str} (hs' : s'.Wf)
    (hps : s'.producers ⊆ ps)
    (hl : ∀ tw, Local tw P s s') (hw : s'.watchers = s.watchers)
    (htask : s.tasks.find? P = some task) (hvalid : task.conf.valid = true)
    (hunwatched : s.tails.find? P = none) (hpe : pe.key.pathPattern = P)
    (halive : (s'.slots pe).isSome) :
    Started (· = P) s (s'.register P ps (TailWatcher.init P task.getPath pe task.conf)) where
  wf := hs'.register rfl hpe
  frame := (Local.frame_of_watchers hl hw).trans (Frame.register hs' hps rfl)
  kept v t hv := by
    rw [← hw] at hv
    exact (register_of_lt (hs'.watchers_lt v t hv)).trans hv
  new v t hv := by
    rcases register_watcher hv with ⟨rfl, rfl⟩ | ⟨-, hv⟩
    · refine Or.inr ⟨OrdMap.find?_insert_self _ _ _, halive, rfl, task, ?_, hvalid, rfl⟩
      exact (hl 0).tasks.symm ▸ htask
    · exact Or.inl (hw ▸ hv)
  tails Q := by
    by_cases hQ : Q = P
    · subst hQ
      refine Or.inr ⟨hunwatched, s'.nextWatcher, _, OrdMap.find?_insert_self _ _ _,
        Function.update_self .., ?_⟩
      rw [← hw]
      exact hs'.watchers_next
    · refine Or.inl ((OrdMap.find?_insert_ne hQ _ _).trans ?_)
      rw [(hl 0).tails]
  slots pe' := (hl 0).alive pe'

/-- Nothing but an entry of `P`. -/
theorem Started.of_entry (hs' : s'.Wf) (hl : ∀ tw, Local tw P s s')
    (hw : s'.watchers = s.watchers) : Started (· = P) s s' where
  wf := hs'
  frame := Local.frame_of_watchers hl hw
  kept v t hv := hw ▸ hv
  new v t hv := Or.inl (hw ▸ hv)
  tails Q := Or.inl (by rw [(hl 0).tails])
  slots pe := (hl 0).alive pe

/-- The first round of `startWatchers`: the loop ends, or the pattern is started. -/
theorem wp_startWatchers_cons {ps : List Str} {Q : Unit → Manager → Prop} (hs : s.Wf)
    (hE : ∀ c, E (.crash c))
    (hleave : ∀ task, s.tasks.find? P = some task →
      task.conf.valid = false ∨ (s.tails.find? P).isSome → Q () s)
    (hnext : ∀ task s', s.tasks.find? P = some task → task.conf.valid = true →
      s.tails.find? P = none → Started (· = P) s s' →
      (env.SetsUp s.producers task.conf → ∃ v, s'.tails.find? P = some (some v)) →
      wp (startWatchers env ps) Q E [.tailWatchers] s') :
    wp (startWatchers env (P :: ps)) Q E [.tailWatchers] s := by
  simp only [startWatchers, wp_bind, wp_get]
  split
  · exact hE _
  · next task htask =>
      rw [wp_ite]
      split
      · next hinvalid => exact hleave task htask (Or.inl hinvalid)
      · next hvalid =>
          have hvalid : task.conf.valid = true := by simpa using hvalid
          rw [wp_ite]
          split
          · next hwatched => exact hleave task htask (Or.inr hwatched)
          · next hunwatched =>
              have hunwatched : s.tails.find? P = none := by simpa using hunwatched
              rw [wp_bind]
              refine wp_startEntry hs.entries hE ?_
              intro pe s₁ hl hw hpe halive
              have hs₁ : s₁.Wf := hs.of_watchers (hl 0) hw
              rw [wp_bind]
              refine wp_setupWatcher (by simp) (by simp) (hE _) ?_ ?_
              · intro ps' hps
                exact hnext task _ htask hvalid hunwatched
                  (Started.register hs₁ hps hl hw htask hvalid hunwatched hpe halive) fun _ =>
                    ⟨s₁.nextWatcher, OrdMap.find?_insert_self _ _ _⟩
              · intro hfail
                rw [(hl 0).producers] at hfail
                exact hnext task s₁ htask hvalid hunwatched (Started.of_entry hs₁ hl hw) fun hup =>
                  absurd hup hfail

theorem wp_startWatchers (hE : ∀ c, E (.crash c)) :
    ∀ (ps : List Str) (s : Manager), s.Wf →
      wp (startWatchers env ps) (fun _ s' => Started (· ∈ ps) s s') E [.tailWatchers] s
  | [], s, hs => Started.refl hs
  | P :: ps, s, hs => by
      refine wp_startWatchers_cons hs hE ?_ ?_
      · intro _ _ _
        exact Started.refl hs
      · intro task s' _ _ _ hst _
        refine (wp_startWatchers hE ps s' hst.wf).conseq ?_
        intro _ s'' hst'
        exact (hst.mono fun Q hQ => hQ ▸ List.mem_cons_self).trans
          (hst'.mono fun Q hQ => List.mem_cons_of_mem _ hQ)

/-! ## Stopping

As for starting, and the entry of the watcher goes as well.
-/

/-- The patterns of `T` have no watcher any more, and nothing else is different. -/
structure Stopped (T : Str → Prop) (s s' : Manager) : Prop where
  wf : s'.Wf
  frame : Frame T s s'
  shrinks : ∀ v t, s'.watchers v = some t → s.watchers v = some t
  tails : ∀ P, T P → s'.tails.find? P = none
  gone : ∀ P v, T P → s.tails.find? P = some (some v) → s'.watchers v = none

theorem Stopped.trans (h : Stopped T s s') (h' : Stopped T' s' s'') :
    Stopped (fun P => T P ∨ T' P) s s'' where
  wf := h'.wf
  frame := (h.frame.mono fun _ => Or.inl).trans (h'.frame.mono fun _ => Or.inr)
  shrinks v t hv := h.shrinks v t (h'.shrinks v t hv)
  tails P hP := by
    by_cases hP' : T' P
    · exact h'.tails P hP'
    · rw [h'.frame.tails P hP']
      exact h.tails P (hP.resolve_right hP')
  gone P v hP hv := by
    by_cases hP₁ : T P
    · cases hv'' : s''.watchers v with
      | none => rfl
      | some t =>
          have hv' := h'.shrinks v t hv''
          rw [h.gone P v hP₁ hv] at hv'
          cases hv'
    · exact h'.gone P v (hP.resolve_left hP₁) ((h.frame.tails P hP₁).trans hv)

theorem Stopped.congr (h : Stopped T s s') (hT : ∀ P, T P ↔ T' P) : Stopped T' s s' := by
  have : T = T' := funext fun P => propext (hT P)
  exact this ▸ h

/-- An entry removed from the map, with its place. -/
theorem wp_removeEntry {L : List Mutex} {pek : PositionEntryKey} {Q : Unit → Manager → Prop}
    (hs : s.Wf)
    (h : ∀ s', s'.Wf → Frame (· = pek.pathPattern) s s' → s'.watchers = s.watchers → Q () s') :
    wp (removeEntry pek) Q E L s := by
  simp only [removeEntry, wp_bind, wp_get]
  cases hpe : s.peMap.find? pek with
  | none => exact h s hs Frame.refl rfl
  | some pe =>
      obtain ⟨hkey, -⟩ := hs.entries pek pe hpe
      have hentries : ({ s with
          peMap := s.peMap.erase pek
          slots := Function.update s.slots pe none
          removed := s.removed ++ (s.slots pe).toList.map fun slot => (pe, slot) } :
          Manager).EntriesOk := by
        intro pek' pe' hpe'
        have hpe' : (s.peMap.erase pek).find? pek' = some pe' := hpe'
        have hfound := OrdMap.find?_of_find?_erase hpe'
        obtain ⟨hkey', halive'⟩ := hs.entries pek' pe' hfound
        have hne : pe' ≠ pe := by
          rintro rfl
          have : pek' = pek := hkey'.symm.trans hkey
          rw [this, OrdMap.find?_erase_self] at hpe'
          cases hpe'
        refine ⟨hkey', ?_⟩
        show (Function.update s.slots pe none pe').isSome
        rwa [Function.update_of_ne hne]
      refine h _ ⟨hs.watchers_lt, hs.tails_lt, hs.tails_pattern, hs.entry_pattern, hentries⟩
        ⟨rfl, rfl, rfl, Nat.le_refl _, List.Subset.refl _, fun _ _ => rfl, fun _ _ => Or.inl,
          fun _ _ _ => Iff.rfl, ?_, ?_⟩ rfl
      · intro pe' hpe'
        refine Function.update_of_ne ?_ _ _
        rintro rfl
        exact hpe' (by rw [hkey])
      · intro l hl
        rw [List.mem_append]
        refine or_iff_left fun hmem => ?_
        obtain ⟨_, -, rfl⟩ := List.mem_map.mp hmem
        exact hl (by rw [hkey])

/-- The watcher of `P`, once closed, is deleted and taken out of the map. -/
theorem Stopped.unregister (hs' : s'.Wf) (hf : Frame (· = P) s s')
    (hw' : s'.watchers tw = some t') (hP : t'.pathPattern = P)
    (hothers : ∀ v, v ≠ tw → s'.watchers v = s.watchers v)
    (htail : s.tails.find? P = some (some tw)) : Stopped (· = P) s (s'.unregister P tw) where
  wf := hs'.unregister
  frame := hf.trans (Frame.unregister hw' hP)
  shrinks v t₀ hv := by
    by_cases hvw : v = tw
    · subst hvw
      have hv : Function.update s'.watchers v none v = some t₀ := hv
      rw [Function.update_self] at hv
      cases hv
    · have hv := of_update_none hv
      rwa [hothers v hvw] at hv
  tails := by
    rintro _ rfl
    exact OrdMap.find?_erase_self _ _
  gone := by
    rintro _ v rfl hv
    rw [htail] at hv
    cases hv
    exact Function.update_self ..

/-- One round of `stopWatchers`. -/
theorem wp_stopWatchers_cons {unwatched : Bool} {ps : List Str} {Q : Unit → Manager → Prop}
    (hs : s.Wf) (hE : ∀ c, E (.crash c))
    (h : ∀ s', Stopped (· = P) s s' →
      wp (stopWatchers cfg env true unwatched ps) Q E [.tailWatchers] s') :
    wp (stopWatchers cfg env true unwatched (P :: ps)) Q E [.tailWatchers] s := by
  simp only [stopWatchers, wp_bind, wp_get]
  split
  · next hnone =>
      refine h s ⟨hs, Frame.refl, fun _ _ h => h, ?_, ?_⟩
      · rintro _ rfl
        exact hnone
      · rintro _ v rfl hv
        rw [hnone] at hv
        cases hv
  · exact hE _
  · next tw htail =>
      simp only [modifyWatcher, wp_bind, if_true]
      refine wp_getWatcher_of (hE _) fun t hw => ?_
      have hP : t.pathPattern = P := hs.tails_pattern P tw t htail hw
      rw [wp_setWatcher]
      -- the watcher is marked, stopped and closed
      have hl₁ : Local tw t.pathPattern s { s with
          watchers := Function.update s.watchers tw (some { t with unwatched := unwatched }) } :=
        Local.setWatcher
      have hs₁ := hs.local hl₁ hw (Function.update_self ..) rfl rfl
      refine wp_closeWatcher (t := { t with unwatched := unwatched }) (Function.update_self ..)
        hs₁.entries (hs.entry_pattern tw t hw) (by simp) (by simp) (hE _) (fun _ => hE _) ?_
      intro s₂ t₂ hl₂ hw₂ hk₂ _ _
      have hl : Local tw t.pathPattern s s₂ := hl₁.trans hl₂
      have hs₂ : s₂.Wf := hs.local hl hw hw₂ hk₂.pathPattern hk₂.positionEntry
      have hf₂ : Frame (· = P) s s₂ := hP ▸ hl.frame hw hw₂ rfl hk₂.pathPattern
      -- its entry is removed
      rw [if_pos rfl]
      refine wp_removeEntry hs₂ ?_
      intro s₃ hs₃ hf₃ hw₃
      have hf₃ : Frame (· = P) s₂ s₃ := hf₃.mono fun Q hQ => hQ.trans hP
      have hw₃' : s₃.watchers tw = some t₂ := (congrFun hw₃ tw).trans hw₂
      -- and it is deleted
      rw [wp_delete hw₃' (by simp) (by simp), wp_modify]
      refine h _ (Stopped.unregister hs₃ (hf₂.trans hf₃) hw₃' (hk₂.pathPattern.trans hP)
        (fun v hv => ?_) htail)
      rw [hw₃, hl.others v hv]

theorem wp_stopWatchers {unwatched : Bool} (hE : ∀ c, E (.crash c)) :
    ∀ (ps : List Str) (s : Manager), s.Wf →
      wp (stopWatchers cfg env true unwatched ps) (fun _ s' => Stopped (· ∈ ps) s s') E
        [.tailWatchers] s
  | [], s, hs => by
      refine ⟨hs, Frame.refl, fun _ _ h => h, ?_, ?_⟩
      · intro P hP
        cases hP
      · intro P v hP
        cases hP
  | P :: ps, s, hs => by
      refine wp_stopWatchers_cons hs hE ?_
      intro s' hst
      refine (wp_stopWatchers hE ps s' hst.wf).conseq ?_
      intro _ s'' hst'
      exact (hst.trans hst').congr fun Q => List.mem_cons.symm

/-! ## Updating

The round of `updateWatchers`, step by step as in the source, and the four outcomes
it can have.
-/

/-- `tw` is the watcher of `P` and `task` its task. -/
structure Watched (s : Manager) (P : Str) (task : Task) (tw : WatcherId) (t : TailWatcher) :
    Prop where
  task : s.tasks.find? P = some task
  tail : s.tails.find? P = some (some tw)
  watcher : s.watchers tw = some t

/-- Work for other patterns leaves the watcher of `P` as it was. -/
theorem Frame.watcher_iff (hf : Frame T s s') (hP : ¬ T P) (hs : s.Wf) (hs' : s'.Wf)
    (htail : s.tails.find? P = some (some tw)) :
    s'.watchers tw = some t ↔ s.watchers tw = some t := by
  constructor
  · intro hw
    have ht := hs'.tails_pattern P tw t ((hf.tails P hP).trans htail) hw
    exact (hf.watchers tw t (ht ▸ hP)).mp hw
  · intro hw
    have ht := hs.tails_pattern P tw t htail hw
    exact (hf.watchers tw t (ht ▸ hP)).mpr hw

theorem Frame.watched_iff {task : Task} (hf : Frame T s s') (hP : ¬ T P) (hs : s.Wf)
    (hs' : s'.Wf) : Watched s' P task tw t ↔ Watched s P task tw t := by
  constructor
  · intro hp
    have htail := (hf.tails P hP).symm.trans hp.tail
    exact ⟨hf.tasks ▸ hp.task, htail, (hf.watcher_iff hP hs hs' htail).mp hp.watcher⟩
  · intro hp
    have htail := (hf.tails P hP).trans hp.tail
    exact ⟨hf.tasks.symm ▸ hp.task, htail, (hf.watcher_iff hP hs hs' hp.tail).mpr hp.watcher⟩

/-- `t'` is what the watcher `t` becomes when it is made to follow `enabled`. -/
structure Follows (enabled : Bool) (t t' : TailWatcher) : Prop where
  pathPattern : t'.pathPattern = t.pathPattern
  positionEntry : t'.positionEntry = t.positionEntry
  same : enabled = t.conf.valid → t' = t
  conf : t'.conf = { t.conf with valid := enabled }
  running : enabled ≠ t.conf.valid → t'.running = enabled

theorem Follows.valid {enabled : Bool} (h : Follows enabled t t') : t'.conf.valid = enabled :=
  congrArg TaskConf.valid h.conf

theorem wp_start {Q : Unit → Manager → Prop} (hs : s.Wf) (hE : ∀ c, E (.crash c))
    (hw : s.watchers tw = some t)
    (hup : HandsOver env s t → E (.selfDeadlock .tailWatchers))
    (h : ∀ s' t', Local tw t.pathPattern s s' → s'.watchers tw = some t' → Kept t t' →
      t'.running = true → Q () s') :
    wp (TailWatcher.start cfg env tw) Q E [.tailWatchers] s := by
  simp only [TailWatcher.start, TailWatcher.onNotify, wp_bind]
  rw [wp_modifyWatcher hw, wp_scopedLock (by simp)]
  have hP := hs.entry_pattern tw t hw
  refine wp_notifyRotateHandler (t := { t with running := true }) (Function.update_self ..) hP
    (by simp) (by simp) (fun _ => hE _) ?_ ?_
  · intro s₁ t₁ hl₁ hw₁ hk₁ hrun₁
    have hP₁ : t₁.positionEntry.key.pathPattern = t.pathPattern := hk₁.positionEntry ▸ hP
    rw [wp_scopedLock (by simp)]
    refine wp_notifyIoHandler hw₁ hP₁ (by simp) (hE _) (fun _ => hE _) ?_
    intro s₂ t₂ hl₂ hw₂ hk₂ hrun₂ _
    have hk : Kept t { t with running := true } := ⟨rfl, rfl, rfl, rfl⟩
    exact h s₂ t₂ ((Local.setWatcher.trans hl₁).trans hl₂) hw₂ (hk.trans (hk₁.trans hk₂))
      (hrun₂.trans hrun₁)
  · -- the callback locks what `refreshWatchers` holds
    intro hover
    simp only [wp_bind]
    unfold updateWatcherRotate
    rw [wp_scopedLock_held (by simp)]
    exact hup hover

theorem wp_followEnabled {task : Task} {Q : Unit → Manager → Prop} (hs : s.Wf)
    (hE : ∀ c, E (.crash c)) (hw : s.watchers tw = some t)
    (hup : task.conf.valid = true → t.conf.valid = false → HandsOver env s t →
      E (.selfDeadlock .tailWatchers))
    (h : ∀ s' t', Local tw t.pathPattern s s' → s'.watchers tw = some t' →
      Follows task.conf.valid t t' → Q () s') :
    wp (followEnabled cfg env task tw) Q E [.tailWatchers] s := by
  unfold followEnabled Task.getEnabled TailWatcher.getEnabled
  simp only [wp_bind]
  rw [wp_getWatcher hw]
  simp only [wp_ite, wp_bind, wp_pure]
  have hP := hs.entry_pattern tw t hw
  split
  · next hon =>
      have hoff : t.conf.valid = false := by simpa using hon.2
      refine wp_start hs hE hw (hup hon.1 hoff) ?_
      intro s₁ t₁ hl₁ hw₁ hk₁ hrun₁
      rw [wp_modifyWatcher hw₁]
      have hw₂ : Function.update s₁.watchers tw (some (t₁.setEnabled true)) tw
          = some (t₁.setEnabled true) := Function.update_self ..
      refine (wp_getWatcher hw₂).mpr ?_
      rw [if_neg (fun hc => hc.1 hon.1)]
      refine h _ _ (hl₁.trans Local.setWatcher) hw₂ ⟨hk₁.pathPattern, hk₁.positionEntry, ?_, ?_, ?_⟩
      · intro heq
        rw [hon.1, hoff] at heq
        cases heq
      · show ({ t₁.conf with valid := true } : TaskConf) = _
        rw [hk₁.conf, hon.1]
      · intro _
        exact hrun₁.trans hon.1.symm
  · next hoff =>
      rw [wp_getWatcher hw]
      split
      · next hon =>
          have hdis : task.conf.valid = false := by simpa using hon.1
          refine wp_stop hw hP (by simp) (by simp) (hE _) (fun _ => hE _) ?_
          intro s₁ t₁ hl₁ hw₁ hk₁ hrun₁ _ _
          rw [wp_modifyWatcher hw₁]
          refine h _ (t₁.setEnabled false) (hl₁.trans Local.setWatcher) (Function.update_self ..)
            ⟨hk₁.pathPattern, hk₁.positionEntry, ?_, ?_, ?_⟩
          · intro heq
            rw [hdis, hon.2] at heq
            cases heq
          · show ({ t₁.conf with valid := false } : TaskConf) = _
            rw [hk₁.conf, hdis]
          · intro _
            exact hrun₁.trans hdis.symm
      · next hon =>
          have heq : task.conf.valid = t.conf.valid := by
            cases h₁ : task.conf.valid <;> cases h₂ : t.conf.valid <;> simp_all
          have hconf : t.conf = { t.conf with valid := task.conf.valid } := by rw [heq]
          exact h s t Local.refl hw ⟨rfl, rfl, fun _ => rfl, hconf, fun hne => absurd heq hne⟩

/-- The new watcher of `P` that `setupWatcher` made of `task`, or `NULL`. -/
def Renewed (env : Env) (P : Str) (task : Task) (s s' : Manager) : Prop :=
  (∃ pe, s'.tails.find? P = some (some s.nextWatcher) ∧
    s'.watchers s.nextWatcher = some (TailWatcher.init P task.getPath pe task.conf) ∧
    (s'.slots pe).isSome) ∨
  ¬ env.SetsUp s.producers task.conf ∧ s'.tails.find? P = some none ∧ s'.watchers s.nextWatcher = none

/-- One round of `updateWatchers`. -/
inductive Updated (env : Env) (P : Str) (s s' : Manager) : Prop
  | same {task : Task} {tw : WatcherId} {t : TailWatcher} (hp : Watched s P task tw t)
      (hsame : task.conf.same t.conf = true) (hpath : task.getPath = t.path) (heq : s' = s)
  /-- the path changed: the watcher is stopped and another one started -/
  | moved {task : Task} {tw : WatcherId} {t : TailWatcher} {s₁ : Manager}
      (hp : Watched s P task tw t) (hsame : task.conf.same t.conf = true)
      (hpath : task.getPath ≠ t.path)
      (hstop : Stopped (· = P) s s₁) (hstart : Started (· = P) s₁ s')
      (hnew : task.conf.valid = true → env.SetsUp s.producers task.conf →
        ∃ v, s'.tails.find? P = some (some v))
  /-- only `valid` changed -/
  | toggled {task : Task} {tw : WatcherId} {t t' : TailWatcher} (hp : Watched s P task tw t)
      (hne : task.conf.valid ≠ t.conf.valid) (hout : task.conf.sameOutput t.conf = true)
      (hl : Local tw P s s')
      (hw : s'.watchers tw = some t') (hf : Follows task.conf.valid t t')
  /-- the output changed: there is a new watcher, and the old one is left -/
  | replaced {task : Task} {tw : WatcherId} {t t' : TailWatcher} (hp : Watched s P task tw t)
      (hout : task.conf.sameOutput t.conf = false)
      (hold : s'.watchers tw = some t') (hP : t'.pathPattern = P)
      (hrun : t'.running = (task.conf.valid && !t.conf.valid))
      (others : ∀ v, v ≠ tw → v ≠ s.nextWatcher → s'.watchers v = s.watchers v)
      (hnew : Renewed env P task s s')

theorem wp_replaceWatcher {task : Task} {Q : Unit → Manager → Prop} (hs : s.Wf)
    (hE : ∀ c, E (.crash c)) (hw : s.watchers tw = some t) (ht : t.pathPattern = P)
    (h : ∀ s' t', s'.Wf → Frame (· = P) s s' → s'.watchers tw = some t' → Kept t t' →
      t'.running = false → t'.Closed →
      (∀ v, v ≠ tw → v ≠ s.nextWatcher → s'.watchers v = s.watchers v) →
      Renewed env P task s s' → Q () s') :
    wp (replaceWatcher cfg env task tw P) Q E [.tailWatchers] s := by
  have hlt := hs.watchers_lt tw t hw
  unfold replaceWatcher
  rw [wp_bind]
  refine wp_closeWatcher hw hs.entries (hs.entry_pattern tw t hw) (by simp) (by simp) (hE _)
    (fun _ => hE _) ?_
  intro s₁ t₁ hl₁ hw₁ hk₁ hrun₁ hclosed
  rw [if_neg (by simp), wp_pure, wp_bind, wp_getWatcher hw₁, wp_bind]
  have hs₁ : s₁.Wf := hs.local hl₁ hw hw₁ hk₁.pathPattern hk₁.positionEntry
  have hf₁ : Frame (· = P) s s₁ := ht ▸ hl₁.frame hw hw₁ rfl hk₁.pathPattern
  refine wp_getEntry ?_
  intro pe s₂ hl₂ hw₂ hpe
  obtain ⟨hkey, halive⟩ := hpe hs₁.entries
  have hP : pe.key.pathPattern = P := by rw [hkey]
  have hs₂ : s₂.Wf := hs₁.of_watchers (hl₂ 0) hw₂
  have hf₂ : Frame (· = P) s s₂ := hf₁.trans (Local.frame_of_watchers hl₂ hw₂)
  have hnext : s₂.nextWatcher = s.nextWatcher := (hl₂ 0).nextWatcher.trans hl₁.nextWatcher
  have hproducers : s₂.producers = s.producers := (hl₂ 0).producers.trans hl₁.producers
  have hwt : s₂.watchers tw = some t₁ := (congrFun hw₂ tw).trans hw₁
  have hothers : ∀ v, v ≠ tw → s₂.watchers v = s.watchers v := fun v hv =>
    (congrFun hw₂ v).trans (hl₁.others v hv)
  rw [wp_bind]
  refine wp_setupWatcher (by simp) (by simp) (hE _) ?_ ?_
  · intro ps hps
    have hne : tw ≠ s₂.nextWatcher := Nat.ne_of_lt (hnext ▸ hlt)
    rw [wp_modify]
    refine h (s₂.register P ps (TailWatcher.init P task.getPath pe task.conf)) t₁
      (hs₂.register rfl hP) (hf₂.trans (Frame.register hs₂ hps rfl)) ?_ hk₁ hrun₁ hclosed ?_ ?_
    · exact (Function.update_of_ne hne _ _).trans hwt
    · intro v hv hvn
      exact (Function.update_of_ne (hnext ▸ hvn) _ _).trans (hothers v hv)
    · unfold Renewed
      rw [← hnext]
      exact Or.inl ⟨pe, OrdMap.find?_insert_self _ _ _, Function.update_self .., halive⟩
  · intro hfail
    rw [hproducers] at hfail
    rw [wp_modify]
    refine h _ t₁ hs₂.insertNull (hf₂.trans Frame.insertNull) hwt hk₁ hrun₁ hclosed
      (fun v hv _ => hothers v hv) (Or.inr ⟨hfail, OrdMap.find?_insert_self _ _ _, ?_⟩)
    rw [← hnext]
    exact hs₂.watchers_next

/-- A watcher that `refreshWatchers` starts, and whose file was replaced while
it was stopped. -/
def Deadlocks (env : Env) (P : Str) (s : Manager) : Prop :=
  ∃ task tw t, Watched s P task tw t ∧ task.conf.sameOutput t.conf = true ∧
    task.conf.valid = true ∧ t.conf.valid = false ∧ HandsOver env s t

theorem not_handsOver_of_closed (h : t.Closed) : ¬ HandsOver env s t := by
  rintro ⟨_, _, r, _, _, _, hr, hopen, _⟩
  rw [h r hr] at hopen
  cases hopen

/-- The path changed: the watcher is stopped, and another one started. -/
theorem wp_moveWatcher {task : Task} {Q : Unit → Manager → Prop} (hs : s.Wf)
    (hE : ∀ c, E (.crash c)) (htask : s.tasks.find? P = some task)
    (h : ∀ s₁ s', Stopped (· = P) s s₁ → Started (· = P) s₁ s' →
      (task.conf.valid = true → env.SetsUp s.producers task.conf →
        ∃ v, s'.tails.find? P = some (some v)) → Q () s') :
    wp (stopWatchers cfg env true true [P])
      (fun _ s₁ => wp (startWatchers env [P]) Q E [.tailWatchers] s₁) E [.tailWatchers] s := by
  refine wp_stopWatchers_cons hs hE fun s₁ hstop => ?_
  have htask₁ : s₁.tasks.find? P = some task := hstop.frame.tasks.symm ▸ htask
  refine wp_startWatchers_cons hstop.wf hE ?_ ?_
  · intro task' htask' hleave
    cases htask₁.symm.trans htask'
    refine h s₁ s₁ hstop (Started.refl hstop.wf) fun hvalid _ => ?_
    rcases hleave with hleave | hleave
    · rw [hvalid] at hleave
      cases hleave
    · rw [hstop.tails P rfl] at hleave
      cases hleave
  · intro task' s₂ htask' _ _ hstart hnew
    cases htask₁.symm.trans htask'
    exact h s₁ s₂ hstop hstart fun _ hup => hnew (hup.mono hstop.frame.producers)

/-- The watcher was replaced, and the old one made to follow the task. -/
theorem Updated.of_replaced {task : Task} {s₁ : Manager} {t₁ t₂ : TailWatcher} (hs : s.Wf)
    (hp : Watched s P task tw t) (hout : task.conf.sameOutput t.conf = false) (hk₁ : Kept t t₁)
    (hP : t₁.pathPattern = P) (hrun₁ : t₁.running = false)
    (hothers : ∀ v, v ≠ tw → v ≠ s.nextWatcher → s₁.watchers v = s.watchers v)
    (hnew : Renewed env P task s s₁) (hl : Local tw P s₁ s') (hw₂ : s'.watchers tw = some t₂)
    (hfollows : Follows task.conf.valid t₁ t₂) : Updated env P s s' := by
  have hne : s.nextWatcher ≠ tw := (Nat.ne_of_lt (hs.watchers_lt tw t hp.watcher)).symm
  refine .replaced hp hout hw₂ (hfollows.pathPattern.trans hP) ?_ (fun v hv hvn => ?_) ?_
  · -- the old watcher is closed, and runs again if it is started
    rw [← hk₁.conf]
    by_cases heq : task.conf.valid = t₁.conf.valid
    · rw [hfollows.same heq, hrun₁, heq]
      cases t₁.conf.valid <;> rfl
    · rw [hfollows.running heq]
      cases h₁ : task.conf.valid <;> cases h₂ : t₁.conf.valid <;> simp_all
  · exact (hl.others v hv).trans (hothers v hv hvn)
  · unfold Renewed
    rw [hl.tails, hl.others _ hne]
    rcases hnew with ⟨pe, h₁, h₂, h₃⟩ | hnull
    · exact Or.inl ⟨pe, h₁, h₂, hl.alive pe h₃⟩
    · exact Or.inr hnull

theorem wp_updateWatchersBody {Q : Unit → Manager → Prop} (hs : s.Wf) (hE : ∀ c, E (.crash c))
    (hdead : Deadlocks env P s → E (.selfDeadlock .tailWatchers))
    (h : ∀ s', s'.Wf → Frame (· = P) s s' → Updated env P s s' → Q () s') :
    wp (updateWatchersBody cfg env P) Q E [.tailWatchers] s := by
  simp only [updateWatchersBody, wp_bind, wp_get]
  split
  · next task tw htask htail =>
      simp only [wp_bind]
      refine wp_getWatcher_of (hE _) fun t hw => ?_
      have hp : Watched s P task tw t := ⟨htask, htail, hw⟩
      have ht : t.pathPattern = P := hs.tails_pattern P tw t htail hw
      simp only [wp_ite, wp_bind]
      split
      · next hsame =>
          split
          · next hpath =>
              refine wp_moveWatcher hs hE htask fun s₁ s' hstop hstart hnew => ?_
              exact h s' hstart.wf (hstop.frame.trans hstart.frame)
                (.moved hp hsame hpath hstop hstart hnew)
          · next hpath => exact h s hs Frame.refl (.same hp hsame (not_not.mp hpath) rfl)
      · next hdiff =>
          split
          · next hout =>
              have hout : task.conf.sameOutput t.conf = false := by simpa using hout
              refine wp_replaceWatcher hs hE hw ht ?_
              intro s₁ t₁ hs₁ hf₁ hw₁ hk₁ hrun₁ hclosed hothers hnew
              -- a closed watcher does not hand over
              refine wp_followEnabled hs₁ hE hw₁
                (fun _ _ hover => absurd hover (not_handsOver_of_closed hclosed)) ?_
              intro s₂ t₂ hl₂ hw₂ hfollows
              have ht₁ : t₁.pathPattern = P := hk₁.pathPattern.trans ht
              have hl₂ : Local tw P s₁ s₂ := ht₁ ▸ hl₂
              exact h s₂ (hs₁.local hl₂ hw₁ hw₂ hfollows.pathPattern hfollows.positionEntry)
                (hf₁.trans (hl₂.frame hw₁ hw₂ ht₁ (hfollows.pathPattern.trans ht₁)))
                (.of_replaced hs hp hout hk₁ ht₁ hrun₁ hothers hnew hl₂ hw₂ hfollows)
          · next hout =>
              have hout : task.conf.sameOutput t.conf = true := by simpa using hout
              have hne : task.conf.valid ≠ t.conf.valid := fun heq =>
                hdiff ((TaskConf.same_iff _ _).mpr ⟨heq, hout⟩)
              refine wp_followEnabled hs hE hw
                (fun hon hoff hover => hdead ⟨task, tw, t, hp, hout, hon, hoff, hover⟩) ?_
              intro s₁ t₁ hl₁ hw₁ hfollows
              have hl₁ : Local tw P s s₁ := ht ▸ hl₁
              exact h s₁ (hs.local hl₁ hw hw₁ hfollows.pathPattern hfollows.positionEntry)
                (hl₁.frame hw hw₁ ht (hfollows.pathPattern.trans ht))
                (.toggled hp hne hout hl₁ hw₁ hfollows)
  · exact hE _

/-! ## A fact about a pattern, over the whole loop

The loop does the rounds of all patterns; only its own changes what is known of a
pattern.
-/

/-- Work for other patterns does not touch it. -/
def Stable (F : Str → Manager → Prop) : Prop :=
  ∀ P T s s', ¬ T P → Frame T s s' → s.Wf → s'.Wf → F P s → F P s'

/-- No producer is lost. -/
theorem stable_made (ps : List Str) : Stable fun _ s => ps ⊆ s.producers :=
  fun _ _ _ _ _ hf _ _ h => List.Subset.trans h hf.producers

/-- What a round needs and what it establishes, for every pattern of the loop. -/
theorem wp_updateWatchers {Pre Post : Str → Manager → Prop} (hE : ∀ c, E (.crash c))
    (hpre : Stable Pre) (hpost : Stable Post)
    (hdead : ∀ P s, Pre P s → Deadlocks env P s → E (.selfDeadlock .tailWatchers))
    (hround : ∀ P s s', s.Wf → s'.Wf → Frame (· = P) s s' → Pre P s → Updated env P s s' →
      Post P s') :
    ∀ (ps : List Str) (s : Manager), ps.Nodup → s.Wf → (∀ P ∈ ps, Pre P s) →
      wp (updateWatchers cfg env ps) (fun _ s' => s'.Wf ∧ Frame (· ∈ ps) s s' ∧ ∀ P ∈ ps, Post P s')
        E [.tailWatchers] s
  | [], s, _, hs, _ => ⟨hs, Frame.refl, fun P hP => absurd hP List.not_mem_nil⟩
  | P :: ps, s, hnd, hs, hps => by
      obtain ⟨hP, hnd⟩ := List.nodup_cons.mp hnd
      unfold updateWatchers
      rw [wp_bind]
      refine wp_updateWatchersBody hs hE (hdead P s (hps P List.mem_cons_self)) ?_
      intro s₁ hs₁ hf₁ hup
      have hpre₁ : ∀ Q ∈ ps, Pre Q s₁ := by
        intro Q hQ
        have hne : ¬ Q = P := fun heq => hP (heq ▸ hQ)
        exact hpre Q (· = P) s s₁ hne hf₁ hs hs₁ (hps Q (List.mem_cons_of_mem _ hQ))
      refine (wp_updateWatchers hE hpre hpost hdead hround ps s₁ hnd hs₁ hpre₁).conseq ?_
      rintro _ s₂ ⟨hs₂, hf₂, hall⟩
      refine ⟨hs₂, (hf₁.mono fun Q hQ => hQ ▸ List.mem_cons_self).trans
        (hf₂.mono fun Q => List.mem_cons_of_mem _), ?_⟩
      intro Q hQ
      rcases List.mem_cons.mp hQ with rfl | hQ
      · have hdone := hround Q s s₁ hs hs₁ hf₁ (hps Q List.mem_cons_self) hup
        exact hpost Q (· ∈ ps) s₁ s₂ hP hf₂ hs₁ hs₂ hdone
      · exact hall Q hQ

end Logkafka
