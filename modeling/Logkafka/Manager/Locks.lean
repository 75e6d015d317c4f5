/-
# `Logkafka.Manager.Locks` — no lock is taken twice

Nearly every path takes its locks one after another or from the Manager down to
a watcher.  One goes back up: a watcher's rotate handler may call
`updateWatcherRotate`, which locks `m_tail_watchers_mutex`.  From a trigger that
is fine, since `onRotate` has released its own lock by then.  From
`refreshWatchers` it is not: `updateWatchers` starts a watcher that was
disabled, `start` calls `onNotify`, and if the file was replaced meanwhile and
the old one is still open, the call comes back to the lock that
`refreshWatchers` holds.

`Reopens` is that situation in the state before the refresh.  Work for other
patterns does not bring it about, so without it no event deadlocks.
-/
import Logkafka.Manager.Rotate

namespace Logkafka

open Prog PositionFile Manager

variable {cfg : Config} {env : Env} {E : Fault Mutex Crash → Prop} {P : Str} {tw : WatcherId}
  {t : TailWatcher} {s s' : Manager}

/-- The new configuration enables `P` again and leaves its output as it was, and
the watcher of `P` would hand over if it were notified. -/
def Reopens (env : Env) (confs : OrdMap Str TaskConf) (P : Str) (s : Manager) : Prop :=
  ∃ tw t conf, s.tails.find? P = some (some tw) ∧ s.watchers tw = some t ∧
    confs.find? P = some conf ∧ conf.sameOutput t.conf = true ∧ conf.valid = true ∧
    t.conf.valid = false ∧ HandsOver env s t

/-- Work for other patterns does not make a watcher hand over. -/
theorem Deadlocks.of_frame {T : Str → Prop} (h : Deadlocks env P s') (hP : ¬ T P)
    (hf : Frame T s s') (hs : s.Wf) (hs' : s'.Wf) : Deadlocks env P s := by
  obtain ⟨task, tw, t, hp, hout, hon, hoff, opened, slot, r, hopened, hrot, hslot, hr, hopen,
    hne⟩ := h
  have ht : t.pathPattern = P := hs'.tails_pattern P tw t hp.tail hp.watcher
  refine ⟨task, tw, t, (hf.watched_iff hP hs hs').mp hp, hout, hon, hoff, opened, slot, r, hopened,
    hrot, ?_, hr, hopen, hne⟩
  rw [← hf.slots _ (by rw [hs'.entry_pattern tw t hp.watcher, ht]; exact hP)]
  exact hslot

theorem stable_not_deadlocks : Stable fun P s => ¬ Deadlocks env P s :=
  fun _ _ _ _ hP hf hs hs' h hdead => h (hdead.of_frame hP hf hs hs')

theorem Deadlocks.reopens {confs : OrdMap Str TaskConf} (h : Deadlocks env P s')
    (hr : TasksRefreshed confs s s') : Reopens env confs P s := by
  obtain ⟨task, tw, t, hp, hout, hon, hoff, opened, slot, r, hopened, hrot, hslot, hreader, hopen,
    hne⟩ := h
  refine ⟨tw, t, task.conf, hr.tails ▸ hp.tail, hr.watcher hp.watcher, ?_, hout, hon, hoff, opened,
    slot, r, hopened, hrot, hr.slots ▸ hslot, hreader, hopen, hne⟩
  rw [← hr.tasks P, confAt_eq_some]
  exact ⟨task, hp.task, rfl⟩

theorem wp_refreshWatchers_locks (hs : s.Wf) (hE : ∀ c, E (.crash c))
    (hdead : ∀ members P, env.document = .object members → Reopens env (newConfs members) P s →
      E (.selfDeadlock .tailWatchers)) :
    wp (refreshWatchers cfg env) (fun _ _ => True) E [] s := by
  by_cases hnone : E (.selfDeadlock .tailWatchers)
  · refine wp_refreshWatchers hs hE (fun _ => trivial) ?_
    intro members s₁ s₂ _ _ _ hstop
    refine (wp_startWatchers hE _ s₂ hstop.wf).conseq fun _ s₃ hstart => ?_
    exact (wp_updateWatchers hE stable_true stable_true (fun _ _ _ _ => hnone)
      (fun _ _ _ _ _ _ _ _ => trivial) _ s₃ (OrdSet.nodup _) hstart.wf fun _ _ => trivial).conseq
      fun _ _ _ => trivial
  · refine wp_refreshWatchers hs hE (fun _ => trivial) ?_
    intro members s₁ s₂ hdoc hr hs₁ hstop
    refine (wp_startWatchers hE _ s₂ hstop.wf).conseq fun _ s₃ hstart => ?_
    refine (wp_updateWatchers hE stable_not_deadlocks stable_true
      (fun _ _ h hd => absurd hd h) (fun _ _ _ _ _ _ _ _ => trivial) _ s₃ (OrdSet.nodup _)
      hstart.wf fun P hP hd => ?_).conseq fun _ _ _ => trivial
    -- a kept pattern is neither added nor deleted
    obtain ⟨htail, htask⟩ := OrdSet.mem_inter.mp hP
    have hd₂ := hd.of_frame (fun hadded => (OrdSet.mem_diff.mp hadded).2 htail) hstart.frame
      hstop.wf hstart.wf
    have hd₁ := hd₂.of_frame (fun hdel => (OrdSet.mem_diff.mp hdel).2 htask) hstop.frame hs₁
      hstop.wf
    exact hnone (hdead members P hdoc (hd₁.reopens hr))

/-- No watcher of a pattern that the refresh enables again would hand over. -/
def Unlocked (s : Manager) : Event → Prop
  | .refresh env => ∀ members, env.document = .object members → ∀ P,
      ¬ Reopens env (newConfs members) P s
  | _ => True

instance (s : Manager) : (e : Event) → Decidable (Unlocked s e)
  | .refresh env => decidable_of_iff (∀ members, env.document = .object members →
      ∀ P tw, s.tails.find? P = some (some tw) → ∀ t, s.watchers tw = some t →
      ∀ conf, (newConfs members).find? P = some conf → ¬ (conf.sameOutput t.conf = true ∧
        conf.valid = true ∧ t.conf.valid = false ∧ HandsOver env s t))
    ⟨fun h members hdoc P ⟨tw, t, conf, htail, hw, hconf, hre⟩ =>
      h members hdoc P tw htail t hw conf hconf hre,
     fun h members hdoc P tw htail t hw conf hconf hre =>
      h members hdoc P ⟨tw, t, conf, htail, hw, hconf, hre⟩⟩
  | .notify .. | .upload | .stop _ => isTrue trivial

/-- The event does not lock a lock it holds. -/
def NoSelfDeadlock (cfg : Config) (s : Manager) (e : Event) : Prop :=
  Enabled s e → ∀ m, exec cfg e [] s ≠ .error (.selfDeadlock m)

theorem noSelfDeadlock_of_wf (e : Event) (hs : s.Wf) (hu : Unlocked s e) :
    NoSelfDeadlock cfg s e := by
  intro henabled m herror
  have hE : ∀ c : Crash, ∀ m : Mutex, (.crash c : Fault Mutex Crash) ≠ .selfDeadlock m :=
    fun _ _ h => by cases h
  have hwp : wp (exec cfg e) (fun _ _ => True) (fun f => ∀ m, f ≠ .selfDeadlock m) [] s := by
    cases e with
    | refresh env =>
        unfold exec
        rw [wp_bind]
        refine wp_refreshWatchers_locks hs hE fun members P hdoc hre => ?_
        exact absurd hre (hu members hdoc P)
    | notify env tw =>
        obtain ⟨t, hw, -⟩ := henabled
        exact (wf_onNotify hs hE hw).conseq fun _ _ _ => trivial
    | upload => exact wp_uploadCollectingState hE trivial
    | stop env => exact wp_stop_manager hs hE fun _ _ => trivial
  exact hwp.error herror m rfl

/-- **No self-deadlock.**  In every run of the main loop whose refreshes find no
disabled watcher to start that would hand over, no event locks a mutex that the
thread holds. -/
theorem no_self_deadlock (cfg : Config) (pf : OrdMap PositionEntryKey Slot) (es : List Event)
    (h : Along (step cfg) Unlocked es (Manager.init pf)) :
    Along (step cfg) (NoSelfDeadlock cfg) es (Manager.init pf) :=
  along_of_inv wf_step (fun _ e hs hu => noSelfDeadlock_of_wf e hs hu) es _ (wf_init pf) h

/-- After a hand-over "b" is disabled, and enabled again with its file in place. -/
def flipped : List Event :=
  let replaced : Env := (atNoon .parseError (emptyFile 2 two_ne_none)).at 20000
    [.fread 0 0 false 20000]
  let setting (valid : Bool) : Document := .object [([98], some (plainConf valid [98])),
    ([99], some (plainConf true [99]))]
  handedOnce ++ [.refresh { replaced with document := setting false }, .upload,
    .refresh { replaced with document := setting true }, .notify replaced 2]

/-- The refresh that starts the watcher of "b" again does not lock twice, nor does
any other event of that run. -/
theorem no_self_deadlock_flipped :
    (run (step sizes) flipped (Manager.init OrdMap.empty)).isSome ∧
      Along (step sizes) (NoSelfDeadlock sizes) flipped (Manager.init OrdMap.empty) :=
  ⟨by decide +kernel, no_self_deadlock sizes OrdMap.empty flipped (by decide +kernel)⟩

/-- Whether the event stops at a lock that is held. -/
def selfDeadlocks (cfg : Config) (e : Event) (s : Manager) : Bool :=
  match exec cfg e [] s with
  | .error (.selfDeadlock _) => true
  | _ => false

theorem not_noSelfDeadlock {e : Event} (h : Enabled s e) (hdead : selfDeadlocks cfg e s = true) :
    ¬ NoSelfDeadlock cfg s e := by
  intro hno
  unfold selfDeadlocks at hdead
  split at hdead
  · next m herror => exact hno h m herror
  · cases hdead

/-- "b" is collected, disabled, and its file is replaced; when it is enabled
again the refresh locks `m_tail_watchers_mutex` twice. -/
theorem no_self_deadlock_fails :
    ∃ s, run (step sizes)
        [.refresh (atNoon (.object [([98], some (plainConf true [98]))]) (emptyFile 1 (by decide))),
        .notify (atNoon .parseError (emptyFile 1 (by decide))) 0,
        .refresh (atNoon (.object [([98], some (plainConf false [98]))]) (emptyFile 1 (by decide)))]
        (Manager.init OrdMap.empty) = some s ∧
      ¬ NoSelfDeadlock sizes s (.refresh
        (atNoon (.object [([98], some (plainConf true [98]))]) (emptyFile 2 (by decide)))) := by
  let reopened : Event := .refresh
    (atNoon (.object [([98], some (plainConf true [98]))]) (emptyFile 2 (by decide)))
  have h : ((run (step sizes)
      [.refresh (atNoon (.object [([98], some (plainConf true [98]))]) (emptyFile 1 (by decide))),
      .notify (atNoon .parseError (emptyFile 1 (by decide))) 0,
      .refresh (atNoon (.object [([98], some (plainConf false [98]))]) (emptyFile 1 (by decide)))]
      (Manager.init OrdMap.empty)).any fun s =>
        decide (Enabled s reopened) && selfDeadlocks sizes reopened s) = true := by
    decide +kernel
  obtain ⟨s, hrun, hdead⟩ := (Option.any_eq_true _ _).mp h
  have hdead := Bool.and_eq_true_iff.mp hdead
  exact ⟨s, hrun, not_noSelfDeadlock (of_decide_eq_true hdead.1) hdead.2⟩

end Logkafka
