/-
# `Logkafka.Manager.Refresh` — one refresh

`refreshWatchers` in the order it works: the configuration is read, the tasks
are made those of the configuration and the old watchers are deleted
(`TasksRefreshed`), then the watchers of deleted patterns are stopped, those of
added ones started and the rest updated.  `wp_refreshWatchers` hands the state
from one part to the next.
-/
import Logkafka.Manager.Rounds

namespace Logkafka

open Manager PositionFile Prog

variable {cfg : Config} {env : Env} {E : Fault Mutex Crash → Prop}
  {P : Str} {tw : WatcherId} {t t' : TailWatcher} {s s' s'' : Manager} {T T' : Str → Prop}

/-! ## Tasks

Of the tables the loops over the tasks change the tasks alone, and what they make of
them is what the document says (`confAt`).
-/

/-- The settings of the task of `P`. -/
def confAt (tasks : OrdMap Str Task) (P : Str) : Option TaskConf :=
  (tasks.find? P).map Task.conf

theorem foldl_addPath_conf (ps : List Str) (task : Task) :
    (ps.foldl Task.addPath task).conf = task.conf := by
  induction ps generalizing task with
  | nil => rfl
  | cons p ps ih => exact (ih _).trans (Task.addPath_conf task p)

theorem firstUpdate_conf (task : Task) : (firstUpdate env s P task).conf = task.conf := by
  unfold firstUpdate addLastPaths
  split
  · split
    · rfl
    · exact (foldl_addPath_conf _ _).trans (Task.addPath_conf _ _)
  · rfl

/-- What is left of the queue is its end. -/
theorem wp_removeExpired {expandedPath : Str} {tail : Option (WatcherId × Str)}
    {Q : List Str → Manager → Prop} (hd : E (.crash .dangling)) :
    ∀ ps, (∀ paths, paths <:+ ps → Q paths s) →
      wp (removeExpired cfg env expandedPath tail ps) Q E [.tailWatchers] s
  | [], h => h [] List.suffix_rfl
  | firstPath :: paths, h => by
      have ih : wp (removeExpired cfg env expandedPath tail paths) Q E [.tailWatchers] s :=
        wp_removeExpired hd paths fun ps hps => h ps (hps.trans (List.suffix_cons _ _))
      unfold removeExpired
      split
      · split
        · exact ih
        · exact h _ List.suffix_rfl
      · next tw path =>
          split
          · rw [wp_bind]
            refine wp_active (by simp) (fun _ => hd) fun t _ => ?_
            rw [wp_ite]
            split
            · exact h _ List.suffix_rfl
            · exact ih
          · split
            · exact ih
            · exact h _ List.suffix_rfl

/-- The task at the end of `updateTaskPaths`, where `paths` were left. -/
def updatedTask (env : Env) (s : Manager) (P : Str) (task : Task) (paths : List Str) : Task :=
  Task.addPath { firstUpdate env s P task with
    stat := { (firstUpdate env s P task).stat with paths := paths } } (env.expandPath P)

theorem updatedTask_conf (env : Env) (s : Manager) (P : Str) (task : Task) (paths : List Str) :
    (updatedTask env s P task paths).conf = task.conf :=
  (Task.addPath_conf _ _).trans (firstUpdate_conf task)

theorem wp_updateTaskPaths {Q : Unit → Manager → Prop} {task : Task} (hd : E (.crash .dangling))
    (hnull : (∃ P, s.tails.find? P = some none) → E (.crash .nullPointer))
    (htask : s.tasks.find? P = some task)
    (h : ∀ paths, paths <:+ (firstUpdate env s P task).stat.paths →
      Q () { s with tasks := s.tasks.insert P (updatedTask env s P task paths) }) :
    wp (updateTaskPaths cfg env P) Q E [.tailWatchers] s := by
  simp only [updateTaskPaths, wp_bind, wp_get, htask]
  have hrest : ∀ tail, wp (removeExpired cfg env (env.expandPath P) tail
      (firstUpdate env s P task).stat.paths) (fun paths s' => Q () { s' with
        tasks := s'.tasks.insert P (Task.addPath { firstUpdate env s P task with
          stat := { (firstUpdate env s P task).stat with paths := paths } }
          (env.expandPath P)) }) E [.tailWatchers] s :=
    fun tail => wp_removeExpired (s := s) hd _ h
  simp only [tailPath, wp_bind, wp_get]
  split
  · exact hrest none
  · next hnone => exact hnull ⟨P, hnone⟩
  · next tw _ =>
      simp only [wp_bind]
      exact wp_getWatcher_of hd fun t _ => hrest (some (tw, t.path))

theorem wp_deleteTasks {Q : Unit → Manager → Prop} {L : List Mutex} :
    ∀ (ps : List Str) (s : Manager),
      (∀ m, (∀ P, confAt m P = if P ∈ ps then none else confAt s.tasks P) →
        Q () { s with tasks := m }) →
      wp (deleteTasks ps) Q E L s
  | [], s, h => h s.tasks fun P => (if_neg List.not_mem_nil).symm
  | P :: ps, s, h => by
      unfold deleteTasks
      rw [wp_bind, wp_modify]
      refine wp_deleteTasks ps _ fun m hm => h m fun Q => ?_
      rw [hm Q]
      by_cases hQ : Q ∈ ps
      · rw [if_pos hQ, if_pos (List.mem_cons_of_mem _ hQ)]
      · rw [if_neg hQ]
        unfold confAt
        rw [OrdMap.find?_erase]
        by_cases heq : Q = P
        · rw [if_pos heq, heq, if_pos List.mem_cons_self]
          rfl
        · rw [if_neg heq, if_neg (by simp [heq, hQ])]

/-- The next pattern of a loop gets the settings of the configuration. -/
theorem confAt_next {m m' : OrdMap Str Task} {task : Task} {conf : TaskConf} {ps : List Str}
    {confs : OrdMap Str TaskConf} (hconf : confs.find? P = some conf) (htask : task.conf = conf)
    (hm : ∀ Q, confAt m' Q = if Q ∈ ps then confs.find? Q else confAt (m.insert P task) Q)
    (Q : Str) : confAt m' Q = if Q ∈ P :: ps then confs.find? Q else confAt m Q := by
  rw [hm Q]
  by_cases hQ : Q ∈ ps
  · rw [if_pos hQ, if_pos (List.mem_cons_of_mem _ hQ)]
  · rw [if_neg hQ]
    unfold confAt
    rw [OrdMap.find?_insert]
    by_cases heq : Q = P
    · subst heq
      rw [if_pos rfl, if_pos List.mem_cons_self, hconf]
      exact congrArg some htask
    · rw [if_neg heq, if_neg (by simp [heq, hQ])]

theorem OrdMap.insert_insert_find? {κ α : Type*} [LinearOrder κ] (m : OrdMap κ α) (k k' : κ)
    (a b : α) : ((m.insert k a).insert k b).find? k' = (m.insert k b).find? k' := by
  simp only [OrdMap.find?_insert]
  split
  · rfl
  · rfl

theorem wp_addTasks {Q : Unit → Manager → Prop} (hd : E (.crash .dangling)) :
    ∀ (ps : List Str) (s : Manager), (∀ P ∈ ps, P ∈ s.taskConfs.keys) →
      ((∃ P, s.tails.find? P = some none) → E (.crash .nullPointer)) →
      (∀ m, (∀ P, confAt m P = if P ∈ ps then s.taskConfs.find? P else confAt s.tasks P) →
        Q () { s with tasks := m }) →
      wp (addTasks cfg env ps) Q E [.tailWatchers] s
  | [], s, _, _, h => h s.tasks fun P => (if_neg List.not_mem_nil).symm
  | P :: ps, s, hps, hnull, h => by
      simp only [addTasks, wp_bind, wp_get]
      split
      · next hconf =>
          exact absurd (hps P List.mem_cons_self) (OrdMap.not_mem_keys.mpr hconf)
      · next conf hconf =>
          let task : Task := ⟨cfg.pathQueueMaxSize, conf, ⟨true, []⟩⟩
          have htask : (s.tasks.insert P task).find? P = some task :=
            OrdMap.find?_insert_self _ _ _
          simp only [wp_bind, wp_modify]
          let s' : Manager := { s with tasks := s.tasks.insert P task }
          refine wp_updateTaskPaths (s := s') hd hnull htask fun paths _ => ?_
          refine wp_addTasks hd ps _ (fun Q hQ => hps Q (List.mem_cons_of_mem _ hQ)) hnull
            fun m hm => h m fun Q => ?_
          refine confAt_next hconf (updatedTask_conf env s' P task paths) (fun Q => ?_) Q
          rw [hm Q]
          unfold confAt
          rw [OrdMap.insert_insert_find?]

theorem wp_updateTasks {Q : Unit → Manager → Prop} (hd : E (.crash .dangling)) :
    ∀ (ps : List Str) (s : Manager),
      (∀ P ∈ ps, P ∈ s.taskConfs.keys ∧ P ∈ s.tasks.keys) →
      ((∃ P, s.tails.find? P = some none) → E (.crash .nullPointer)) →
      (∀ m, (∀ P, confAt m P = if P ∈ ps then s.taskConfs.find? P else confAt s.tasks P) →
        Q () { s with tasks := m }) →
      wp (updateTasks cfg env ps) Q E [.tailWatchers] s
  | [], s, _, _, h => h s.tasks fun P => (if_neg List.not_mem_nil).symm
  | P :: ps, s, hps, hnull, h => by
      simp only [updateTasks, wp_bind, wp_get]
      split
      · next task₀ conf _ hconf =>
          let task : Task := { task₀ with conf := conf }
          have htask : (s.tasks.insert P task).find? P = some task :=
            OrdMap.find?_insert_self _ _ _
          simp only [wp_bind, wp_modify]
          let s' : Manager := { s with tasks := s.tasks.insert P task }
          refine wp_updateTaskPaths (s := s') hd hnull htask fun paths _ => ?_
          refine wp_updateTasks hd ps _ (fun Q hQ => ?_) hnull fun m hm => h m fun Q => ?_
          · obtain ⟨hconfQ, htaskQ⟩ := hps Q (List.mem_cons_of_mem _ hQ)
            exact ⟨hconfQ, OrdMap.mem_keys_insert (OrdMap.mem_keys_insert htaskQ)⟩
          refine confAt_next hconf (updatedTask_conf env s' P task paths) (fun Q => ?_) Q
          rw [hm Q]
          unfold confAt
          rw [OrdMap.insert_insert_find?]
      · next hboth =>
          obtain ⟨hconf, htask⟩ := hps P List.mem_cons_self
          obtain ⟨conf, hconf⟩ := OrdMap.mem_keys.mp hconf
          obtain ⟨task, htask⟩ := OrdMap.mem_keys.mp htask
          exact absurd hconf (hboth task conf htask)

/-- The watchers of the list are deleted, and the list is empty. -/
theorem wp_deleteOld {Q : Unit → Manager → Prop} (hd : E (.crash .dangling)) :
    ∀ (tws : List WatcherId) (s : Manager),
      (∀ f, (∀ v, f v = if v ∈ tws then none else s.watchers v) →
        Q () { s with watchers := f, tailsDeleted := [] }) →
      wp (deleteOld tws) Q E [.tailWatchersDeleted, .tailWatchers] s
  | [], s, h => h s.watchers fun v => (if_neg List.not_mem_nil).symm
  | tw :: tws, s, h => by
      unfold deleteOld
      rw [wp_bind]
      cases hw : s.watchers tw with
      | none =>
          unfold TailWatcher.delete
          rw [wp_bind]
          exact wp_getWatcher_of hd fun t ht => absurd (hw.symm.trans ht) (by simp)
      | some t =>
          rw [wp_delete hw (by simp) (by simp)]
          refine wp_deleteOld hd tws _ fun f hf => h f fun v => ?_
          rw [hf v]
          by_cases hv : v ∈ tws
          · rw [if_pos hv, if_pos (List.mem_cons_of_mem _ hv)]
          · rw [if_neg hv]
            by_cases hvw : v = tw
            · subst hvw
              rw [if_pos List.mem_cons_self]
              exact Function.update_self ..
            · rw [if_neg (by simp [hvw, hv])]
              exact Function.update_of_ne hvw _ _

/-- The tasks are those of the configuration, and the old watchers are deleted. -/
structure TasksRefreshed (confs : OrdMap Str TaskConf) (s s' : Manager) : Prop where
  taskConfs : s'.taskConfs = confs
  tails : s'.tails = s.tails
  nextWatcher : s'.nextWatcher = s.nextWatcher
  slots : s'.slots = s.slots
  peMap : s'.peMap = s.peMap
  removed : s'.removed = s.removed
  tailsDeleted : s'.tailsDeleted = []
  producers : s'.producers = s.producers
  watchers : ∀ v, s'.watchers v = if v ∈ s.tailsDeleted then none else s.watchers v
  tasks : ∀ P, confAt s'.tasks P = confs.find? P

theorem TasksRefreshed.watcher {confs : OrdMap Str TaskConf} (h : TasksRefreshed confs s s')
    (hw : s'.watchers tw = some t) : s.watchers tw = some t := by
  rw [h.watchers] at hw
  split at hw
  · cases hw
  · exact hw

theorem TasksRefreshed.wf {confs : OrdMap Str TaskConf} (h : TasksRefreshed confs s s')
    (hs : s.Wf) : s'.Wf where
  watchers_lt v t hv := h.nextWatcher ▸ hs.watchers_lt v t (h.watcher hv)
  tails_lt Q v hv := h.nextWatcher ▸ hs.tails_lt Q v (h.tails ▸ hv)
  tails_pattern Q v t hQ hv := hs.tails_pattern Q v t (h.tails ▸ hQ) (h.watcher hv)
  entry_pattern v t hv := hs.entry_pattern v t (h.watcher hv)
  entries pek pe hpe := h.slots ▸ hs.entries pek pe (h.peMap ▸ hpe)

theorem wp_refreshTasks {Q : Unit → Manager → Prop} (hd : E (.crash .dangling))
    (hnull : (∃ P, s.tails.find? P = some none) → E (.crash .nullPointer))
    (h : ∀ s', TasksRefreshed s.taskConfs s s' → Q () s') :
    wp (refreshTasks cfg env) Q E [.tailWatchers] s := by
  simp only [refreshTasks, wp_bind, wp_get]
  refine wp_deleteTasks _ _ fun m₁ hm₁ => ?_
  refine wp_addTasks hd _ _ (fun P hP => (OrdSet.mem_diff.mp hP).1) hnull fun m₂ hm₂ => ?_
  have hconf : ∀ P, confAt m₂ P = if P ∈ s.taskConfs.keys then
      if P ∈ s.tasks.keys then confAt s.tasks P else s.taskConfs.find? P else none := by
    intro P
    rw [hm₂ P, hm₁ P]
    simp only [OrdSet.mem_elems, OrdSet.mem_diff]
    by_cases hconf : P ∈ s.taskConfs.keys
    · rw [if_pos hconf]
      by_cases htask : P ∈ s.tasks.keys
      · rw [if_neg (fun h => h.2 htask), if_neg (fun h => h.2 hconf), if_pos htask]
      · rw [if_pos ⟨hconf, htask⟩, if_neg htask]
    · rw [if_neg hconf, if_neg (fun h => hconf h.1)]
      split
      · rfl
      · next hnot =>
          have htask : P ∉ s.tasks.keys := fun htask => hnot ⟨htask, hconf⟩
          unfold confAt
          rw [OrdMap.not_mem_keys.mp htask]
          rfl
  refine wp_updateTasks hd _ _ (fun P hP => ?_) hnull fun m₃ hm₃ => ?_
  · obtain ⟨htask, hconfs⟩ := OrdSet.mem_inter.mp hP
    refine ⟨hconfs, ?_⟩
    obtain ⟨task, hfind⟩ := OrdMap.mem_keys.mp htask
    have hm₂P := hconf P
    rw [if_pos hconfs, if_pos htask] at hm₂P
    unfold confAt at hm₂P
    rw [hfind] at hm₂P
    obtain ⟨task', htask', -⟩ := Option.map_eq_some_iff.mp hm₂P
    exact OrdMap.mem_keys.mpr ⟨task', htask'⟩
  · rw [wp_scopedLock (by simp), wp_bind, wp_get]
    refine wp_deleteOld hd _ _ fun f hf =>
      h _ ⟨rfl, rfl, rfl, rfl, rfl, rfl, rfl, rfl, hf, fun P => ?_⟩
    show confAt m₃ P = s.taskConfs.find? P
    rw [hm₃ P, hconf P]
    simp only [OrdSet.mem_elems, OrdSet.mem_inter]
    by_cases hconfs : P ∈ s.taskConfs.keys
    · rw [if_pos hconfs]
      by_cases htask : P ∈ s.tasks.keys
      · rw [if_pos ⟨htask, hconfs⟩]
      · rw [if_neg (fun h => htask h.1), if_neg htask]
    · rw [if_neg hconfs, if_neg (fun h => hconfs h.2), OrdMap.not_mem_keys.mp hconfs]

/-! ## The refresh

The three sets of patterns are computed from the tables once the tasks are done,
and are disjoint, so each pattern is in one loop at most.
-/

/-- What the configuration says of each pattern, once it is read. -/
def newConfs (members : List (Str × Option TaskConf)) : OrdMap Str TaskConf :=
  readMembers members OrdMap.empty

theorem wp_refreshTaskConfs {Q : Bool → Manager → Prop} {L : List Mutex} (hL : .logConfig ∉ L)
    (hfail : (∀ members, env.document ≠ .object members) →
      ∀ confs, Q false { s with taskConfs := confs })
    (hok : ∀ members, env.document = .object members →
      Q true { s with taskConfs := newConfs members }) :
    wp (refreshTaskConfs env) Q E L s := by
  simp only [refreshTaskConfs, wp_bind]
  rw [wp_scopedLock hL, wp_pure]
  split
  · next hdoc => exact hfail (fun members h => by cases hdoc.symm.trans h) s.taskConfs
  · next hdoc => exact hfail (fun members h => by cases hdoc.symm.trans h) OrdMap.empty
  · next members hdoc => exact hok members hdoc

/-- The patterns without a task, those without a watcher, and those with both. -/
def Manager.deletedKeys (s : Manager) : OrdSet Str := s.tails.keys.diff s.tasks.keys

def Manager.addedKeys (s : Manager) : OrdSet Str := s.tasks.keys.diff s.tails.keys

def Manager.keptKeys (s : Manager) : OrdSet Str := s.tails.keys.inter s.tasks.keys

/-- The configuration is read and the tasks are brought up to date: the state in
which the refresh comes to the watchers. -/
def TasksDone (cfg : Config) (env : Env) (s s₁ : Manager) : Prop :=
  ∃ s₀, refreshTaskConfs env [.tailWatchers] s = .ok (true, s₀) ∧
    refreshTasks cfg env [.tailWatchers] s₀ = .ok ((), s₁)

theorem TasksDone.unique {s₁ s₂ : Manager} (h : TasksDone cfg env s s₁)
    (h' : TasksDone cfg env s s₂) : s₁ = s₂ := by
  obtain ⟨s₀, hconfs, htasks⟩ := h
  obtain ⟨s₀', hconfs', htasks'⟩ := h'
  cases hconfs.symm.trans hconfs'
  cases htasks.symm.trans htasks'
  rfl

/-- That state, if the refresh comes to it. -/
def tasksDone? (cfg : Config) (env : Env) (s : Manager) : Option Manager :=
  match refreshTaskConfs env [.tailWatchers] s with
  | .ok (true, s₀) =>
      match refreshTasks cfg env [.tailWatchers] s₀ with
      | .ok ((), s₁) => some s₁
      | .error _ => none
  | _ => none

theorem tasksDone?_eq_some {s₁ : Manager} :
    tasksDone? cfg env s = some s₁ ↔ TasksDone cfg env s s₁ := by
  unfold tasksDone? TasksDone
  split
  · next s₀ hconfs =>
      split
      · next htasks => simp [hconfs, htasks]
      · next htasks => simp [hconfs, htasks]
  · next hconfs =>
      refine iff_of_false (by simp) ?_
      rintro ⟨s₀, hconfs', -⟩
      exact hconfs s₀ hconfs'

theorem TasksDone.document {s₁ : Manager} (h : TasksDone cfg env s s₁) :
    ∃ members, env.document = .object members := by
  obtain ⟨s₀, hconfs, -⟩ := h
  have hwp : wp (refreshTaskConfs env) (fun ok _ => ok = true →
      ∃ members, env.document = .object members) (fun _ => True) [.tailWatchers] s :=
    wp_refreshTaskConfs (by simp) (fun _ _ h => by cases h) fun members hdoc _ => ⟨members, hdoc⟩
  exact hwp.ok hconfs rfl

/-- The refresh up to the watchers, and what is left of it. -/
theorem wp_refreshWatchers_parts {Q : Bool → Manager → Prop} (hs : s.Wf)
    (hd : E (.crash .dangling))
    (hnull : (∃ P, s.tails.find? P = some none) → E (.crash .nullPointer))
    (hfail : (∀ members, env.document ≠ .object members) →
      ∀ confs, Q false { s with taskConfs := confs })
    (hok : ∀ members s₁, env.document = .object members →
      TasksRefreshed (newConfs members) s s₁ → TasksDone cfg env s s₁ → s₁.Wf →
      wp (stopWatchers cfg env true true s₁.deletedKeys.elems) (fun _ s₂ =>
        wp (startWatchers env s₁.addedKeys.elems) (fun _ s₃ =>
          wp (updateWatchers cfg env s₁.keptKeys.elems) (fun _ => Q true) E [.tailWatchers] s₃)
          E [.tailWatchers] s₂) E [.tailWatchers] s₁) :
    wp (refreshWatchers cfg env) Q E [] s := by
  unfold refreshWatchers
  rw [wp_scopedLock (by simp), wp_bind]
  have hconfs : wp (refreshTaskConfs env) (fun ok s₀ =>
      (ok = false ∧ (∀ members, env.document ≠ .object members) ∧
        ∃ confs, s₀ = { s with taskConfs := confs }) ∨
      ok = true ∧ ∃ members, env.document = .object members ∧
        s₀ = { s with taskConfs := newConfs members }) E [.tailWatchers] s :=
    wp_refreshTaskConfs (by simp) (fun hdoc confs => Or.inl ⟨rfl, hdoc, confs, rfl⟩)
      fun members hdoc => Or.inr ⟨rfl, members, hdoc, rfl⟩
  refine hconfs.self.conseq ?_
  rintro ok s₀ ⟨⟨rfl, hdoc, confs, rfl⟩ | ⟨rfl, members, hdoc, rfl⟩, hread⟩
  · exact hfail hdoc confs
  · simp only [if_true, wp_bind]
    let s₀ : Manager := { s with taskConfs := newConfs members }
    have htasks : wp (refreshTasks cfg env) (fun _ s₁ => TasksRefreshed s₀.taskConfs s₀ s₁) E
        [.tailWatchers] s₀ := wp_refreshTasks hd hnull fun _ hr => hr
    refine htasks.self.conseq ?_
    rintro _ s₁ ⟨hr, hdone⟩
    have hr : TasksRefreshed (newConfs members) s s₁ :=
      ⟨hr.taskConfs, hr.tails, hr.nextWatcher, hr.slots, hr.peMap, hr.removed, hr.tailsDeleted,
        hr.producers, hr.watchers, hr.tasks⟩
    simp only [wp_get]
    exact hok members s₁ hdoc hr ⟨_, hread, hdone⟩ (hr.wf hs)

theorem wp_refreshWatchers {Q : Bool → Manager → Prop} (hs : s.Wf) (hE : ∀ c, E (.crash c))
    (hfail : ∀ confs, Q false { s with taskConfs := confs })
    (hok : ∀ members s₁ s₂, env.document = .object members →
      TasksRefreshed (newConfs members) s s₁ → s₁.Wf → Stopped (· ∈ s₁.deletedKeys) s₁ s₂ →
      wp (startWatchers env s₁.addedKeys.elems) (fun _ s₃ =>
        wp (updateWatchers cfg env s₁.keptKeys.elems) (fun _ => Q true) E [.tailWatchers] s₃)
        E [.tailWatchers] s₂) :
    wp (refreshWatchers cfg env) Q E [] s := by
  refine wp_refreshWatchers_parts hs (hE _) (fun _ => hE _) (fun _ => hfail) ?_
  intro members s₁ hdoc hr _ hs₁
  refine (wp_stopWatchers hE s₁.deletedKeys.elems s₁ hs₁).conseq fun _ s₂ hstop => ?_
  exact hok members s₁ s₂ hdoc hr hs₁ hstop

end Logkafka
