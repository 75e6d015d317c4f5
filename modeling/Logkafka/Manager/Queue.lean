/-
# `Logkafka.Manager.Queue` — the paths of one task over its life

A task is made with an empty queue of paths, and from then on it is the task of
one call of `updateTaskPaths` after another.  `PathQueue.step` is such a call:
it runs `updateTaskPaths` on the task, with any settings an edit has left it,
in any Manager that has it (its position file and its watchers come with the
call), and notes what the queue has seen:

    caughtUp    the queue of the last call before paths were removed from it
    removed     the paths that were in the queue and are not
    requeued    the removed paths that were queued again, each with the
                expansion of that call
    handed      the paths that were at the front after a call, one after
                another: a watcher gets the path at the front

A queue whose calls find the saved path where it belongs (`CatchesUp`) stays in
order.  A call that catches up on a queue that is not empty may find it
elsewhere: `firstUpdatePaths` is only cleared where the files are caught up on,
so an edit that switches `follow_last` on brings the catch-up back.
-/
import Logkafka.Manager.Rotate

namespace Logkafka

open Manager PositionFile Prog

variable {cfg : Config} {env : Env} {P : Str} {s : Manager}

/-- No path can be added. -/
def Task.Full (task : Task) : Prop :=
  task.stat.paths ≠ [] ∧ task.pathQueueMaxSize ≤ task.stat.paths.length

/-! ## The calls on a task -/

/-- What one call of `updateTaskPaths` finds: the settings of the task and the
Manager. -/
structure PathsCall where
  env : Env
  manager : Manager
  conf : TaskConf

/-- The task under the settings of the call. -/
def PathsCall.edit (c : PathsCall) (task : Task) : Task := { task with conf := c.conf }

/-- The Manager of the call, with the task. -/
def PathsCall.entered (c : PathsCall) (P : Str) (task : Task) : Manager :=
  { c.manager with tasks := c.manager.tasks.insert P (c.edit task) }

/-- The queue of the call before paths are removed. -/
def PathsCall.caughtUp (c : PathsCall) (P : Str) (task : Task) : List Str :=
  (firstUpdate c.env (c.entered P task) P (c.edit task)).stat.paths

structure PathQueue where
  task : Task
  /-- the expansion of the last call -/
  expandedPath : Option Str
  caughtUp : List Str
  removed : List Str
  requeued : List (Str × Str)
  handed : List Str

namespace PathQueue

def paths (q : PathQueue) : List Str := q.task.stat.paths

/-- The queue of a new task. -/
def new (cfg : Config) (conf : TaskConf) : PathQueue :=
  ⟨⟨cfg.pathQueueMaxSize, conf, ⟨true, []⟩⟩, none, [], [], [], []⟩

/-- After the call has made `task` of the task. -/
def after (q : PathQueue) (P : Str) (c : PathsCall) (task : Task) : PathQueue where
  task := task
  expandedPath := some (c.env.expandPath P)
  caughtUp := c.caughtUp P q.task
  removed := (q.removed ++ c.caughtUp P q.task).filter fun p => !task.stat.paths.contains p
  requeued := q.requeued ++
    (q.removed.filter fun p => (c.caughtUp P q.task).contains p || task.stat.paths.contains p).map
      fun p => (p, c.env.expandPath P)
  handed :=
    if q.handed.getLast? = some task.getPath then q.handed else q.handed ++ [task.getPath]

/-- One call of `updateTaskPaths`, under the lock of `refreshWatchers`. -/
def step (cfg : Config) (P : Str) (c : PathsCall) (q : PathQueue) : Option PathQueue :=
  match updateTaskPaths cfg c.env P [.tailWatchers] (c.entered P q.task) with
  | .ok ((), s) => (s.tasks.find? P).map (q.after P c)
  | .error _ => none

/-- The queue is increasing, before paths are removed and after, a removed path
has only been queued again as the expansion, and the paths that were handed to
watchers are increasing. -/
structure InOrder (q : PathQueue) : Prop where
  paths : q.paths.Pairwise (· < ·)
  caughtUp : q.caughtUp.Pairwise (· < ·)
  requeued : ∀ r ∈ q.requeued, r.1 = r.2
  handed : q.handed.Pairwise (· < ·)

/-- Where the call adds the path of the position file, to a queue with room, that
path is not older than the queue and not newer than the expansion. -/
def CatchesUp (P : Str) (q : PathQueue) (c : PathsCall) : Prop :=
  q.task.stat.firstUpdatePaths = true → c.env.expandPath P ≠ P →
    c.conf.logConf.followLast = true → ∀ last, getPath c.manager.peMap P = some last →
      q.task.Full ∨ (∀ p ∈ q.paths.getLast?, p ≤ last) ∧ last ≤ c.env.expandPath P

end PathQueue

/-! ## Increasing lists

What is added behind the last element, and what is taken from the front, leaves a
list increasing.
-/

theorem le_last {l : List Str} {p x : Str} (h : l.Pairwise (· < ·)) (hx : l.getLast? = some x)
    (hp : p ∈ l) : p ≤ x := by
  obtain ⟨l', rfl⟩ := List.getLast?_eq_some_iff.mp hx
  rcases List.mem_append.mp hp with hp | hp
  · exact le_of_lt ((List.pairwise_append.mp h).2.2 p hp x List.mem_cons_self)
  · rw [List.mem_singleton.mp hp]

theorem head_le {l : List Str} {p x : Str} (h : l.Pairwise (· < ·)) (hx : l.head? = some x)
    (hp : p ∈ l) : x ≤ p := by
  obtain ⟨l', rfl⟩ := List.head?_eq_some_iff.mp hx
  rcases List.mem_cons.mp hp with rfl | hp
  · exact le_refl _
  · exact le_of_lt ((List.pairwise_cons.mp h).1 p hp)

/-- What is newer than the last element goes behind it. -/
theorem pairwise_append_of_last {l qs : List Str} (hl : l.Pairwise (· < ·))
    (hqs : qs.Pairwise (· < ·)) (h : ∀ x, l.getLast? = some x → ∀ p ∈ qs, x < p) :
    (l ++ qs).Pairwise (· < ·) := by
  refine List.pairwise_append.mpr ⟨hl, hqs, fun a ha b hb => ?_⟩
  have hx := List.getLast?_eq_some_getLast (List.ne_nil_of_mem ha)
  exact lt_of_le_of_lt (le_last hl hx ha) (h _ hx b hb)

/-! ## Adding paths

`addPath` on any queue.  It looks at the last path only, and at the room.
-/

namespace Task

variable {task : Task} {path : Str} {ps : List Str}

/-- The path is added, or there was no need to, or no room. -/
theorem addPath_paths (task : Task) (path : Str) :
    (task.addPath path).stat.paths = task.stat.paths ∨
      (task.addPath path).stat.paths = task.stat.paths ++ [path] ∧
        task.stat.paths.getLast? ≠ some path := by
  unfold addPath
  split
  · next hnone =>
      rw [List.getLast?_eq_none_iff] at hnone
      right
      rw [hnone]
      exact ⟨rfl, by simp⟩
  · next last hlast =>
      split
      · next hadd =>
          right
          refine ⟨rfl, fun heq => hadd.1 ?_⟩
          exact (Option.some.inj (hlast.symm.trans heq)).symm
      · exact Or.inl rfl

theorem mem_addPath {p : Str} (h : p ∈ (task.addPath path).stat.paths) :
    p ∈ task.stat.paths ∨ p = path := by
  rcases task.addPath_paths path with heq | ⟨heq, -⟩
  · exact Or.inl (heq ▸ h)
  · rw [heq] at h
    exact (List.mem_append.mp h).imp_right List.mem_singleton.mp

theorem addPath_full (h : task.Full) (path : Str) : task.addPath path = task := by
  unfold addPath
  split
  · next hnone => exact absurd (List.getLast?_eq_none_iff.mp hnone) h.1
  · exact if_neg fun hadd => absurd hadd.2 (Nat.not_lt_of_le h.2)

/-- Where there is room, what was to be added is the last path. -/
theorem addPath_last (h : ¬ task.Full) :
    (task.addPath path).stat.paths.getLast? = some path := by
  unfold addPath
  split
  · rfl
  · next last hlast =>
      have hne : task.stat.paths ≠ [] := by
        intro hnil
        rw [hnil] at hlast
        cases hlast
      have hroom : task.stat.paths.length < task.pathQueueMaxSize :=
        Nat.lt_of_not_le fun hmax => h ⟨hne, hmax⟩
      split
      · simp
      · next hadd =>
          have heq : path = last := by
            by_contra hne'
            exact hadd ⟨hne', hroom⟩
          rw [heq, hlast]

/-- A loop of `addPath` adds some of the paths, in their order. -/
theorem foldl_addPath_paths (ps : List Str) (task : Task) :
    ∃ qs, qs.Sublist ps ∧ (ps.foldl addPath task).stat.paths = task.stat.paths ++ qs := by
  induction ps generalizing task with
  | nil => exact ⟨[], List.Sublist.slnil, (List.append_nil _).symm⟩
  | cons p ps ih =>
      obtain ⟨qs, hqs, hpaths⟩ := ih (task.addPath p)
      rcases task.addPath_paths p with h | ⟨h, -⟩
      · refine ⟨qs, hqs.cons p, ?_⟩
        rw [List.foldl_cons, hpaths, h]
      · refine ⟨p :: qs, hqs.cons_cons p, ?_⟩
        rw [List.foldl_cons, hpaths, h, List.append_assoc]
        rfl

theorem mem_foldl_addPath {p : Str} (h : p ∈ (ps.foldl addPath task).stat.paths) :
    p ∈ task.stat.paths ∨ p ∈ ps := by
  obtain ⟨qs, hqs, heq⟩ := foldl_addPath_paths ps task
  rw [heq] at h
  exact (List.mem_append.mp h).imp_right fun hp => hqs.subset hp

theorem foldl_addPath_full (h : task.Full) (ps : List Str) : ps.foldl addPath task = task := by
  induction ps with
  | nil => rfl
  | cons p ps ih => rw [List.foldl_cons, addPath_full h, ih]

/-- A path at the end of an increasing queue leaves it increasing. -/
theorem addPath_pairwise (h : task.stat.paths.Pairwise (· < ·))
    (hle : ∀ p ∈ task.stat.paths.getLast?, p ≤ path) :
    (task.addPath path).stat.paths.Pairwise (· < ·) := by
  rcases task.addPath_paths path with heq | ⟨heq, hne⟩
  · rw [heq]
    exact h
  · rw [heq]
    refine pairwise_append_of_last h (List.pairwise_singleton _ _) fun x hx p hp => ?_
    obtain rfl := List.mem_singleton.mp hp
    refine lt_of_le_of_ne (hle x hx) ?_
    rintro rfl
    exact hne hx

theorem head_paths (h : task.stat.paths ≠ []) : task.stat.paths.head? = some task.getPath := by
  show _ = some (task.stat.paths.headD [])
  obtain ⟨p, ps, hps⟩ := List.exists_cons_of_ne_nil h
  rw [hps]
  rfl

/-- `addPath` on what is left of an increasing queue of paths up to `path`: the
queue is increasing again, and nothing was newer than its last path. -/
theorem addPath_suffix {mid : List Str} (hmid : mid.Pairwise (· < ·))
    (hle : ∀ p ∈ mid, p ≤ path) (hrest : task.stat.paths <:+ mid) :
    (task.addPath path).stat.paths.Pairwise (· < ·) ∧
      (∀ p ∈ (task.addPath path).stat.paths, p ∈ mid ∨ p = path) ∧
      (task.addPath path).stat.paths ≠ [] ∧
      ∀ p ∈ mid, ∃ l, (task.addPath path).stat.paths.getLast? = some l ∧ p ≤ l := by
  refine ⟨addPath_pairwise (hmid.sublist hrest.sublist) fun p hp => ?_, fun p hp => ?_, ?_, ?_⟩
  · exact hle p (hrest.subset (List.mem_of_getLast? hp))
  · exact (mem_addPath hp).imp_left fun hp => hrest.subset hp
  · by_cases hfull : task.Full
    · rw [addPath_full hfull]
      exact hfull.1
    · exact List.ne_nil_of_mem (List.mem_of_getLast? (addPath_last hfull))
  · intro p hp
    by_cases hfull : task.Full
    · rw [addPath_full hfull]
      refine ⟨_, List.getLast?_eq_some_getLast hfull.1, le_last hmid ?_ hp⟩
      rw [hrest.getLast hfull.1]
      exact List.getLast?_eq_some_getLast _
    · exact ⟨path, addPath_last hfull, hle p hp⟩

end Task

/-! ## Catching up

The saved path comes first, and then what is newer than it and older than the
expansion, which is added last.
-/

/-- The saved path and the files after it go behind the queue, in order, up to
the expansion. -/
theorem addLastPaths_paths {task : Task} {expandedPath last : Str} {globed : Option (List Str)}
    (hpaths : task.stat.paths.Pairwise (· < ·))
    (hglob : ∀ ps, globed = some ps → ps.Pairwise (· < ·))
    (hlast : task.Full ∨ (∀ p ∈ task.stat.paths.getLast?, p ≤ last) ∧ last ≤ expandedPath) :
    ∃ qs, (addLastPaths expandedPath (some last) globed task).stat.paths = task.stat.paths ++ qs ∧
      (task.stat.paths ++ qs).Pairwise (· < ·) ∧ ∀ p ∈ qs, p ≤ expandedPath := by
  by_cases hfull : task.Full
  · refine ⟨[], ?_, ?_, ?_⟩
    · unfold addLastPaths
      simp only [Task.addPath_full hfull, Task.foldl_addPath_full hfull, List.append_nil]
    · rwa [List.append_nil]
    · simp
  · obtain ⟨hle, hexp⟩ := hlast.resolve_left hfull
    let newer := (globed.getD []).filter fun p => last < p ∧ p < expandedPath
    have hnewer : ∀ p ∈ newer, last < p ∧ p < expandedPath := by
      intro p hp
      simpa using (List.mem_filter.mp hp).2
    have hsorted : newer.Pairwise (· < ·) := by
      refine List.Pairwise.filter _ ?_
      cases hg : globed with
      | none => exact List.Pairwise.nil
      | some ps => exact hglob ps hg
    obtain ⟨qs, hqs, hpathsqs⟩ := Task.foldl_addPath_paths newer (task.addPath last)
    have hpaths' := Task.addPath_pairwise hpaths hle
    -- `last` is the end of the queue by now, and `qs` is newer than it
    have happ : ((task.addPath last).stat.paths ++ qs).Pairwise (· < ·) := by
      refine pairwise_append_of_last hpaths' (hsorted.sublist hqs) fun x hx p hp => ?_
      obtain rfl : last = x := Option.some.inj ((Task.addPath_last hfull).symm.trans hx)
      exact (hnewer p (hqs.subset hp)).1
    have hqsle : ∀ p ∈ qs, p ≤ expandedPath := fun p hp =>
      le_of_lt (hnewer p (hqs.subset hp)).2
    rcases task.addPath_paths last with heq | ⟨heq, -⟩
    · rw [heq] at happ hpathsqs
      exact ⟨qs, hpathsqs, happ, hqsle⟩
    · rw [heq, List.append_assoc] at happ hpathsqs
      refine ⟨[last] ++ qs, hpathsqs, happ, fun p hp => ?_⟩
      rcases List.mem_append.mp hp with hp | hp
      · rwa [List.mem_singleton.mp hp]
      · exact hqsle p hp

/-- The saved path and what was globed are added by the first call that the
settings make follow the last path. -/
theorem PathsCall.caughtUp_eq (c : PathsCall) (P : Str) (task : Task) :
    c.caughtUp P task =
      if task.stat.firstUpdatePaths = true ∧ c.env.expandPath P ≠ P ∧
          c.conf.logConf.followLast = true then
        (addLastPaths (c.env.expandPath P) (getPath c.manager.peMap P) (c.env.globed P)
          (c.edit task)).stat.paths
      else task.stat.paths := by
  unfold caughtUp firstUpdate
  exact apply_ite (fun updated : Task => updated.stat.paths) _ _ _

namespace PathQueue

variable {conf : TaskConf} {c : PathsCall} {cs : List PathsCall} {q q' : PathQueue}

/-- What a call puts into the queue before it takes paths out. -/
theorem caughtUp_paths (hq : q.paths.Pairwise (· < ·)) (hC : q.CatchesUp P c)
    (hglob : ∀ ps, c.env.globed P = some ps → ps.Pairwise (· < ·)) :
    ∃ qs, c.caughtUp P q.task = q.paths ++ qs ∧ (q.paths ++ qs).Pairwise (· < ·) ∧
      ∀ p ∈ qs, p ≤ c.env.expandPath P := by
  have hsame : ∃ qs, q.paths = q.paths ++ qs ∧ (q.paths ++ qs).Pairwise (· < ·) ∧
      ∀ p ∈ qs, p ≤ c.env.expandPath P :=
    ⟨[], (List.append_nil _).symm, by rwa [List.append_nil], by simp⟩
  rw [c.caughtUp_eq]
  split
  · next hfirst =>
      cases hlast : getPath c.manager.peMap P with
      | none => exact hsame
      | some last =>
          exact addLastPaths_paths hq hglob (hC hfirst.1 hfirst.2.1 hfirst.2.2 last hlast)
  · exact hsame

/-! ## One call

What a call adds and takes out, and from it the invariant: it has the paths that
were removed and handed on beside the queue.
-/

/-- A call takes paths out at the front, and adds the expansion. -/
theorem step_spec (h : step cfg P c q = some q') :
    ∃ paths, paths <:+ c.caughtUp P q.task ∧
      q' = q.after P c (updatedTask c.env (c.entered P q.task) P (c.edit q.task) paths) := by
  have htask : (c.entered P q.task).tasks.find? P = some (c.edit q.task) :=
    OrdMap.find?_insert_self _ _ _
  have hwp : wp (updateTaskPaths cfg c.env P) (fun _ s => ∃ paths,
      paths <:+ c.caughtUp P q.task ∧ s.tasks.find? P =
        some (updatedTask c.env (c.entered P q.task) P (c.edit q.task) paths))
      (fun _ => True) [.tailWatchers] (c.entered P q.task) :=
    wp_updateTaskPaths trivial (fun _ => trivial) htask fun paths hpaths =>
      ⟨paths, hpaths, OrdMap.find?_insert_self _ _ _⟩
  unfold step at h
  split at h
  · next s hs =>
      obtain ⟨paths, hpaths, hfind⟩ := hwp.ok hs
      rw [hfind] at h
      exact ⟨paths, hpaths, (Option.some.inj h).symm⟩
  · cases h

/-- The order, and what keeps it: the queue is not newer than the last
expansion, a removed path is older than what is queued, and the front was the
last to be handed on. -/
structure Inv (q : PathQueue) : Prop extends InOrder q where
  le : ∀ p ∈ q.paths, ∃ e, q.expandedPath = some e ∧ p ≤ e
  removed : ∀ p ∈ q.removed, p ∉ q.paths ∧ ∃ l, q.paths.getLast? = some l ∧ p ≤ l
  front : q.handed.getLast? = q.paths.head?

theorem Inv.new : (new cfg conf).Inv where
  paths := List.Pairwise.nil
  caughtUp := List.Pairwise.nil
  requeued _ hr := by cases hr
  handed := List.Pairwise.nil
  le _ hp := by cases hp
  removed _ hp := by cases hp
  front := rfl

/-- A path that was removed is not among what is queued behind the queue. -/
theorem Inv.removed_not_mem {qs : List Str} {p : Str} (hI : q.Inv)
    (hmid : (q.paths ++ qs).Pairwise (· < ·)) (hp : p ∈ q.removed) : p ∉ q.paths ++ qs := by
  intro hpmid
  obtain ⟨hnot, l, hl, hle⟩ := hI.removed p hp
  rcases List.mem_append.mp hpmid with hpmid | hpmid
  · exact hnot hpmid
  · have hlt := (List.pairwise_append.mp hmid).2.2 l (List.mem_of_getLast? hl) p hpmid
    exact absurd hle (not_le_of_gt hlt)

/-- The front of the new queue was the last to be handed on. -/
theorem getLast_handed {task : Task} :
    (q.after P c task).handed.getLast? = some task.getPath := by
  show (if _ then q.handed else q.handed ++ [task.getPath]).getLast? = _
  split
  · next hsame => exact hsame
  · exact List.getLast?_concat

theorem pairwise_handed {task : Task} (h : q.handed.Pairwise (· < ·))
    (hle : ∀ x, q.handed.getLast? = some x → x ≤ task.getPath) :
    (q.after P c task).handed.Pairwise (· < ·) := by
  show (if _ then q.handed else q.handed ++ [task.getPath]).Pairwise (· < ·)
  split
  · exact h
  · next hnew =>
      refine pairwise_append_of_last h (List.pairwise_singleton _ _) fun x hx p hp => ?_
      obtain rfl := List.mem_singleton.mp hp
      refine lt_of_le_of_ne (hle x hx) ?_
      rintro rfl
      exact hnew hx

theorem Inv.step (hI : q.Inv) (hdec : ∀ e, q.expandedPath = some e → e ≤ c.env.expandPath P)
    (hglob : ∀ ps, c.env.globed P = some ps → ps.Pairwise (· < ·)) (hC : q.CatchesUp P c)
    (h : step cfg P c q = some q') : q'.Inv := by
  obtain ⟨qs, hmid, hmidsorted, hqsle⟩ := caughtUp_paths hI.paths hC hglob
  obtain ⟨rest, hrest, rfl⟩ := step_spec h
  have hmidle : ∀ p ∈ q.paths ++ qs, p ≤ c.env.expandPath P := by
    intro p hp
    rcases List.mem_append.mp hp with hp | hp
    · obtain ⟨e, he, hle⟩ := hI.le p hp
      exact le_trans hle (hdec e he)
    · exact hqsle p hp
  rw [hmid] at hrest
  let left : Task := { firstUpdate c.env (c.entered P q.task) P (c.edit q.task) with
    stat := { (firstUpdate c.env (c.entered P q.task) P (c.edit q.task)).stat with paths := rest } }
  have hleft : left.stat.paths <:+ q.paths ++ qs := hrest
  obtain ⟨hsorted, hmem, hne, hlast⟩ := Task.addPath_suffix hmidsorted hmidle hleft
  let task := left.addPath (c.env.expandPath P)
  have hremoved : ∀ p ∈ q.removed, p ∉ q.paths ++ qs := fun p hp =>
    hI.removed_not_mem hmidsorted hp
  have hhead : task.stat.paths.head? = some task.getPath := Task.head_paths hne
  refine ⟨⟨hsorted, ?_, ?_, ?_⟩, ?_, ?_, ?_⟩
  · show (c.caughtUp P q.task).Pairwise (· < ·)
    rw [hmid]
    exact hmidsorted
  · intro r hr
    rcases List.mem_append.mp hr with hr | hr
    · exact hI.requeued r hr
    · obtain ⟨p, hp, rfl⟩ := List.mem_map.mp hr
      obtain ⟨hpr, hpq⟩ := List.mem_filter.mp hp
      have hpq : p ∈ c.caughtUp P q.task ∨ p ∈ task.stat.paths := by
        rcases (Bool.or_eq_true _ _).mp hpq with hpq | hpq
        · exact Or.inl (List.contains_iff_mem.mp hpq)
        · exact Or.inr (List.contains_iff_mem.mp hpq)
      rw [hmid] at hpq
      rcases hpq with hpq | hpq
      · exact absurd hpq (hremoved p hpr)
      · exact (hmem p hpq).resolve_left (hremoved p hpr)
  · refine pairwise_handed hI.handed fun x hx => ?_
    -- the old front is not newer than what is queued now
    have hxmid : (q.paths ++ qs).head? = some x := by
      rw [List.head?_append, hI.front.symm.trans hx]
      rfl
    show x ≤ task.getPath
    rcases hmem _ (List.mem_of_head? hhead) with hp | hp
    · exact head_le hmidsorted hxmid hp
    · rw [hp]
      exact hmidle x (List.mem_of_head? hxmid)
  · intro p hp
    refine ⟨c.env.expandPath P, rfl, ?_⟩
    rcases hmem p hp with hp | rfl
    · exact hmidle p hp
    · exact le_refl _
  · intro p hp
    obtain ⟨hp, hnot⟩ := List.mem_filter.mp hp
    have hnot : p ∉ task.stat.paths := by
      rw [Bool.not_eq_true'] at hnot
      exact fun hp => Bool.false_ne_true (hnot.symm.trans (List.contains_iff_mem.mpr hp))
    refine ⟨hnot, ?_⟩
    rcases List.mem_append.mp hp with hp | hp
    · obtain ⟨-, l, hl, hle⟩ := hI.removed p hp
      obtain ⟨l', hl', hle'⟩ :=
        hlast l (List.mem_append_left _ (List.mem_of_getLast? hl))
      exact ⟨l', hl', le_trans hle hle'⟩
    · rw [hmid] at hp
      exact hlast p hp
  · exact getLast_handed.trans hhead.symm

/-! ## Every run -/

/-- The expansions of the calls do not go back. -/
def NonDecreasing (P : Str) (cs : List PathsCall) : Prop :=
  (cs.map fun c => c.env.expandPath P).Pairwise (· ≤ ·)

/-- `glob(3)` gives each path once, in increasing order. -/
def GlobSorted (P : Str) (cs : List PathsCall) : Prop :=
  ∀ c ∈ cs, ∀ ps, c.env.globed P = some ps → ps.Pairwise (· < ·)

theorem Inv.run : ∀ {cs : List PathsCall} {q q' : PathQueue}, q.Inv →
    (∀ e, q.expandedPath = some e → ∀ c ∈ cs, e ≤ c.env.expandPath P) → NonDecreasing P cs →
    GlobSorted P cs → Along (PathQueue.step cfg P) (CatchesUp P) cs q →
    Logkafka.run (PathQueue.step cfg P) cs q = some q' → q'.Inv
  | [], q, q', hI, _, _, _, _, hr => by
      obtain rfl : q = q' := by simpa using hr
      exact hI
  | c :: cs, q, q', hI, he, hdec, hglob, hC, hr => by
      obtain ⟨q₁, h₁, hr⟩ := run_cons_eq_some.mp hr
      obtain ⟨hhead, htail⟩ := List.pairwise_cons.mp hdec
      have hI₁ : q₁.Inv := hI.step (fun e h => he e h c List.mem_cons_self)
        (hglob c List.mem_cons_self) hC.1 h₁
      refine hI₁.run (fun e h c' hc' => ?_) htail
        (fun c' hc' => hglob c' (List.mem_cons_of_mem _ hc')) (hC.2 q₁ h₁) hr
      obtain ⟨rest, -, rfl⟩ := step_spec h₁
      obtain rfl : c.env.expandPath P = e := Option.some.inj h
      exact hhead _ (List.mem_map_of_mem hc')

/-- **Files of a pattern are queued in order and once**, in every run whose calls
find the saved path where it belongs. -/
theorem queued_in_order (cfg : Config) (P : Str) (conf : TaskConf) (cs : List PathsCall)
    (q : PathQueue) (hdec : NonDecreasing P cs) (hglob : GlobSorted P cs)
    (hC : Along (step cfg P) (CatchesUp P) cs (new cfg conf))
    (hr : run (step cfg P) cs (new cfg conf) = some q) : q.InOrder :=
  (Inv.new.run (fun e he => by cases he) hdec hglob hC hr).toInOrder

/-- The pattern "%H" at an hour of the night. -/
def atHour (hour : Byte) (document : Document) : Env :=
  { atNoon document (emptyFile 1 (by decide)) with
    expandPath := fun p => if p = [37, 72] then [48, hour] else p }

def hourConf (followLast : Bool) : TaskConf :=
  { plainConf true [37, 72] with logConf := ⟨[37, 72], followLast, 200, false, 10, true⟩ }

/-- The Manager after the events. -/
def reached (es : List Event) : Manager :=
  (run (Manager.step sizes) es (Manager.init OrdMap.empty)).getD (Manager.init OrdMap.empty)

/-- The refresh at the hour. -/
def hourly (followLast : Bool) (hour : Byte) : Event :=
  .refresh (atHour hour (.object [([37, 72], some (hourConf followLast))]))

/-- The call of `updateTaskPaths` in the refresh at the hour, after the events. -/
def hourlyCall (followLast : Bool) (hour : Byte) (es : List Event) : PathsCall :=
  ⟨atHour hour .parseError, reached es, hourConf followLast⟩

/-- At two o'clock "00" is found in the position file and "01" in the directory;
`follow_last` is switched off at three. -/
def nightCalls : List PathsCall :=
  [⟨{ atHour 50 .parseError with globed := fun _ => some [[48, 48], [48, 49], [48, 50]] },
      Manager.init (OrdMap.empty.insert ⟨[37, 72], [48, 48]⟩ ⟨1, 0⟩), hourConf true⟩,
    ⟨atHour 51 .parseError, Manager.init OrdMap.empty, hourConf false⟩]

theorem queued_in_order_night :
    ∃ q, run (step sizes [37, 72]) nightCalls (new sizes (hourConf true)) = some q ∧
      q.paths = [[48, 48], [48, 49], [48, 50], [48, 51]] ∧ q.InOrder := by
  refine ⟨_, rfl, by decide +kernel,
    queued_in_order sizes [37, 72] (hourConf true) nightCalls _ ?_ ?_ ?_ rfl⟩
  · show List.Pairwise _ _
    decide
  · intro c hc ps hps
    rcases List.mem_pair.mp hc with rfl | rfl
    · cases hps
      decide
    · cases hps
  · refine ⟨fun _ _ _ last hlast => ?_, fun _ _ => ⟨fun _ _ h => ?_, fun _ _ => trivial⟩⟩
    · have hlast : some [48, 48] = some last := hlast
      obtain rfl := Option.some.inj hlast
      refine Or.inr ⟨fun p hp => ?_, by decide⟩
      cases hp
    · cases h

/-- "%H" is collected at one o'clock, "02" is queued behind "01", which is active,
and then `follow_last` is switched on: "01" is queued again. -/
theorem queued_in_order_fails :
    let cs := [hourlyCall false 49 [],
      hourlyCall false 50 [hourly false 49, .notify (atHour 49 .parseError) 0],
      hourlyCall true 50 [hourly false 49, .notify (atHour 49 .parseError) 0, hourly false 50]]
    NonDecreasing [37, 72] cs ∧ GlobSorted [37, 72] cs ∧
      ∃ q, run (step sizes [37, 72]) cs (new sizes (hourConf false)) = some q ∧
        q.paths = [[48, 49], [48, 50], [48, 49], [48, 50]] ∧ ¬ q.InOrder := by
  refine ⟨?_, ?_, _, rfl, by decide +kernel, fun h => ?_⟩
  · show List.Pairwise _ _
    decide
  · intro c hc ps hps
    rcases List.mem_cons.mp hc with rfl | hc
    · cases hps
    · rcases List.mem_pair.mp hc with rfl | rfl
      · cases hps
      · cases hps
  · have hpaths := h.paths
    revert hpaths
    decide +kernel

end PathQueue

end Logkafka
