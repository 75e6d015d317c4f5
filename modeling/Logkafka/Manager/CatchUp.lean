/-
# `Logkafka.Manager.CatchUp` — the files that are caught up on

The first `updateTaskPaths` of a task whose pattern has a saved path adds that
path and the files between it and the expansion that the pattern, made a glob
expression, finds.

What is added (`queued_from`) is found by the expression, not by the pattern: a
file that only shares the literal parts of the pattern is found too.
-/
import Logkafka.Manager.PathPattern
import Logkafka.Manager.Queue
import Logkafka.Strftime

namespace Logkafka

open Manager PositionFile PathPattern Strftime

/-- `globPath`, where `files` are the paths there are; `none` where it returns `false`. -/
def globPath (files : OrdSet Str) (pathPattern : Str) : Option (List Str) :=
  let paths := files.elems.filter fun path => Glob.Matches pathPattern path
  if paths = [] then none else some paths

/-- `getPathPatternGlobed`, with `turns` turns of its loop; `none` also where
they are not enough. -/
def getPathPatternGlobed (turns : ℕ) (files : OrdSet Str) (pathPattern : Str) :
    Option (List Str) :=
  (globLoop turns pathPattern).bind (globPath files)

/-- `expandPath` at a time; `outstr` has room for `PATH_MAX` bytes. -/
def expandPath (tm : Tm) (pathPattern : Str) : Str :=
  let outstr := strftime tm pathPattern
  if outstr = [] ∨ 4096 < outstr.length then pathPattern else outstr

variable {files : OrdSet Str} {expr P : Str} {paths : List Str} {turns : ℕ}

theorem globPath_eq_some (h : globPath files expr = some paths) :
    paths = files.elems.filter fun path => Glob.Matches expr path := by
  unfold globPath at h
  simp only at h
  split at h
  · cases h
  · exact (Option.some.inj h).symm

/-- What is found is there, and matches the expression of the pattern. -/
theorem getPathPatternGlobed_sound (h : getPathPatternGlobed turns files P = some paths)
    {path : Str} (hpath : path ∈ paths) : path ∈ files ∧ Glob.Matches (toGlob P) path := by
  obtain ⟨expr, hloop, hglob⟩ := Option.bind_eq_some_iff.mp h
  obtain ⟨-, rfl⟩ := globLoop_eq_some hloop
  rw [globPath_eq_some hglob] at hpath
  obtain ⟨hfile, hmatch⟩ := List.mem_filter.mp hpath
  exact ⟨hfile, of_decide_eq_true hmatch⟩

/-! ## What is queued

`addLastPaths` goes through what was found and adds what lies between the saved
path and the expansion; nothing else in a call adds more than the expansion.
-/

/-- The saved path, or one that was found between it and the expansion. -/
theorem mem_addLastPaths {task : Task} {expandedPath p : Str} {lastPath : Option Str}
    {globed : Option (List Str)}
    (h : p ∈ (addLastPaths expandedPath lastPath globed task).stat.paths) :
    p ∈ task.stat.paths ∨ lastPath = some p ∨
      ∃ last ps, lastPath = some last ∧ globed = some ps ∧ p ∈ ps ∧ last < p ∧
        p < expandedPath := by
  cases lastPath with
  | none => exact Or.inl h
  | some last =>
      rcases Task.mem_foldl_addPath h with h | h
      · rcases Task.mem_addPath h with h | rfl
        · exact Or.inl h
        · exact Or.inr (Or.inl rfl)
      · obtain ⟨hmem, hbetween⟩ := List.mem_filter.mp h
        obtain ⟨hlt, hlt'⟩ := of_decide_eq_true hbetween
        cases globed with
        | none => cases hmem
        | some ps => exact Or.inr (Or.inr ⟨last, ps, rfl, rfl, hmem, hlt, hlt'⟩)

namespace PathQueue

variable {cfg : Config} {conf : TaskConf} {c : PathsCall} {q q' : PathQueue} {path : Str}

theorem mem_caughtUp (hpath : path ∈ c.caughtUp P q.task) : path ∈ q.paths ∨
    getPath c.manager.peMap P = some path ∨
      ∃ last ps, getPath c.manager.peMap P = some last ∧ c.env.globed P = some ps ∧ path ∈ ps ∧
        last < path ∧ path < c.env.expandPath P := by
  rw [c.caughtUp_eq] at hpath
  split at hpath
  · exact (mem_addLastPaths hpath).imp_left fun hold => hold
  · exact Or.inl hpath

/-- Where a queued path comes from. -/
theorem mem_step (h : step cfg P c q = some q') (hpath : path ∈ q'.caughtUp ++ q'.paths) :
    path ∈ c.caughtUp P q.task ∨ path = c.env.expandPath P := by
  obtain ⟨rest, hrest, rfl⟩ := step_spec h
  rcases List.mem_append.mp hpath with hpath | hpath
  · exact Or.inl hpath
  · rcases Task.mem_addPath hpath with hpath | rfl
    · exact Or.inl (hrest.subset hpath)
    · exact Or.inr rfl

/-- **What a call of `updateTaskPaths` adds**, and with it the first one, to the
queue of a task: the saved path, the expansion, and files that are there between
the two and match the pattern with its runs of conversions made `*`. -/
theorem queued_from (cfg : Config) (P : Str) (c : PathsCall) (q q' : PathQueue) (turns : ℕ)
    (files : OrdSet Str) (hglobed : c.env.globed P = getPathPatternGlobed turns files P)
    (hstep : step cfg P c q = some q') (path : Str) (hpath : path ∈ q'.caughtUp ++ q'.paths) :
    path ∈ q.paths ∨ getPath c.manager.peMap P = some path ∨ path = c.env.expandPath P ∨
      ∃ last, getPath c.manager.peMap P = some last ∧ last < path ∧
        path < c.env.expandPath P ∧ path ∈ files ∧ Glob.Matches (toGlob P) path := by
  rcases mem_step hstep hpath with hpath | hexp
  · rcases mem_caughtUp hpath with hold | hsaved | ⟨last, ps, hlast, hps, hmem, hlt, hlt'⟩
    · exact Or.inl hold
    · exact Or.inr (Or.inl hsaved)
    · obtain ⟨hfile, hmatch⟩ := getPathPatternGlobed_sound (hglobed ▸ hps) hmem
      exact Or.inr (Or.inr (Or.inr ⟨last, hlast, hlt, hlt', hfile, hmatch⟩))
  · exact Or.inr (Or.inr (Or.inl hexp))

/-- "/a.%Y" -/
def yearly : Str := ascii "/a.%Y"

theorem utc_chars : ∀ b ∈ ascii "UTC", zoneChar b = true := by decide +kernel

/-- The first of January of a year, at midnight, in UTC. -/
def newYear (year : ℤ) (wday : Fin 7) (epoch : ℤ) : Tm where
  sec := 0
  min := 0
  hour := 0
  mday := 1
  mon := 0
  year := year
  wday := wday
  yday := 0
  gmtoff := 0
  zone := ascii "UTC"
  epoch := epoch
  zone_ne := by decide
  zone_chars := utc_chars

/-- The file of 2015, and a compressed copy of it. -/
def yearFiles : OrdSet Str := ⟨[ascii "/a.2015", ascii "/a.2015.gz"], by decide⟩

/-- The first call for "/a.%Y" in 2016, where "/a.2015" is saved. -/
def yearlyCall : PathsCall where
  env := { atNoon .parseError (emptyFile 1 one_ne_none) with
    expandPath := expandPath (newYear 2016 ⟨5, by decide⟩ 1451606400)
    globed := getPathPatternGlobed 5 yearFiles }
  manager := Manager.init (OrdMap.empty.insert ⟨yearly, ascii "/a.2015"⟩ ⟨1, 0⟩)
  conf := { plainConf true yearly with logConf := ⟨yearly, true, 200, false, 10, true⟩ }

theorem queued_from_yearly : ∃ q',
    step sizes yearly yearlyCall (new sizes yearlyCall.conf) = some q' ∧
    ∀ path ∈ q'.caughtUp ++ q'.paths, path ∈ (new sizes yearlyCall.conf).paths ∨
      getPath yearlyCall.manager.peMap yearly = some path ∨
      path = yearlyCall.env.expandPath yearly ∨
      ∃ last, getPath yearlyCall.manager.peMap yearly = some last ∧ last < path ∧
        path < yearlyCall.env.expandPath yearly ∧ path ∈ yearFiles ∧
        Glob.Matches (toGlob yearly) path :=
  ⟨_, rfl, queued_from sizes yearly yearlyCall (new sizes yearlyCall.conf) _ 5 yearFiles rfl rfl⟩

/-- The compressed copy is queued, and the pattern never stands for it. -/
theorem queued_from_fails : ∃ q',
    step sizes yearly yearlyCall (new sizes yearlyCall.conf) = some q' ∧
      ascii "/a.2015.gz" ∈ q'.paths ∧
      getPath yearlyCall.manager.peMap yearly ≠ some (ascii "/a.2015.gz") ∧
      ∀ tm, expandPath tm yearly ≠ ascii "/a.2015.gz" := by
  refine ⟨_, rfl, by decide +kernel, by decide +kernel, fun tm h => ?_⟩
  unfold expandPath at h
  simp only at h
  split at h
  · exact absurd h (by decide)
  · have htext : strftime tm yearly = ascii "/a." ++ int2Str tm.year := by
      show ascii "/a." ++ (int2Str tm.year ++ []) = _
      rw [List.append_nil]
    rw [htext] at h
    have hsame : ascii "/a." ++ int2Str tm.year = ascii "/a." ++ ascii "2015.gz" := h
    have hyear : int2Str tm.year = ascii "2015.gz" := List.append_cancel_left hsame
    exact ((tame_int2Str tm.year).chars 46 (by rw [hyear]; decide)).2 rfl

end PathQueue

end Logkafka
