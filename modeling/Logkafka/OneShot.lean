/-
# `Logkafka.OneShot` — a cache behind a one-shot watch

Data that others change, a watch on it that fires once for the first change
after it was armed, and threads that read the data into a cache.  A thread that
is notified arms the watch again and then reads.  Nothing here depends on what
the data is or on how it is read: a `View` of such a system says

    armed, pending    whether the watch is armed, and the notifications that
                      have not been taken yet
    current           the cache is as the data is
    stage i           how far thread `i` is

and a `Move` is what a step may do to it.  `Covered` is the invariant: while
the watch is not armed somebody will arm it and read afterwards, and while the
cache is not current somebody will read, or is reading what the data is now.
-/
import Mathlib.Tactic.Common

namespace Logkafka.OneShot

variable {ι : Type*}

inductive Stage
  | away      -- it reads no more
  | toArm     -- it arms the watch, and reads then
  | toRead    -- it reads
  | reading   -- it has begun to read, and what it read is so still
  | stale     -- it has begun to read, and the data was changed since
  deriving DecidableEq

namespace Stage

def Ahead (s : Stage) : Prop := s = toArm ∨ s = toRead

/-- The thread has read, or will read, the data as it is. -/
def Reads (s : Stage) : Prop := s.Ahead ∨ s = reading

def Busy (s : Stage) : Prop := s = reading ∨ s = stale

/-- The stage after the watch is armed. -/
def arm : Stage → Stage
  | toArm => toRead
  | s => s

/-- The stage when the watch has still to be armed. -/
def unarmed : Stage → Stage
  | toRead => toArm
  | s => s

variable {s : Stage}

theorem not_busy_away : ¬ away.Busy := by simp [Busy]

theorem not_busy_toRead : ¬ toRead.Busy := by simp [Busy]

theorem Ahead.arm (h : s.Ahead) : s.arm.Ahead := by
  rcases h with rfl | rfl
  · exact Or.inr rfl
  · exact Or.inr rfl

theorem arm_of_busy (h : s.Busy) : s.arm = s := by
  rcases h with rfl | rfl
  · rfl
  · rfl

theorem arm_unarmed : s = s.unarmed.arm ∨ s = s.unarmed := by
  cases s with
  | toRead => exact Or.inl rfl
  | away | toArm | reading | stale => exact Or.inr rfl

theorem busy_of_arm (h : s.arm.Busy) : s.Busy := by
  cases s with
  | toArm => exact absurd h not_busy_toRead
  | away | toRead | reading | stale => exact h

theorem Reads.arm (h : s.Reads) : s.arm.Reads := by
  rcases h with h | rfl
  · exact Or.inl h.arm
  · exact Or.inr rfl

theorem busy_of_unarmed (h : s.unarmed.Busy) : s.Busy := by
  cases s with
  | toRead => simp [unarmed, Busy] at h
  | away | toArm | reading | stale => exact h

end Stage

structure View (ι : Type*) where
  armed : Bool
  pending : ℕ
  current : Prop
  stage : ι → Stage

variable {v v' : View ι} {i : ι}

/-- Thread `i` took a step, that changes neither the watch nor the data. -/
structure Only (i : ι) (v v' : View ι) : Prop where
  armed : v'.armed = v.armed
  pending : v'.pending = v.pending
  others : ∀ j, j ≠ i → v'.stage j = v.stage j

/-- What a step may do. -/
inductive Move (v v' : View ι) : Prop
  /-- The data is changed, and what was read may be so no more. -/
  | change (armed : v'.armed = false)
      (pending : v'.pending = v.pending + if v.armed then 1 else 0)
      (stage : ∀ j, v'.stage j = v.stage j ∨ (v.stage j).Busy ∧ (v'.stage j).Busy)
  /-- Nothing of this happens. -/
  | stay (armed : v'.armed = v.armed) (pending : v'.pending = v.pending)
      (current : v.current → v'.current) (stage : ∀ j, v'.stage j = v.stage j)
  | arm (i : ι) (armed : v'.armed = true) (pending : v'.pending = v.pending)
      (current : v.current → v'.current)
      (stage : v'.stage i = (v.stage i).arm ∨ v'.stage i = v.stage i)
      (others : ∀ j, j ≠ i → v'.stage j = v.stage j)
  /-- Thread `i` takes a notification. -/
  | notify (i : ι) (armed : v'.armed = v.armed) (pending : v.pending = v'.pending + 1)
      (before : v.stage i = .away) (after : v'.stage i = .toArm)
      (others : ∀ j, j ≠ i → v'.stage j = v.stage j)
  /-- Thread `i` begins something, of its own accord. -/
  | call (i : ι) (only : Only i v v') (current : v.current → v'.current)
      (before : v.stage i = .away) (after : ¬ (v'.stage i).Busy)
  /-- Thread `i` reads: it alone, and if what it has read is the data it goes on
  so, or is done and the cache is current. -/
  | read (i : ι) (only : Only i v v')
      (before : v.stage i = .toRead ∨ (v.stage i).Busy) (alone : ∀ j, (v.stage j).Busy → j = i)
      (after : v.stage i = .stale ∨ v'.stage i = .reading ∨
        ¬ (v'.stage i).Busy ∧ v'.current)

structure View.Covered (v : View ι) : Prop where
  watched : v.armed = true ∨ 0 < v.pending ∨ ∃ i, v.stage i = .toArm
  fresh : v.current ∨ 0 < v.pending ∨ ∃ i, (v.stage i).Reads
  behind : ∀ i, v.stage i = .stale → 0 < v.pending ∨ ∃ j, (v.stage j).Ahead
  one : ∀ i j, (v.stage i).Busy → (v.stage j).Busy → i = j

/-- Where no notification is pending and nobody is at work the cache is current. -/
theorem View.Covered.current (h : v.Covered) (hpending : v.pending = 0)
    (haway : ∀ i, v.stage i = .away) : v.current := by
  rcases h.fresh with h | h | ⟨i, h⟩
  · exact h
  · omega
  · rw [haway i] at h
    simp [Stage.Reads, Stage.Ahead] at h

/-- Who is ahead stays so while another thread takes a step. -/
theorem exists_ahead {i : ι} (hi : ¬ (v.stage i).Ahead)
    (others : ∀ j, j ≠ i → v'.stage j = v.stage j) (h : ∃ j, (v.stage j).Ahead) :
    ∃ j, (v'.stage j).Ahead := by
  obtain ⟨j, hj⟩ := h
  have hji : j ≠ i := by
    rintro rfl
    exact hi hj
  exact ⟨j, (others j hji).symm ▸ hj⟩

theorem Only.covered_read (ho : Only i v v') (h : v.Covered)
    (before : v.stage i = .toRead ∨ (v.stage i).Busy) (alone : ∀ j, (v.stage j).Busy → j = i)
    (after : v.stage i = .stale ∨ v'.stage i = .reading ∨ ¬ (v'.stage i).Busy ∧ v'.current) :
    v'.Covered := by
  have hbehind : v.stage i = .stale → 0 < v'.pending ∨ ∃ j, (v'.stage j).Ahead := by
    intro hstale
    rcases h.behind i hstale with hp | hahead
    · exact Or.inl (ho.pending ▸ hp)
    · refine Or.inr (exists_ahead ?_ ho.others hahead)
      simp [hstale, Stage.Ahead]
  refine ⟨?_, ?_, fun j hj => ?_, fun j k hj hk => ?_⟩
  · rcases h.watched with ha | hp | ⟨j, hj⟩
    · exact Or.inl (ho.armed.trans ha)
    · exact Or.inr (Or.inl (ho.pending ▸ hp))
    · have hji : j ≠ i := by
        rintro rfl
        rw [hj] at before
        simp [Stage.Busy] at before
      exact Or.inr (Or.inr ⟨j, (ho.others j hji).trans hj⟩)
  · rcases after with hstale | hreading | ⟨-, hcurrent⟩
    · rcases hbehind hstale with hp | ⟨j, hj⟩
      · exact Or.inr (Or.inl hp)
      · exact Or.inr (Or.inr ⟨j, Or.inl hj⟩)
    · exact Or.inr (Or.inr ⟨i, Or.inr hreading⟩)
    · exact Or.inl hcurrent
  · by_cases hji : j = i
    · subst hji
      rcases after with hstale | hreading | ⟨hnot, -⟩
      · exact hbehind hstale
      · rw [hreading] at hj
        cases hj
      · exact absurd (Or.inr hj) hnot
    · rw [ho.others j hji] at hj
      exact absurd (alone j (Or.inr hj)) hji
  · have hold : ∀ j, (v'.stage j).Busy → j = i := by
      intro j hj
      by_contra hji
      rw [ho.others j hji] at hj
      exact hji (alone j hj)
    exact (hold j hj).trans (hold k hk).symm

/-- Every move keeps the data covered. -/
theorem View.Covered.move (h : v.Covered) (hm : Move v v') : v'.Covered := by
  cases hm with
  | change armed pending stage =>
      have hwatched : 0 < v'.pending ∨ ∃ i, v'.stage i = .toArm := by
        rcases h.watched with ha | hp | ⟨i, hi⟩
        · left
          rw [pending, ha]
          simp
        · left
          omega
        · rcases stage i with hsame | ⟨hbusy, -⟩
          · exact Or.inr ⟨i, hsame.trans hi⟩
          · rw [hi] at hbusy
            simp [Stage.Busy] at hbusy
      have hbusy : ∀ j, (v'.stage j).Busy → (v.stage j).Busy := by
        intro j hj
        rcases stage j with hsame | ⟨hold, -⟩
        · exact hsame ▸ hj
        · exact hold
      refine ⟨Or.inr hwatched, ?_, fun j _ => ?_, fun j k hj hk =>
        h.one j k (hbusy j hj) (hbusy k hk)⟩
      · exact Or.inr (hwatched.imp_right fun ⟨i, hi⟩ => ⟨i, Or.inl (Or.inl hi)⟩)
      · exact hwatched.imp_right fun ⟨i, hi⟩ => ⟨i, Or.inl hi⟩
  | stay armed pending current stage =>
      have hstage : v'.stage = v.stage := funext stage
      refine ⟨?_, ?_, ?_, ?_⟩
      · rw [armed, pending, hstage]
        exact h.watched
      · rw [pending, hstage]
        exact h.fresh.imp_left current
      · rw [pending, hstage]
        exact h.behind
      · rw [hstage]
        exact h.one
  | arm i armed pending current stage others =>
      have hall : ∀ j, v'.stage j = (v.stage j).arm ∨ v'.stage j = v.stage j := by
        intro j
        by_cases hji : j = i
        · exact hji ▸ stage
        · exact Or.inr (others j hji)
      have hbusy : ∀ j, (v'.stage j).Busy → (v.stage j).Busy := by
        intro j hj
        rcases hall j with hsame | hsame
        · exact Stage.busy_of_arm (hsame ▸ hj)
        · exact hsame ▸ hj
      refine ⟨Or.inl armed, ?_, fun j hj => ?_, fun j k hj hk =>
        h.one j k (hbusy j hj) (hbusy k hk)⟩
      · rcases h.fresh with hc | hp | ⟨j, hj⟩
        · exact Or.inl (current hc)
        · exact Or.inr (Or.inl (pending ▸ hp))
        · refine Or.inr (Or.inr ⟨j, ?_⟩)
          rcases hall j with hsame | hsame
          · exact hsame ▸ hj.arm
          · exact hsame ▸ hj
      · have hstale : v.stage j = .stale := by
          have hold := hbusy j (Or.inr hj)
          rcases hall j with hsame | hsame
          · rw [Stage.arm_of_busy hold] at hsame
            exact hsame.symm.trans hj
          · exact hsame.symm.trans hj
        rcases h.behind j hstale with hp | ⟨k, hk⟩
        · exact Or.inl (pending ▸ hp)
        · refine Or.inr ⟨k, ?_⟩
          rcases hall k with hsame | hsame
          · exact hsame ▸ hk.arm
          · exact hsame ▸ hk
  | notify i armed pending before after others =>
      have hbusy : ∀ j, (v'.stage j).Busy → (v.stage j).Busy := by
        intro j hj
        by_cases hji : j = i
        · subst hji
          rw [after] at hj
          simp [Stage.Busy] at hj
        · exact others j hji ▸ hj
      refine ⟨Or.inr (Or.inr ⟨i, after⟩), Or.inr (Or.inr ⟨i, Or.inl (Or.inl after)⟩),
        fun _ _ => Or.inr ⟨i, Or.inl after⟩, fun j k hj hk => h.one j k (hbusy j hj) (hbusy k hk)⟩
  | call i only current before after =>
      have hne : ∀ j, v.stage j ≠ .away → j ≠ i := by
        rintro j hj rfl
        exact hj before
      have hbusy : ∀ j, (v'.stage j).Busy → (v.stage j).Busy := by
        intro j hj
        have hji : j ≠ i := by
          rintro rfl
          exact after hj
        exact only.others j hji ▸ hj
      refine ⟨?_, ?_, fun j hj => ?_, fun j k hj hk => h.one j k (hbusy j hj) (hbusy k hk)⟩
      · rcases h.watched with ha | hp | ⟨j, hj⟩
        · exact Or.inl (only.armed.trans ha)
        · exact Or.inr (Or.inl (only.pending ▸ hp))
        · exact Or.inr (Or.inr ⟨j, (only.others j (hne j (by simp [hj]))).trans hj⟩)
      · rcases h.fresh with hc | hp | ⟨j, hj⟩
        · exact Or.inl (current hc)
        · exact Or.inr (Or.inl (only.pending ▸ hp))
        · have hji : j ≠ i := by
            refine hne j fun haway => ?_
            rw [haway] at hj
            simp [Stage.Reads, Stage.Ahead] at hj
          exact Or.inr (Or.inr ⟨j, only.others j hji ▸ hj⟩)
      · have hold := hbusy j (Or.inr hj)
        have hji : j ≠ i := by
          rintro rfl
          rw [before] at hold
          exact Stage.not_busy_away hold
        rcases h.behind j ((only.others j hji).symm.trans hj) with hp | hahead
        · exact Or.inl (only.pending ▸ hp)
        · refine Or.inr (exists_ahead ?_ only.others hahead)
          simp [before, Stage.Ahead]
  | read i only before alone after => exact only.covered_read h before alone after

end Logkafka.OneShot
