/-
# `Logkafka.IOHandler.Session` — call after call, with the clock

A `Session` is a handler on which `onNotify` is called again and again: the
control point the handler stands at, and the second the clock showed last.
`tick` is its step, a call that begins or one answer of the environment to the
call in progress; the clock does not run backwards, and nothing bounds the
number of calls or their length.

`grew` and `lastGrowth` record when bytes were added to the buffer, and no
branch reads them: `lastGrowth` is the last second of the last call in which
`fread` returned bytes.

A call of `tick`s is a call of `onNotify` (`onNotify_of_ticks`).
-/
import Logkafka.IOHandler.Accounting

namespace Logkafka.IOHandler

/-- The second of an answer. -/
def Event.now : Event → ℤ
  | .fread _ _ _ now => now
  | .receive _ _ now => now

/-- `fread` returned bytes. -/
def Event.grows : Event → Bool
  | .fread _ n _ _ => n ≠ 0
  | .receive _ _ _ => false

structure Session where
  control : Control
  handler : IOHandler
  clock : ℤ
  /-- the call in progress has added bytes to the buffer -/
  grew : Bool
  /-- when the last call that added bytes was over, or how long it has been running -/
  lastGrowth : Option ℤ

/-- A handler that was just installed. -/
def Session.init (start stored : ℕ) (now : ℤ) : Session :=
  ⟨.returned, IOHandler.init start stored now, now, false, none⟩

inductive Tick
  /-- `onNotify` is called -/
  | notify (now : ℤ)
  | answer (e : Event)

def tick (c : Conf) (f : LogFile) : Tick → Session → Option Session
  | .notify now, s =>
      if s.control = .returned ∧ s.clock ≤ now then
        let r := enter c now s.handler
        some { s with control := r.1, handler := r.2, clock := now, grew := false }
      else none
  | .answer e, s =>
      if s.clock ≤ e.now then
        (step c f e (s.control, s.handler)).map fun r =>
          { control := r.1
            handler := r.2
            clock := e.now
            grew := s.grew || e.grows
            lastGrowth := if s.grew || e.grows then some e.now else s.lastGrowth }
      else none

variable {c : Conf} {f : LogFile} {s s' : Session}

theorem tick_notify {now : ℤ} (h : tick c f (.notify now) s = some s') :
    s.control = .returned ∧ s.clock ≤ now ∧
      s' = { s with
        control := (enter c now s.handler).1, handler := (enter c now s.handler).2,
        clock := now, grew := false } := by
  obtain ⟨⟨hret, hclock⟩, h⟩ := Option.ite_none_right_eq_some.mp h
  exact ⟨hret, hclock, (Option.some.inj h).symm⟩

theorem tick_answer {e : Event} (h : tick c f (.answer e) s = some s') :
    s.clock ≤ e.now ∧ Step c f e (s.control, s.handler) (s'.control, s'.handler) ∧
      s'.clock = e.now ∧ s'.grew = (s.grew || e.grows) ∧
      s'.lastGrowth = if s.grew || e.grows then some e.now else s.lastGrowth := by
  obtain ⟨hclock, h⟩ := Option.ite_none_right_eq_some.mp h
  obtain ⟨r, hr, rfl⟩ := Option.map_eq_some_iff.mp h
  exact ⟨hclock, step_cases hr, rfl, rfl, rfl⟩

theorem tick_answer_step {e : Event} (h : tick c f (.answer e) s = some s') :
    step c f e (s.control, s.handler) = some (s'.control, s'.handler) := by
  obtain ⟨-, h⟩ := Option.ite_none_right_eq_some.mp h
  obtain ⟨r, hr, rfl⟩ := Option.map_eq_some_iff.mp h
  exact hr

theorem exists_tick_answer {e : Event} {r : Control × IOHandler} (hclock : s.clock ≤ e.now)
    (h : step c f e (s.control, s.handler) = some r) :
    ∃ s', tick c f (.answer e) s = some s' ∧ s'.control = r.1 ∧ s'.handler = r.2 ∧
      s'.clock = e.now := by
  simp only [tick, if_pos hclock, h, Option.map_some]
  exact ⟨_, rfl, rfl, rfl, rfl⟩

theorem run_answers {es : List Event} (h : run (tick c f) (es.map .answer) s = some s') :
    run (step c f) es (s.control, s.handler) = some (s'.control, s'.handler) := by
  induction es generalizing s with
  | nil =>
      obtain rfl : s = s' := by simpa using h
      rfl
  | cons e es ih =>
      obtain ⟨s₁, h₁, h₂⟩ := run_cons_eq_some.mp h
      exact run_cons_eq_some.mpr ⟨_, tick_answer_step h₁, ih h₂⟩

/-- A call of the session that has returned is a call of `onNotify`. -/
theorem onNotify_of_ticks {now : ℤ} {es : List Event}
    (h : run (tick c f) (.notify now :: es.map .answer) s = some s')
    (hret : s'.control = .returned) : onNotify c f now es s.handler = some s'.handler := by
  obtain ⟨s₁, h₁, h₂⟩ := run_cons_eq_some.mp h
  obtain ⟨-, -, rfl⟩ := tick_notify h₁
  unfold onNotify
  rw [show enter c now s.handler = ((enter c now s.handler).1, (enter c now s.handler).2) from rfl,
    run_answers h₂]
  simp [hret]

end Logkafka.IOHandler
