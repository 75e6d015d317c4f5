/-
# `Logkafka.Ends` — runs that come to an end

Over a partial step function `step : α → σ → Option σ`, where the environment
chooses the labels among those of `A`:

    Ends step A D s      whatever is chosen, a state of `D` is reached from `s`

It ends where a measure goes down with every step (`ends_of_measure`), and it
does not where a choice can be made again and again without ever reaching `D`
(`not_ends_of_trap`).  A run that ends is a run with a list of labels
(`Ends.exists_run`).
-/
import Logkafka.Run

namespace Logkafka

variable {σ α : Type*}

inductive Ends (step : α → σ → Option σ) (A : α → Prop) (D : σ → Prop) : σ → Prop
  | here {s : σ} (h : D s) : Ends step A D s
  | later {s : σ} (go : ∃ a s', A a ∧ step a s = some s')
      (all : ∀ a s', A a → step a s = some s' → Ends step A D s') : Ends step A D s

variable {step : α → σ → Option σ} {A : α → Prop} {D I : σ → Prop}

/-- Where some label can always be taken and each one leads to `D`, or on to a
smaller measure. -/
theorem ends_of_measure (μ : σ → ℕ)
    (hgo : ∀ s, I s → ¬ D s → ∃ a s', A a ∧ step a s = some s')
    (hstep : ∀ a s s', I s → ¬ D s → A a → step a s = some s' → D s' ∨ I s' ∧ μ s' < μ s)
    (s : σ) (hs : I s) : Ends step A D s := by
  induction hμ : μ s using Nat.strongRecOn generalizing s with
  | ind n ih =>
      subst hμ
      by_cases hD : D s
      · exact .here hD
      · refine .later (hgo s hs hD) fun a s' ha h => ?_
        rcases hstep a s s' hs hD ha h with hD' | ⟨hs', hlt⟩
        · exact .here hD'
        · exact ih (μ s') hlt s' hs' rfl

/-- Where a label can always be taken that stays in `I`, outside `D`. -/
theorem not_ends_of_trap (htrap : ∀ s, I s → ¬ D s ∧ ∃ a s', A a ∧ step a s = some s' ∧ I s')
    {s : σ} (hs : I s) : ¬ Ends step A D s := by
  intro h
  induction h with
  | here hD => exact (htrap _ hs).1 hD
  | later _ _ ih =>
      obtain ⟨-, a, s', ha, hstep, hs'⟩ := htrap _ hs
      exact ih a s' ha hstep hs'

theorem Ends.exists_run {s : σ} (h : Ends step A D s) :
    ∃ as t, (∀ a ∈ as, A a) ∧ run step as s = some t ∧ D t := by
  induction h with
  | here hD => exact ⟨[], _, by simp, rfl, hD⟩
  | later go _ ih =>
      obtain ⟨a, s', ha, hstep⟩ := go
      obtain ⟨as, t, has, hrun, hD⟩ := ih a s' ha hstep
      refine ⟨a :: as, t, fun b hb => ?_, run_cons_eq_some.mpr ⟨s', hstep, hrun⟩, hD⟩
      rcases List.mem_cons.mp hb with rfl | hb
      · exact ha
      · exact has b hb

end Logkafka
