/-
# `Logkafka.Run` — runs of a partial step function

A component is given by a step function `step : α → σ → Option σ`: from a
state, a label is either not enabled (`none`) or leads to one next state.
This module has what every component of the development needs of that format
and nothing about any of them:

    run step as s            the state after the labels `as`, in order
    Visits step as s t       `t` is a state the run passes (its first state included)
    Along step C as s        every step of the run satisfies `C`

and the rules.  `run_inv` carries an invariant along a run.  `run_inv_along`
does so when a step keeps the invariant only under a condition on the step,
`along_of_run` gives a condition on every step that is taken, and `along_of_inv`
goes from one condition on the steps to another under an invariant.
`run_simulates` carries a relation to a second machine along.
`visits_iff_along` is the exactness rule: when a good step establishes a
property and a bad step destroys it, the property holds of every state the run
passes *if and only if* every step of the run is good.
-/
import Mathlib.Data.List.Basic
import Mathlib.Data.List.Induction

namespace Logkafka

variable {σ α : Type*}

/-- The state after the labels `as`, in order. -/
def run (step : α → σ → Option σ) : List α → σ → Option σ
  | [], s => some s
  | a :: as, s => (step a s).bind (run step as)

/-- `t` is one of the states a run over `as` from `s` passes. -/
inductive Visits (step : α → σ → Option σ) : List α → σ → σ → Prop
  | here (as : List α) (s : σ) : Visits step as s s
  | later {a : α} {as : List α} {s s' t : σ} :
      step a s = some s' → Visits step as s' t → Visits step (a :: as) s t

/-- Every step of the run over `as` from `s` satisfies `C`. -/
def Along (step : α → σ → Option σ) (C : σ → α → Prop) : List α → σ → Prop
  | [], _ => True
  | a :: as, s => C s a ∧ ∀ s', step a s = some s' → Along step C as s'

/-- A run can be checked step by step. -/
instance decidableAlong (step : α → σ → Option σ) (C : σ → α → Prop)
    [∀ s a, Decidable (C s a)] : ∀ (as : List α) (s : σ), Decidable (Along step C as s)
  | [], _ => isTrue trivial
  | a :: as, s =>
      match h : step a s with
      | none => decidable_of_iff (C s a) (by simp [Along, h])
      | some s' =>
          have := decidableAlong step C as s'
          decidable_of_iff (C s a ∧ Along step C as s') (by simp [Along, h])

section Rules

variable {step : α → σ → Option σ}

@[simp] theorem run_nil (s : σ) : run step [] s = some s := rfl

theorem run_cons (a : α) (as : List α) (s : σ) :
    run step (a :: as) s = (step a s).bind (run step as) := rfl

theorem run_cons_eq_some {a : α} {as : List α} {s t : σ} :
    run step (a :: as) s = some t ↔ ∃ s', step a s = some s' ∧ run step as s' = some t := by
  simp [run_cons, Option.bind_eq_some_iff]

/-- An invariant of every step is an invariant of every run. -/
theorem run_inv {I : σ → Prop} (hstep : ∀ a s s', I s → step a s = some s' → I s') :
    ∀ (as : List α) (s t : σ), I s → run step as s = some t → I t
  | [], s, t, hs, h => by
      obtain rfl : s = t := by simpa using h
      exact hs
  | a :: as, s, t, hs, h => by
      obtain ⟨s', h1, h2⟩ := run_cons_eq_some.mp h
      exact run_inv hstep as s' t (hstep a s s' hs h1) h2

/-- An invariant that a step keeps under `C` holds at the end of a run all of
whose steps satisfy `C`. -/
theorem run_inv_along {I : σ → Prop} {C : σ → α → Prop}
    (hstep : ∀ a s s', I s → C s a → step a s = some s' → I s') :
    ∀ (as : List α) (s t : σ), I s → Along step C as s → run step as s = some t → I t
  | [], s, t, hs, _, h => by
      obtain rfl : s = t := by simpa using h
      exact hs
  | a :: as, s, t, hs, hC, h => by
      obtain ⟨s', h1, h2⟩ := run_cons_eq_some.mp h
      exact run_inv_along hstep as s' t (hstep a s s' hs hC.1 h1) (hC.2 s' h1) h2

/-- A run passes the state it ends in. -/
theorem visits_of_run : ∀ {as : List α} {s t : σ}, run step as s = some t → Visits step as s t
  | [], s, t, h => by
      obtain rfl : s = t := by simpa using h
      exact .here _ _
  | _ :: _, _, _, h => by
      obtain ⟨s', h1, h2⟩ := run_cons_eq_some.mp h
      exact .later h1 (visits_of_run h2)

theorem Visits.append {as bs : List α} {s t : σ} (h : Visits step as s t) :
    Visits step (as ++ bs) s t := by
  induction h with
  | here as s => exact .here (as ++ bs) s
  | later hstep _ ih => exact .later hstep ih

/-- Where every label is enabled, every run goes through. -/
theorem exists_run (h : ∀ a s, ∃ s', step a s = some s') (as : List α) (s : σ) :
    ∃ t, run step as s = some t := by
  induction as generalizing s with
  | nil => exact ⟨s, rfl⟩
  | cons a as ih =>
      obtain ⟨s', hs⟩ := h a s
      obtain ⟨t, ht⟩ := ih s'
      exact ⟨t, run_cons_eq_some.mpr ⟨s', hs, ht⟩⟩

theorem run_append (as bs : List α) (s : σ) :
    run step (as ++ bs) s = (run step as s).bind (run step bs) := by
  induction as generalizing s with
  | nil => rfl
  | cons a as ih =>
      rw [List.cons_append, run_cons, run_cons, Option.bind_assoc]
      exact Option.bind_congr fun s' _ => ih s'

/-- An invariant that may speak of the labels that the run has taken. -/
theorem run_inv_past {I : List α → σ → Prop} {s : σ} (h0 : I [] s) {as : List α} :
    ∀ {t : σ}, (∀ bs a cs u u', as = bs ++ a :: cs → run step bs s = some u →
      step a u = some u' → I bs u → I (bs ++ [a]) u') → run step as s = some t → I as t := by
  induction as using List.reverseRecOn with
  | nil =>
      intro t _ hr
      obtain rfl : s = t := by simpa using hr
      exact h0
  | append_singleton as a ih =>
      intro t hstep hr
      rw [run_append, Option.bind_eq_some_iff] at hr
      obtain ⟨u, hu, hlast⟩ := hr
      obtain ⟨u', h1, hnil⟩ := run_cons_eq_some.mp hlast
      obtain rfl : u' = t := by simpa using hnil
      refine hstep as a [] u u' rfl hu h1 (ih (fun bs b cs v v' heq hv h2 => ?_) hu)
      exact hstep bs b (cs ++ [a]) v v' (by rw [heq]; simp) hv h2

/-- A condition on the labels alone holds along a run when it holds of each label. -/
theorem along_of_forall {C : α → Prop} :
    ∀ {as : List α} {s : σ}, (∀ a ∈ as, C a) → Along step (fun _ a => C a) as s
  | [], _, _ => trivial
  | _ :: _, _, h => ⟨h _ List.mem_cons_self,
      fun _ _ => along_of_forall fun a ha => h a (List.mem_cons_of_mem _ ha)⟩

theorem along_and_of_forall {C : σ → α → Prop} {D : α → Prop} :
    ∀ {as : List α} {s : σ}, Along step C as s → (∀ a ∈ as, D a) →
      Along step (fun s a => D a ∧ C s a) as s
  | [], _, _, _ => trivial
  | _ :: _, _, hC, hD => ⟨⟨hD _ List.mem_cons_self, hC.1⟩, fun s' h1 =>
      along_and_of_forall (hC.2 s' h1) fun b hb => hD b (List.mem_cons_of_mem _ hb)⟩

/-- The condition of a step in the middle of a run. -/
theorem cond_of_along {C : σ → α → Prop} {a : α} {bs : List α} :
    ∀ {as : List α} {s t : σ}, run step as s = some t → Along step C (as ++ a :: bs) s → C t a
  | [], s, t, hr, h => by
      obtain rfl : s = t := by simpa using hr
      exact h.1
  | _ :: _, _, _, hr, h => by
      obtain ⟨s', h1, h2⟩ := run_cons_eq_some.mp hr
      exact cond_of_along h2 (h.2 s' h1)

/-- And from the steps back to the run. -/
theorem along_of_cond {C : σ → α → Prop} {as : List α} {s : σ}
    (h : ∀ bs a cs t, as = bs ++ a :: cs → run step bs s = some t → C t a) :
    Along step C as s := by
  induction as generalizing s with
  | nil => trivial
  | cons a as ih =>
      refine ⟨h [] a as s rfl rfl, fun s' h1 => ih fun bs b cs t heq ht => ?_⟩
      exact h (a :: bs) b cs t (congrArg (a :: ·) heq) (run_cons_eq_some.mpr ⟨s', h1, ht⟩)

/-- Along a run that goes through, a condition on the labels alone is read back
from each label. -/
theorem forall_of_along {C : α → Prop} :
    ∀ {as : List α} {s t : σ}, run step as s = some t →
      Along step (fun _ a => C a) as s → ∀ a ∈ as, C a
  | [], _, _, _, _ => by simp
  | _ :: _, _, _, hr, h => by
      obtain ⟨s', h1, h2⟩ := run_cons_eq_some.mp hr
      intro b hb
      rcases List.mem_cons.mp hb with rfl | hb
      · exact h.1
      · exact forall_of_along h2 (h.2 s' h1) b hb

theorem along_congr {C D : σ → α → Prop} (h : ∀ s a, C s a ↔ D s a) :
    ∀ (as : List α) (s : σ), Along step C as s ↔ Along step D as s
  | [], _ => Iff.rfl
  | a :: as, s =>
      and_congr (h s a) (forall_congr' fun s' => imp_congr_right fun _ => along_congr h as s')

/-- A condition on the steps gives another one, where every step keeps `I` and
`I` is what the second needs. -/
theorem along_of_inv {I : σ → Prop} {C D : σ → α → Prop}
    (hstep : ∀ a s s', I s → step a s = some s' → I s') (h : ∀ s a, I s → C s a → D s a) :
    ∀ (as : List α) (s : σ), I s → Along step C as s → Along step D as s
  | [], _, _, _ => trivial
  | a :: as, s, hs, hC =>
      ⟨h s a hs hC.1, fun s' h1 => along_of_inv hstep h as s' (hstep a s s' hs h1) (hC.2 s' h1)⟩

/-- Where every step that is taken satisfies a condition and keeps `I`, every run
that goes through does so along its steps. -/
theorem along_of_run {I : σ → Prop} {C : σ → α → Prop}
    (hstep : ∀ a s s', I s → step a s = some s' → C s a ∧ I s') :
    ∀ {as : List α} {s t : σ}, I s → run step as s = some t → Along step C as s
  | [], _, _, _, _ => trivial
  | a :: as, s, t, hs, hr => by
      obtain ⟨s', h1, h2⟩ := run_cons_eq_some.mp hr
      refine ⟨(hstep a s s' hs h1).1, fun s'' h1' => ?_⟩
      obtain rfl : s' = s'' := Option.some.inj (h1.symm.trans h1')
      exact along_of_run hstep (hstep a s s' hs h1).2 h2

/-- **The exactness rule.**  `I` is the invariant of the good steps, `P` the
property in question, and every step of the run satisfies `D`.  If a good step
keeps `I` and gives `P`, and a bad step from an `I`-state never gives `P`, then `P`
holds of every state of the run exactly when every step of it is good. -/
theorem visits_iff_along_under {I P : σ → Prop} {C D : σ → α → Prop}
    (hgood : ∀ a s s', I s → D s a → C s a → step a s = some s' → I s' ∧ P s')
    (hbad : ∀ a s s', I s → D s a → ¬ C s a → step a s = some s' → ¬ P s') :
    ∀ {as : List α} {s t : σ}, I s → P s → Along step D as s → run step as s = some t →
      ((∀ u, Visits step as s u → P u) ↔ Along step C as s)
  | [], s, _, _, hP, _, _ => by
      refine ⟨fun _ => trivial, fun _ u hu => ?_⟩
      cases hu
      exact hP
  | a :: as, s, t, hI, hP, hD, hr => by
      obtain ⟨s', h1, h2⟩ := run_cons_eq_some.mp hr
      have hrest : I s' → P s' →
          ((∀ u, Visits step as s' u → P u) ↔ Along step C as s') := fun hI' hP' =>
        visits_iff_along_under hgood hbad hI' hP' (hD.2 s' h1) h2
      constructor
      · intro hall
        have hC : C s a := by
          by_contra hC
          exact hbad a s s' hI hD.1 hC h1 (hall s' (.later h1 (.here as s')))
        have hg := hgood a s s' hI hD.1 hC h1
        refine ⟨hC, fun s'' h1' => ?_⟩
        obtain rfl : s' = s'' := Option.some.inj (h1.symm.trans h1')
        exact (hrest hg.1 hg.2).mp fun u hu => hall u (.later h1 hu)
      · rintro ⟨hC, hgo⟩ u hu
        have hg := hgood a s s' hI hD.1 hC h1
        cases hu with
        | here => exact hP
        | later h1' hv =>
            obtain rfl : s' = _ := Option.some.inj (h1.symm.trans h1')
            exact (hrest hg.1 hg.2).mpr (hgo s' h1) u hv

/-- The rule for runs of which nothing else is asked. -/
theorem visits_iff_along {I P : σ → Prop} {C : σ → α → Prop}
    (hgood : ∀ a s s', I s → C s a → step a s = some s' → I s' ∧ P s')
    (hbad : ∀ a s s', I s → ¬ C s a → step a s = some s' → ¬ P s')
    {as : List α} {s t : σ} (hI : I s) (hP : P s) (hr : run step as s = some t) :
    (∀ u, Visits step as s u → P u) ↔ Along step C as s :=
  visits_iff_along_under (D := fun _ _ => True) (fun a s s' hI _ => hgood a s s' hI)
    (fun a s s' hI _ => hbad a s s' hI) hI hP (along_of_forall fun _ _ => trivial) hr

/-- **Forward simulation.**  Where every step that satisfies `C` is answered by a
step of the other machine with a matching label, so is every run. -/
theorem run_simulates {τ β : Type*} {step' : β → τ → Option τ} {R : σ → τ → Prop}
    {M : α → β → Prop} {C : σ → α → Prop}
    (hstep : ∀ a s s' t, R s t → C s a → step a s = some s' →
      ∃ b t', M a b ∧ step' b t = some t' ∧ R s' t') :
    ∀ {as : List α} {s s' : σ} {t : τ}, R s t → Along step C as s → run step as s = some s' →
      ∃ bs t', List.Forall₂ M as bs ∧ run step' bs t = some t' ∧ R s' t'
  | [], s, s', t, hR, _, hr => by
      obtain rfl : s = s' := by simpa using hr
      exact ⟨[], t, .nil, rfl, hR⟩
  | a :: as, s, s', t, hR, hC, hr => by
      obtain ⟨s₁, h1, h2⟩ := run_cons_eq_some.mp hr
      obtain ⟨b, t₁, hM, ht₁, hR₁⟩ := hstep a s s₁ t hR hC.1 h1
      obtain ⟨bs, t', hMs, ht', hR'⟩ := run_simulates hstep hR₁ (hC.2 s₁ h1) h2
      exact ⟨b :: bs, t', .cons hM hMs, run_cons_eq_some.mpr ⟨t₁, ht₁, ht'⟩, hR'⟩

end Rules

end Logkafka
