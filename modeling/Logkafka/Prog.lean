/-
# `Logkafka.Prog` — programs that lock, crash and change a state

A `Prog μ ε σ α` is run by one thread that already holds the locks `L : List μ`
and starts in a state of `σ`.  It returns a result with a new state, or it
stops: with a crash, or because it locks a lock it already holds.

    scopedLock m x        `x` run under the lock `m`, which is released at its end
    wp x Q E L s        from `s` with `L` held, `x` returns into `Q` or stops in `E`

A lock is held over a block and given back with it, so the list of the locks
held is only ever read.  `wp` is used through its rules: `wp_bind` for a
sequence, `wp_scopedLock` for a lock, and `wp.bind`, `wp.mono` for what is known of
a part.  Taken at `E` false of deadlocks, `wp` says that there is none.

    Moves K R E x       from any state and with `K` held, `x` goes along `R`

is for the parts of a program of which no more need be known than what they
leave alone; it is composed along the text of the program, as is

    Alike x y           `x` and `y` do the same, and may return different things

which compares a program with one that also says what it has seen.
-/
import Mathlib.Data.List.Basic
import Mathlib.Tactic.Common

namespace Logkafka

/-- Why a program stops without returning. -/
inductive Fault (μ ε : Type)
  | selfDeadlock (m : μ)
  | crash (e : ε)
deriving DecidableEq

abbrev Prog (μ ε σ α : Type) := ReaderT (List μ) (StateT σ (Except (Fault μ ε))) α

variable {μ ε σ α β : Type}

namespace Prog

def crash (e : ε) : Prog μ ε σ α := throw (.crash e)

/-- `x` with `m` locked; the lock is released when `x` returns. -/
def scopedLock [DecidableEq μ] (m : μ) (x : Prog μ ε σ α) : Prog μ ε σ α := fun L s =>
  if m ∈ L then .error (.selfDeadlock m) else x (m :: L) s

/-- From `s`, with the locks `L` held, `x` returns into `Q` or stops in `E`. -/
def wp (x : Prog μ ε σ α) (Q : α → σ → Prop) (E : Fault μ ε → Prop) (L : List μ) (s : σ) : Prop :=
  match x L s with
  | .ok (a, s') => Q a s'
  | .error e => E e

/-- The state that `x` leaves where it returns `true`. -/
def leaves? (x : Prog μ ε σ Bool) (L : List μ) (s : σ) : Option σ :=
  match x L s with
  | .ok (true, s') => some s'
  | _ => none

theorem leaves?_eq_some {x : Prog μ ε σ Bool} {L : List μ} {s s' : σ} :
    leaves? x L s = some s' ↔ x L s = .ok (true, s') := by
  unfold leaves?
  split
  · next h => simp [h]
  · next h => exact iff_of_false (by simp) (h s')

section Rules

variable {Q Q' : α → σ → Prop} {R : β → σ → Prop} {E E' : Fault μ ε → Prop} {L : List μ} {s : σ}
  {x : Prog μ ε σ α} {f : α → Prog μ ε σ β}

@[simp] theorem wp_pure {a : α} : wp (pure a : Prog μ ε σ α) Q E L s ↔ Q a s := Iff.rfl

@[simp] theorem wp_get {Q : σ → σ → Prop} : wp (get : Prog μ ε σ σ) Q E L s ↔ Q s s := Iff.rfl

@[simp] theorem wp_modify {g : σ → σ} {Q : PUnit → σ → Prop} :
    wp (modify g : Prog μ ε σ PUnit) Q E L s ↔ Q ⟨⟩ (g s) := Iff.rfl

@[simp] theorem wp_crash {e : ε} : wp (crash e : Prog μ ε σ α) Q E L s ↔ E (.crash e) := Iff.rfl

theorem run_bind : (x >>= f) L s = (x L s).bind fun r => f r.1 L r.2 := rfl

@[simp] theorem wp_bind : wp (x >>= f) R E L s ↔ wp x (fun a s' => wp (f a) R E L s') E L s := by
  unfold wp
  rw [run_bind]
  cases x L s with
  | ok r => rfl
  | error e => rfl

theorem wp_ite {c : Prop} [Decidable c] {y : Prog μ ε σ α} :
    wp (if c then x else y) Q E L s ↔ if c then wp x Q E L s else wp y Q E L s := by
  split
  · rfl
  · rfl

theorem wp_scopedLock [DecidableEq μ] {m : μ} (hm : m ∉ L) :
    wp (scopedLock m x) Q E L s ↔ wp x Q E (m :: L) s := by
  unfold wp scopedLock
  rw [if_neg hm]

/-- Locking a lock that is held. -/
theorem wp_scopedLock_held [DecidableEq μ] {m : μ} (hm : m ∈ L) :
    wp (scopedLock m x) Q E L s ↔ E (.selfDeadlock m) := by
  unfold wp scopedLock
  rw [if_pos hm]

/-- A lock that may be held or not. -/
theorem wp_scopedLock_of [DecidableEq μ] {m : μ} (hE : m ∈ L → E (.selfDeadlock m))
    (h : wp x Q E (m :: L) s) : wp (scopedLock m x) Q E L s := by
  by_cases hm : m ∈ L
  · exact (wp_scopedLock_held hm).mpr (hE hm)
  · exact (wp_scopedLock hm).mpr h

theorem wp_scopedLock_any [DecidableEq μ] {m : μ} (hE : E (.selfDeadlock m))
    (h : wp x Q E (m :: L) s) : wp (scopedLock m x) Q E L s :=
  wp_scopedLock_of (fun _ => hE) h

theorem wp.mono (h : wp x Q E L s) (hQ : ∀ a s', Q a s' → Q' a s') (hE : ∀ e, E e → E' e) :
    wp x Q' E' L s := by
  unfold wp at *
  cases hx : x L s with
  | ok r => exact hQ _ _ (by rwa [hx] at h)
  | error e => exact hE _ (by rwa [hx] at h)

theorem wp.conseq (h : wp x Q E L s) (hQ : ∀ a s', Q a s' → Q' a s') : wp x Q' E L s :=
  h.mono hQ fun _ he => he

/-- What is known of a program, by its faults as one rule has them. -/
theorem wp.and (h : wp x Q E L s) (h' : wp x Q' E' L s) :
    wp x (fun a s' => Q a s' ∧ Q' a s') E L s := by
  unfold wp at *
  cases hx : x L s with
  | ok r => exact ⟨by rwa [hx] at h, by rwa [hx] at h'⟩
  | error e => rwa [hx] at h

/-- A sequence, from what is known of its first part. -/
theorem wp.bind (hx : wp x Q E L s) (hf : ∀ a s', Q a s' → wp (f a) R E L s') :
    wp (x >>= f) R E L s :=
  wp_bind.mpr (hx.conseq hf)

/-- What is returned is what the program returns. -/
theorem wp.self (h : wp x Q E L s) :
    wp x (fun a s' => Q a s' ∧ x L s = .ok (a, s')) E L s := by
  unfold wp at *
  cases hx : x L s with
  | ok r => exact ⟨by rwa [hx] at h, rfl⟩
  | error e => rwa [hx] at h

theorem wp_of_ok {a : α} {s' : σ} (hx : x L s = .ok (a, s')) : wp x Q E L s ↔ Q a s' := by
  unfold wp
  rw [hx]

theorem wp.ok (h : wp x Q E L s) {a : α} {s' : σ} (hx : x L s = .ok (a, s')) : Q a s' := by
  unfold wp at h
  rwa [hx] at h

theorem wp.error (h : wp x Q E L s) {e : Fault μ ε} (hx : x L s = .error e) : E e := by
  unfold wp at h
  rwa [hx] at h

end Rules

/-! ## Programs that go along a relation

The relation is reflexive and transitive wherever it is used, which is what the
sequence needs.
-/

/-- From any state, with the locks `K` held and maybe others, `x` returns in a
state that `R` relates to the first, or it stops in `E`. -/
def Moves (K : List μ) (R : σ → σ → Prop) (E : Fault μ ε → Prop) (x : Prog μ ε σ α) : Prop :=
  ∀ L s, K ⊆ L → wp x (fun _ => R s) E L s

section Moves

variable {K L : List μ} {R : σ → σ → Prop} {E : Fault μ ε → Prop} {s : σ} {x : Prog μ ε σ α}
  {f : α → Prog μ ε σ β}

theorem Moves.pure (hR : ∀ s, R s s) (a : α) : Moves K R E (pure a : Prog μ ε σ α) :=
  fun _ s _ => hR s

theorem Moves.get (hR : ∀ s, R s s) : Moves K R E (get : Prog μ ε σ σ) := fun _ s _ => hR s

theorem Moves.bind (hR : ∀ {s s' s''}, R s s' → R s' s'' → R s s'') (hx : Moves K R E x)
    (hf : ∀ a, Moves K R E (f a)) : Moves K R E (x >>= f) := by
  intro L s hK
  refine (hx L s hK).bind fun a s' h => ?_
  exact (hf a L s' hK).conseq fun _ _ h' => hR h h'

theorem Moves.ite {c : Prop} [Decidable c] {y : Prog μ ε σ α} (hx : Moves K R E x)
    (hy : Moves K R E y) : Moves K R E (if c then x else y) := by
  split
  · exact hx
  · exact hy

theorem Moves.scopedLock [DecidableEq μ] {m : μ} (hE : E (.selfDeadlock m))
    (hx : Moves K R E x) : Moves K R E (scopedLock m x) := fun _ s hK =>
  wp_scopedLock_any hE (hx _ s fun _ h => List.mem_cons_of_mem _ (hK h))

/-- A lock that is held: nothing of `x` is run. -/
theorem Moves.scopedLock_held [DecidableEq μ] {m : μ} (hm : m ∈ K) (hE : E (.selfDeadlock m)) :
    Moves K R E (Prog.scopedLock m x) := fun _ _ hK =>
  (wp_scopedLock_held (hK hm)).mpr hE

end Moves

/-! ## Programs that differ in their results only -/

/-- `x` and `y` stop with the same fault or return in the same state. -/
def Alike (x : Prog μ ε σ α) (y : Prog μ ε σ β) : Prop :=
  ∀ L s, (x L s).map Prod.snd = (y L s).map Prod.snd

section Alike

variable {γ δ : Type} {x : Prog μ ε σ α} {y : Prog μ ε σ β} {f : α → Prog μ ε σ γ}
  {g : β → Prog μ ε σ δ}

theorem Alike.cases (h : Alike x y) (L : List μ) (s : σ) :
    (∃ e, x L s = .error e ∧ y L s = .error e) ∨
      ∃ a b s', x L s = .ok (a, s') ∧ y L s = .ok (b, s') := by
  have h := h L s
  cases hx : x L s with
  | error e =>
      cases hy : y L s with
      | error e' =>
          rw [hx, hy] at h
          cases h
          exact Or.inl ⟨e, rfl, rfl⟩
      | ok q =>
          rw [hx, hy] at h
          cases h
  | ok p =>
      cases hy : y L s with
      | error e =>
          rw [hx, hy] at h
          cases h
      | ok q =>
          rw [hx, hy] at h
          have hstate : p.2 = q.2 := Except.ok.inj h
          exact Or.inr ⟨p.1, q.1, q.2, by rw [← hstate], rfl⟩

theorem Alike.refl (x : Prog μ ε σ α) : Alike x x := fun _ _ => rfl

theorem Alike.pure (a : α) (b : β) :
    Alike (pure a : Prog μ ε σ α) (pure b : Prog μ ε σ β) := fun _ _ => rfl

theorem Alike.bind (hx : Alike x y) (hf : ∀ a b, Alike (f a) (g b)) :
    Alike (x >>= f) (y >>= g) := by
  intro L s
  rw [run_bind, run_bind]
  rcases hx.cases L s with ⟨e, hxs, hys⟩ | ⟨a, b, s', hxs, hys⟩
  · rw [hxs, hys]
    rfl
  · rw [hxs, hys]
    exact hf a b L s'

/-- After one and the same program. -/
theorem Alike.after {g : α → Prog μ ε σ δ} (hf : ∀ a, Alike (f a) (g a)) :
    Alike (x >>= f) (x >>= g) := by
  intro L s
  rw [run_bind, run_bind]
  cases x L s with
  | error e => rfl
  | ok p => exact hf p.1 L p.2

/-- What is made of the result does not matter. -/
theorem Alike.made (hx : Alike x y) (h : α → γ) : Alike (x >>= fun a => Pure.pure (h a)) y := by
  intro L s
  rw [run_bind]
  rcases hx.cases L s with ⟨e, hxs, hys⟩ | ⟨a, b, s', hxs, hys⟩
  · rw [hxs, hys]
    rfl
  · rw [hxs, hys]
    rfl

theorem Alike.scopedLock [DecidableEq μ] {m : μ} (h : Alike x y) :
    Alike (scopedLock m x) (scopedLock m y) := by
  intro L s
  unfold Prog.scopedLock
  split
  · rfl
  · exact h (m :: L) s

/-- Without results they are the same. -/
theorem Alike.eq {x y : Prog μ ε σ Unit} (h : Alike x y) : x = y := by
  funext L s
  rcases h.cases L s with ⟨e, hxs, hys⟩ | ⟨a, b, s', hxs, hys⟩
  · rw [hxs, hys]
  · rw [hxs, hys]

end Alike

end Prog

end Logkafka
