/-
# `Logkafka.Zookeeper.Registration` — one process for one id

The last part of `Zookeeper::refreshWatchers` makes the ephemeral node of the
logkafka id: `zoo_get` looks at what is there, a persistent node is deleted,
and where the call found none `zoo_create` makes one and sets `m_registered`.
A process that finds an ephemeral node and has never made one itself exits.

Here are any number of processes with one id, the node they share, and the
sessions that own it.  The calls are single steps, so that the processes
interleave between them; the ensemble is linearizable, and a node goes with the
session that owns it.

    Makes s p i          `zoo_create` of `p` makes the node, for the session `i`
    Takes i s a          the event takes away the node that `i` owns
    Lapsed node as p     `p` made the node, has not exited since, and it was taken away

`m_registered` stays set when the node is lost, so that a process that has
`Lapsed` does not look again; the others see no node and register.
-/
import Logkafka.Run
import Mathlib.Tactic.Common

namespace Logkafka

abbrev SessionId := ℕ

/-- What is under `m_client_logkafka_id_path`. -/
inductive ClientNode
  | absent
  | persistent
  | ephemeral (ephemeralOwner : SessionId)
  deriving DecidableEq

/-- How far a process is in the last part of `refreshWatchers`, which it does
under `m_zhandle_mutex`: `zoo_get` found a persistent node, or none. -/
inductive Registering
  | idle
  | deleting
  | creating
  deriving DecidableEq

/-- A process that has not exited.  `zhandle` is the session of `m_zhandle`. -/
structure Process where
  registered : Bool
  zhandle : Option SessionId
  registering : Registering
  deriving DecidableEq

structure Ensemble where
  node : ClientNode
  alive : SessionId → Bool
  nextSession : SessionId
  procs : ℕ → Option Process

/-- What becomes of a call: it is carried out and answered, it is carried out
and the answer is lost, or it is not carried out. -/
inductive Reply
  | received
  | lost
  | undone
  deriving DecidableEq

inductive RegistryEvent
  | start (p : ℕ)
  | connect (p : ℕ)
  | zooGet (p : ℕ) (reply : Reply)
  | zooDelete (p : ℕ) (reply : Reply)
  | zooCreate (p : ℕ) (reply : Reply)
  | expire (session : SessionId)
  | close (p : ℕ)
  | exit (p : ℕ)
  | persist
  deriving DecidableEq

namespace Ensemble

/-- Before any process is started; an ephemeral node is of an earlier one. -/
def init (node : ClientNode) : Ensemble where
  node := node
  alive i := decide (node = .ephemeral i)
  nextSession :=
    match node with
    | .ephemeral i => i + 1
    | _ => 1
  procs _ := none

def setProc (s : Ensemble) (p : ℕ) (proc : Option Process) : Ensemble :=
  { s with procs := Function.update s.procs p proc }

/-- The session is over, and the node that it owns is gone. -/
def endSession (s : Ensemble) (i : SessionId) : Ensemble :=
  { s with
    alive := Function.update s.alive i false
    node := if s.node = .ephemeral i then .absent else s.node }

/-- The session of the handle, as long as it is alive. -/
def session (s : Ensemble) (proc : Process) : Option SessionId :=
  proc.zhandle.filter s.alive

/-- `Zookeeper::connect`, for `refreshConnection`: where there is no handle, or
its session has expired. -/
def connect (s : Ensemble) (p : ℕ) (proc : Process) : Option Ensemble :=
  match proc.registering, s.session proc with
  | .idle, none => some
      { s.setProc p (some { proc with zhandle := some s.nextSession }) with
        alive := Function.update s.alive s.nextSession true
        nextSession := s.nextSession + 1 }
  | _, _ => none

/-- `zoo_get` and what `refreshWatchers` does about its answer.  Any answer but
`ZOK` leads to `zoo_create`. -/
def zooGet (s : Ensemble) (p : ℕ) (proc : Process) (reply : Reply) : Option Ensemble :=
  match proc.registering with
  | .idle =>
      match if s.session proc ≠ none ∧ reply = .received then s.node else .absent with
      | .absent => some (s.setProc p (some { proc with registering := .creating }))
      | .persistent => some (s.setProc p (some { proc with registering := .deleting }))
      | .ephemeral _ =>
          if proc.registered then some s
          else some (s.setProc p none)   -- exit(EXIT_FAILURE)
  | _ => none

/-- `zoo_delete` of whatever version of the node is there, and the return. -/
def zooDelete (s : Ensemble) (p : ℕ) (proc : Process) (reply : Reply) : Option Ensemble :=
  match proc.registering with
  | .deleting =>
      let done := s.session proc ≠ none ∧ reply ≠ .undone
      some { s.setProc p (some { proc with registering := .idle }) with
        node := if done then .absent else s.node }
  | _ => none

/-- The session for which `zoo_create` makes the node, if it makes it. -/
def creates (s : Ensemble) (proc : Process) (reply : Reply) : Option SessionId :=
  if s.node = .absent ∧ reply ≠ .undone then s.session proc else none

/-- `zoo_create`, and `m_registered = true` when it returns `ZOK`. -/
def zooCreate (s : Ensemble) (p : ℕ) (proc : Process) (reply : Reply) : Option Ensemble :=
  match proc.registering with
  | .creating =>
      let proc := { proc with registering := .idle }
      match s.creates proc reply with
      | some i => some
          { s.setProc p (some
              { proc with registered := proc.registered || reply = .received }) with
            node := .ephemeral i }
      | none => some (s.setProc p (some proc))
  | _ => none

def close (s : Ensemble) (p : ℕ) (proc : Process) : Option Ensemble :=
  match proc.registering with
  | .idle =>
      match proc.zhandle with
      | some i => some ((s.endSession i).setProc p (some { proc with zhandle := none }))
      | none => some s
  | _ => none

/-- One step of a process, a session or the node. -/
def step : RegistryEvent → Ensemble → Option Ensemble
  | .start p, s =>
      match s.procs p with
      | none => some (s.setProc p (some ⟨false, none, .idle⟩))
      | some _ => none
  | .connect p, s => (s.procs p).bind (s.connect p)
  | .zooGet p reply, s => (s.procs p).bind (s.zooGet p · reply)
  | .zooDelete p reply, s => (s.procs p).bind (s.zooDelete p · reply)
  | .zooCreate p reply, s => (s.procs p).bind (s.zooCreate p · reply)
  | .expire i, s => some (s.endSession i)
  | .close p, s => (s.procs p).bind (s.close p)
  | .exit p, s => some (s.setProc p none)
  | .persist, s => if s.node = .absent then some { s with node := .persistent } else none

/-! ## Who is registered

The property is of a state; `Made` and `Lapsed` are of the events that led to it.
-/

def Registered (p : ℕ) (s : Ensemble) : Prop :=
  ∃ proc, s.procs p = some proc ∧ proc.registered = true

/-- At most one process that has not exited is registered. -/
def OneRegistered (s : Ensemble) : Prop :=
  ∀ p q, Registered p s → Registered q s → p = q

/-- `zoo_create` of `p` makes the node, for the session `i`, if it is answered. -/
def Makes (s : Ensemble) (p : ℕ) (i : SessionId) : Prop :=
  ∃ proc, s.procs p = some proc ∧ s.creates proc .received = some i

/-- The event takes away the node that the session `i` owns: the session ends, or
a process deletes the node. -/
def Takes (i : SessionId) (s : Ensemble) : RegistryEvent → Prop
  | .expire j => j = i
  | .close p => ∃ proc, s.procs p = some proc ∧ proc.zhandle = some i
  | .zooDelete p reply =>
      ∃ proc, s.procs p = some proc ∧ s.session proc ≠ none ∧ reply ≠ .undone
  | _ => False

/-- After the events `as`: `p` registered with the node of the session `i`, and
has not exited since. -/
def Made (node : ClientNode) (as : List RegistryEvent) (p : ℕ) (i : SessionId) : Prop :=
  ∃ bs cs s, as = bs ++ .zooCreate p .received :: cs ∧ run step bs (init node) = some s ∧
    Makes s p i ∧ .exit p ∉ cs

/-- After the events `as`: `p` registered with a node that was taken away since,
and has not exited. -/
def Lapsed (node : ClientNode) (as : List RegistryEvent) (p : ℕ) : Prop :=
  ∃ bs a cs i s, as = bs ++ a :: cs ∧ Made node bs p i ∧ run step bs (init node) = some s ∧
    Takes i s a ∧ .exit p ∉ a :: cs

/-- Where `zoo_create` makes the node, and the process registers, no other one has
`Lapsed`. -/
def Undisputed (node : ClientNode) (as : List RegistryEvent) : Prop :=
  ∀ bs p cs s i, as = bs ++ .zooCreate p .received :: cs → run step bs (init node) = some s →
    Makes s p i → ∀ q, q ≠ p → ¬ Lapsed node bs q

/-- The step does not register one process beside another. -/
def Uncontested (s : Ensemble) : RegistryEvent → Prop
  | .zooCreate p .received => ∀ i, Makes s p i → ∀ q, q ≠ p → ¬ Registered q s
  | _ => True

/-! ## The steps -/

variable {s s' : Ensemble} {p q : ℕ} {proc proc' : Process} {i : SessionId} {reply : Reply}

/-- What a step is. -/
inductive Stepped (s : Ensemble) : RegistryEvent → Ensemble → Prop
  | start {p : ℕ} : s.procs p = none →
      Stepped s (.start p) (s.setProc p (some ⟨false, none, .idle⟩))
  | connect {p : ℕ} {proc : Process} : s.procs p = some proc → proc.registering = .idle →
      s.session proc = none → Stepped s (.connect p)
        { s.setProc p (some { proc with zhandle := some s.nextSession }) with
          alive := Function.update s.alive s.nextSession true
          nextSession := s.nextSession + 1 }
  | getAbsent {p : ℕ} {proc : Process} {reply : Reply} : s.procs p = some proc →
      proc.registering = .idle →
      (if s.session proc ≠ none ∧ reply = .received then s.node else .absent) = .absent →
      Stepped s (.zooGet p reply) (s.setProc p (some { proc with registering := .creating }))
  | getPersistent {p : ℕ} {proc : Process} {reply : Reply} : s.procs p = some proc →
      proc.registering = .idle →
      (if s.session proc ≠ none ∧ reply = .received then s.node else .absent) = .persistent →
      Stepped s (.zooGet p reply) (s.setProc p (some { proc with registering := .deleting }))
  | getOwn {p : ℕ} {proc : Process} {reply : Reply} : s.procs p = some proc →
      proc.registering = .idle → proc.registered = true → Stepped s (.zooGet p reply) s
  | getOther {p : ℕ} {proc : Process} {reply : Reply} : s.procs p = some proc →
      proc.registering = .idle → proc.registered = false →
      Stepped s (.zooGet p reply) (s.setProc p none)
  | delete {p : ℕ} {proc : Process} {reply : Reply} : s.procs p = some proc →
      proc.registering = .deleting → Stepped s (.zooDelete p reply)
        { s.setProc p (some { proc with registering := .idle }) with
          node := if s.session proc ≠ none ∧ reply ≠ .undone then .absent else s.node }
  | make {p : ℕ} {proc : Process} {reply : Reply} {i : SessionId} : s.procs p = some proc →
      proc.registering = .creating → s.creates proc reply = some i →
      Stepped s (.zooCreate p reply)
        { s.setProc p (some { proc with
            registering := .idle
            registered := proc.registered || reply = .received }) with
          node := .ephemeral i }
  | makeFails {p : ℕ} {proc : Process} {reply : Reply} : s.procs p = some proc →
      proc.registering = .creating → s.creates proc reply = none →
      Stepped s (.zooCreate p reply) (s.setProc p (some { proc with registering := .idle }))
  | expire {i : SessionId} : Stepped s (.expire i) (s.endSession i)
  | close {p : ℕ} {proc : Process} {i : SessionId} : s.procs p = some proc →
      proc.registering = .idle → proc.zhandle = some i →
      Stepped s (.close p) ((s.endSession i).setProc p (some { proc with zhandle := none }))
  | closed {p : ℕ} {proc : Process} : s.procs p = some proc → proc.registering = .idle →
      proc.zhandle = none → Stepped s (.close p) s
  | exit {p : ℕ} : Stepped s (.exit p) (s.setProc p none)
  | persist : s.node = .absent → Stepped s .persist { s with node := .persistent }

theorem step_cases {a : RegistryEvent} (h : step a s = some s') : Stepped s a s' := by
  cases a with
  | start p =>
      simp only [step] at h
      split at h
      · next hnone =>
          cases h
          exact .start hnone
      · cases h
  | connect p =>
      obtain ⟨proc, hproc, h⟩ := Option.bind_eq_some_iff.mp h
      unfold connect at h
      split at h
      · next hidle hnone =>
          cases h
          exact .connect hproc hidle hnone
      · cases h
  | zooGet p reply =>
      obtain ⟨proc, hproc, h⟩ := Option.bind_eq_some_iff.mp h
      unfold zooGet at h
      split at h
      · next hidle =>
          split at h
          · next habsent =>
              cases h
              exact .getAbsent hproc hidle habsent
          · next hpersistent =>
              cases h
              exact .getPersistent hproc hidle hpersistent
          · split at h
            · next hown =>
                cases h
                exact .getOwn hproc hidle hown
            · next hother =>
                cases h
                exact .getOther hproc hidle (by simpa using hother)
      · cases h
  | zooDelete p reply =>
      obtain ⟨proc, hproc, h⟩ := Option.bind_eq_some_iff.mp h
      unfold zooDelete at h
      split at h
      · next hdeleting =>
          cases h
          exact .delete hproc hdeleting
      · cases h
  | zooCreate p reply =>
      obtain ⟨proc, hproc, h⟩ := Option.bind_eq_some_iff.mp h
      unfold zooCreate at h
      split at h
      · next hcreating =>
          dsimp only at h
          split at h
          · next hmade =>
              cases h
              exact .make hproc hcreating hmade
          · next hnone =>
              cases h
              exact .makeFails hproc hcreating hnone
      · cases h
  | expire i =>
      cases h
      exact .expire
  | close p =>
      obtain ⟨proc, hproc, h⟩ := Option.bind_eq_some_iff.mp h
      unfold close at h
      split at h
      · next hidle =>
          split at h
          · next hsome =>
              cases h
              exact .close hproc hidle hsome
          · next hnone =>
              cases h
              exact .closed hproc hidle hnone
      · cases h
  | exit p =>
      cases h
      exact .exit
  | persist =>
      obtain ⟨habsent, h⟩ := Option.ite_none_right_eq_some.mp h
      cases h
      exact .persist habsent

/-! ## What a step does to the registered

Only one call registers a process, and only an exit ends it.
-/

theorem procs_setProc_self {o : Option Process} : (s.setProc p o).procs p = o := by
  simp [setProc]

theorem procs_setProc_ne {o : Option Process} (h : q ≠ p) :
    (s.setProc p o).procs q = s.procs q := by
  simp [setProc, h]

/-- A process that is put in the place of `p` registers nobody else. -/
theorem registered_of_setProc {o : Option Process} (hprocs : s'.procs = (s.setProc p o).procs)
    (hp : ∀ proc', o = some proc' → proc'.registered = true → Registered p s)
    (h : Registered q s') : Registered q s := by
  obtain ⟨proc', hproc, hreg⟩ := h
  rw [hprocs] at hproc
  by_cases hqp : q = p
  · subst hqp
    rw [procs_setProc_self] at hproc
    exact hp proc' hproc hreg
  · rw [procs_setProc_ne hqp] at hproc
    exact ⟨proc', hproc, hreg⟩

/-- The process keeps its flag. -/
theorem registered_of_same (h : Registered q s') (hproc : s.procs p = some proc)
    (hprocs : s'.procs = (s.setProc p (some proc')).procs)
    (hsame : proc'.registered = proc.registered) : Registered q s := by
  refine registered_of_setProc hprocs (fun proc'' hsome hreg => ?_) h
  cases hsome
  exact ⟨proc, hproc, hsame ▸ hreg⟩

/-- Nobody is registered by a step but by the `zoo_create` that makes the node. -/
theorem registered_of_step {a : RegistryEvent} (hstep : step a s = some s')
    (h : Registered q s') : Registered q s ∨
      (a = .zooCreate q .received ∧ ∃ i, Makes s q i ∧ s'.node = .ephemeral i) := by
  cases step_cases hstep with
  | start =>
      refine Or.inl (registered_of_setProc rfl (fun proc' hsome hreg => ?_) h)
      cases hsome
      cases hreg
  | connect hproc | getAbsent hproc | getPersistent hproc | delete hproc | makeFails hproc =>
      exact Or.inl (registered_of_same h hproc rfl rfl)
  | close hproc => exact Or.inl (registered_of_same (s := s) h hproc rfl rfl)
  | getOwn | expire | closed | persist => exact Or.inl h
  | getOther | exit => exact Or.inl (registered_of_setProc rfl (fun _ hsome => by cases hsome) h)
  | @make p proc reply i hproc hcreating hmade =>
      by_cases hnew : reply = .received ∧ q = p
      · obtain ⟨rfl, rfl⟩ := hnew
        exact Or.inr ⟨rfl, i, ⟨proc, hproc, hmade⟩, rfl⟩
      · left
        by_cases hqp : q = p
        · subst hqp
          have hreply : reply ≠ .received := fun heq => hnew ⟨heq, rfl⟩
          exact registered_of_same h hproc rfl (by simp [hreply])
        · obtain ⟨proc', hproc', hreg⟩ := h
          exact ⟨proc', (procs_setProc_ne hqp).symm.trans hproc', hreg⟩

theorem node_of_creates (h : s.creates proc reply = some i) : s.node = .absent := by
  unfold creates at h
  split at h
  · rename_i hnode
    exact hnode.1
  · cases h

theorem Makes.node (h : Makes s p i) : s.node = .absent := by
  obtain ⟨proc, -, hmade⟩ := h
  exact node_of_creates hmade

/-- The `zoo_create` that makes the node registers its process. -/
theorem Makes.registers (h : Makes s p i) (hstep : step (.zooCreate p .received) s = some s') :
    Registered p s' := by
  obtain ⟨proc, hproc, hmade⟩ := h
  cases step_cases hstep with
  | make => exact ⟨_, procs_setProc_self, by simp⟩
  | makeFails hproc' _ hnone =>
      cases hproc.symm.trans hproc'
      cases hmade.symm.trans hnone

/-- In the place of `q` comes a process that is registered if `q` is. -/
theorem Registered.setProc {o : Option Process} (h : Registered q s)
    (hprocs : s'.procs = (s.setProc p o).procs)
    (hp : ∀ proc, s.procs p = some proc → proc.registered = true →
      ∃ proc', o = some proc' ∧ proc'.registered = true) : Registered q s' := by
  obtain ⟨proc, hproc, hreg⟩ := h
  by_cases hqp : q = p
  · subst hqp
    obtain ⟨proc', ho, hreg'⟩ := hp proc hproc hreg
    exact ⟨proc', by rw [hprocs, procs_setProc_self, ho], hreg'⟩
  · exact ⟨proc, by rw [hprocs, procs_setProc_ne hqp, hproc], hreg⟩

/-- Whoever is registered stays so until it exits. -/
theorem Registered.step {a : RegistryEvent} (h : Registered q s) (ha : a ≠ .exit q)
    (hstep : step a s = some s') : Registered q s' := by
  cases step_cases hstep with
  | start hnone => exact h.setProc rfl fun proc hproc => by cases hnone.symm.trans hproc
  | connect hproc | getAbsent hproc | getPersistent hproc | delete hproc | makeFails hproc =>
      refine h.setProc rfl fun proc hproc' hreg => ?_
      cases hproc.symm.trans hproc'
      exact ⟨_, rfl, hreg⟩
  | close hproc =>
      refine Registered.setProc (s := s) h rfl fun proc hproc' hreg => ?_
      cases hproc.symm.trans hproc'
      exact ⟨_, rfl, hreg⟩
  | getOwn | expire | closed | persist => exact h
  | getOther hproc _ hother =>
      refine h.setProc rfl fun proc hproc' hreg => ?_
      cases hproc.symm.trans hproc'
      cases hother.symm.trans hreg
  | make hproc =>
      refine h.setProc rfl fun proc hproc' hreg => ?_
      cases hproc.symm.trans hproc'
      exact ⟨_, rfl, by simp [hreg]⟩
  | @exit p =>
      obtain ⟨proc, hproc, hreg⟩ := h
      have hqp : q ≠ p := fun heq => ha (heq ▸ rfl)
      exact ⟨proc, (procs_setProc_ne hqp).trans hproc, hreg⟩

/-- A node that a session owns is there until it is taken away. -/
theorem takes_of_step {a : RegistryEvent} (hnode : s.node = .ephemeral i)
    (hstep : step a s = some s') (hgone : s'.node ≠ .ephemeral i) : Takes i s a := by
  cases step_cases hstep with
  | start | connect | getAbsent | getPersistent | getOwn | getOther | makeFails | closed | exit =>
      exact absurd hnode hgone
  | delete hproc =>
      by_cases hdone : s.session ‹Process› ≠ none ∧ ‹Reply› ≠ .undone
      · exact ⟨_, hproc, hdone⟩
      · exact absurd ((if_neg hdone).trans hnode) hgone
  | make _ _ hmade => cases hnode.symm.trans (node_of_creates hmade)
  | @expire j =>
      by_cases hj : s.node = .ephemeral j
      · cases hnode.symm.trans hj
        exact rfl
      · exact absurd ((if_neg hj).trans hnode) hgone
  | @close p proc j hproc _ hsome =>
      by_cases hj : s.node = .ephemeral j
      · cases hnode.symm.trans hj
        exact ⟨proc, hproc, hsome⟩
      · exact absurd ((if_neg hj).trans hnode) hgone
  | persist habsent => cases hnode.symm.trans habsent

/-! ## Who has lapsed

What has happened says who is registered: whoever registered and has not exited
since, with the node or without.
-/

section History

variable {node : ClientNode} {as : List RegistryEvent} {a : RegistryEvent}

theorem Made.later (h : Made node as p i) (ha : a ≠ .exit p) : Made node (as ++ [a]) p i := by
  obtain ⟨bs, cs, s, rfl, hs, hmakes, hexit⟩ := h
  refine ⟨bs, cs ++ [a], s, by simp, hs, hmakes, fun hmem => ?_⟩
  rcases List.mem_append.mp hmem with hmem | hmem
  · exact hexit hmem
  · exact ha (List.mem_singleton.mp hmem).symm

theorem Lapsed.later (h : Lapsed node as p) (ha : a ≠ .exit p) : Lapsed node (as ++ [a]) p := by
  obtain ⟨bs, b, cs, i, s, rfl, hmade, hs, htakes, hexit⟩ := h
  refine ⟨bs, b, cs ++ [a], i, s, by simp, hmade, hs, htakes, fun hmem => ?_⟩
  rcases List.mem_append.mp (show _ ∈ (b :: cs) ++ [a] from hmem) with hmem | hmem
  · exact hexit hmem
  · exact ha (List.mem_singleton.mp hmem).symm

theorem Lapsed.made (h : Lapsed node as p) : ∃ i, Made node as p i := by
  obtain ⟨bs, a, cs, i, -, rfl, ⟨bs', cs', s', rfl, hs', hmakes, hexit'⟩, -, -, hexit⟩ := h
  refine ⟨i, bs', cs' ++ a :: cs, s', by simp, hs', hmakes, fun hmem => ?_⟩
  exact (List.mem_append.mp hmem).elim hexit' hexit

theorem Made.registered (h : Made node as p i) (hr : run step as (init node) = some s) :
    Registered p s := by
  obtain ⟨bs, cs, s₀, rfl, hs₀, hmakes, hexit⟩ := h
  rw [run_append, hs₀] at hr
  obtain ⟨s₁, hstep, hrest⟩ := run_cons_eq_some.mp hr
  refine run_inv_along (I := Registered p) (C := fun _ a => a ≠ .exit p)
    (fun a s s' h ha hstep => h.step ha hstep) cs s₁ s (hmakes.registers hstep) ?_ hrest
  exact along_of_forall fun a ha heq => hexit (heq ▸ ha)

/-- Whoever is registered has the node, or has lapsed. -/
theorem made_or_lapsed (hr : run step as (init node) = some s) :
    ∀ p, Registered p s → (∃ i, Made node as p i ∧ s.node = .ephemeral i) ∨ Lapsed node as p := by
  refine run_inv_past (I := fun as s => ∀ p, Registered p s →
    (∃ i, Made node as p i ∧ s.node = .ephemeral i) ∨ Lapsed node as p) ?_ ?_ hr
  · rintro p ⟨proc, hproc, -⟩
    cases hproc
  · intro bs a cs s s' _ hs hstep ih p hp
    rcases registered_of_step hstep hp with hp₀ | ⟨rfl, i, hmakes, hnode⟩
    · have ha : a ≠ .exit p := by
        rintro rfl
        cases step_cases hstep
        obtain ⟨proc, hproc, -⟩ := hp
        cases procs_setProc_self.symm.trans hproc
      rcases ih p hp₀ with ⟨i, hmade, hnode⟩ | hlapsed
      · by_cases hkept : s'.node = .ephemeral i
        · exact Or.inl ⟨i, hmade.later ha, hkept⟩
        · refine Or.inr ⟨bs, a, [], i, s, rfl, hmade, hs, takes_of_step hnode hstep hkept, ?_⟩
          exact fun hmem => ha (List.mem_singleton.mp hmem).symm
      · exact Or.inr (hlapsed.later ha)
    · exact Or.inl ⟨i, ⟨bs, [], s, rfl, hs, hmakes, List.not_mem_nil⟩, hnode⟩

/-- Where there is no node, the registered processes are those that have lapsed. -/
theorem registered_iff_lapsed (hr : run step as (init node) = some s) (hnode : s.node = .absent) :
    Registered p s ↔ Lapsed node as p := by
  constructor
  · intro hp
    refine (made_or_lapsed hr p hp).resolve_left ?_
    rintro ⟨i, -, hi⟩
    cases hnode.symm.trans hi
  · intro h
    obtain ⟨i, hmade⟩ := h.made
    exact hmade.registered hr

theorem undisputed_iff_along (hr : run step as (init node) = some s) :
    Undisputed node as ↔ Along step Uncontested as (init node) := by
  constructor
  · intro h
    refine along_of_cond fun bs a cs t heq ht => ?_
    unfold Uncontested
    split
    · rename_i p
      intro i hmakes q hqp hq
      exact h bs p cs t i heq ht hmakes q hqp ((registered_iff_lapsed ht hmakes.node).mp hq)
    · trivial
  · rintro h bs p cs t i rfl ht hmakes q hqp hq
    have ha : Uncontested t (.zooCreate p .received) := cond_of_along ht h
    exact ha i hmakes q hqp ((registered_iff_lapsed ht hmakes.node).mpr hq)

end History

/-! ## One registered process

The step that makes the node registers its process, so the question is who was
registered before.
-/

theorem oneRegistered_of_step {a : RegistryEvent} (h : s.OneRegistered)
    (ha : s.Uncontested a) (hstep : step a s = some s') : s'.OneRegistered := by
  have hnew : ∀ p q i, Registered q s → a = .zooCreate p .received → Makes s p i → q = p := by
    rintro p q i hq rfl hmakes
    by_contra hqp
    exact ha i hmakes q hqp hq
  intro p q hp hq
  rcases registered_of_step hstep hp with hp | ⟨hpa, i, hpmakes, -⟩
  · rcases registered_of_step hstep hq with hq | ⟨hqa, i, hqmakes, -⟩
    · exact h p q hp hq
    · exact hnew q p i hp hqa hqmakes
  · rcases registered_of_step hstep hq with hq | ⟨hqa, -⟩
    · exact (hnew p q i hq hpa hpmakes).symm
    · cases hpa.symm.trans hqa
      rfl

theorem not_oneRegistered_of_step {a : RegistryEvent} (ha : ¬ s.Uncontested a)
    (hstep : step a s = some s') : ¬ s'.OneRegistered := by
  unfold Uncontested at ha
  split at ha
  · rename_i p
    push Not at ha
    obtain ⟨i, hmakes, q, hqp, hq⟩ := ha
    intro hone
    exact hqp (hone q p (hq.step (by simp) hstep) (hmakes.registers hstep))
  · exact absurd trivial ha

/-- **At most one process is registered**, in every state a run passes, exactly
when none registers while another has lapsed. -/
theorem one_registered_iff (node : ClientNode) (as : List RegistryEvent) (t : Ensemble)
    (hr : run step as (init node) = some t) :
    (∀ u, Visits step as (init node) u → u.OneRegistered) ↔
      Undisputed node as := by
  rw [undisputed_iff_along hr]
  have hinit : (init node).OneRegistered := by
    rintro p q ⟨proc, hproc, -⟩
    cases hproc
  refine visits_iff_along (I := OneRegistered) ?_ ?_ hinit hinit hr
  · intro a s s' h ha hstep
    exact ⟨oneRegistered_of_step h ha hstep, oneRegistered_of_step h ha hstep⟩
  · intro a s s' _ ha hstep
    exact not_oneRegistered_of_step ha hstep

/-- "1" registers, its session expires while it is running, and "2" is started. -/
def takenOver : List RegistryEvent :=
  [.start 1, .connect 1, .zooGet 1 .received, .zooCreate 1 .received, .expire 1,
    .start 2, .connect 2, .zooGet 2 .received, .zooCreate 2 .received]

theorem one_registered_fails : ∃ t, run step takenOver (init .absent) = some t ∧
    Registered 1 t ∧ Registered 2 t ∧ ¬ t.OneRegistered := by
  have hprocs : (run step takenOver (init .absent)).map (fun t => (t.procs 1, t.procs 2)) =
      some (some ⟨true, some 1, .idle⟩, some ⟨true, some 2, .idle⟩) := by
    decide +kernel
  obtain ⟨t, ht, hboth⟩ := Option.map_eq_some_iff.mp hprocs
  obtain ⟨h1, h2⟩ := Prod.mk.inj hboth
  have hr1 : Registered 1 t := ⟨_, h1, rfl⟩
  have hr2 : Registered 2 t := ⟨_, h2, rfl⟩
  refine ⟨t, ht, hr1, hr2, fun hone => ?_⟩
  have : 1 = 2 := hone 1 2 hr1 hr2
  omega

/-- "1" registers and "2" finds its node; "1" is stopped, its session expires, and
"3" is started. -/
def stoppedFirst : List RegistryEvent :=
  [.start 1, .connect 1, .zooGet 1 .received, .zooCreate 1 .received,
    .start 2, .connect 2, .zooGet 2 .received, .exit 1, .expire 1,
    .start 3, .connect 3, .zooGet 3 .received, .zooCreate 3 .received]

theorem one_registered_iff_stopped : ∃ t, run step stoppedFirst (init .absent) = some t ∧
    Registered 3 t ∧ ∀ u, Visits step stoppedFirst (init .absent) u → u.OneRegistered := by
  have hproc : (run step stoppedFirst (init .absent)).map (fun t => t.procs 3) =
      some (some ⟨true, some 3, .idle⟩) := by
    decide +kernel
  obtain ⟨t, ht, hproc⟩ := Option.map_eq_some_iff.mp hproc
  refine ⟨t, ht, ⟨_, hproc, rfl⟩, (one_registered_iff .absent stoppedFirst t ht).mpr ?_⟩
  -- "1" alone registers before another one, and it has exited
  intro bs p cs s i heq _ _ q _ hlapsed
  obtain ⟨j, bs', cs', -, rfl, -, -, hexit⟩ := hlapsed.made
  have hstopped : q = 1 ∧ .exit 1 ∈ cs' := by
    simp [stoppedFirst, List.cons_eq_append_iff, List.append_eq_cons_iff] at heq
    simp [heq]
  exact hexit (hstopped.1 ▸ hstopped.2)

/-- As long as no session ends and no node is deleted, the registration does what
it is for, however the processes interleave. -/
theorem undisputed_of_not_takes (node : ClientNode) {as : List RegistryEvent}
    (has : ∀ a ∈ as, ∀ i s, ¬ Takes i s a) : Undisputed node as := by
  rintro bs p cs s i rfl - - q - ⟨bs', a, cs', j, s', rfl, -, -, htakes, -⟩
  exact has a (by simp) j s' htakes

end Ensemble

end Logkafka
