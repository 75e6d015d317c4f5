/-
# `Logkafka.Manager.Frame` — work for one pattern leaves the others alone

The Manager's maps are keyed by pattern, and what it does for the patterns in
`T` is seen only at the patterns in `T`: `Frame T s s'`.  That rests on `Wf`:
the watcher stored under a pattern watches it, a watcher's entry has its
pattern, and identities are not used twice.  Both are kept by everything the
Manager does, also where it goes wrong.

So a fact about a pattern is carried over work for other patterns by `Frame`
alone.  The changes to the maps are of four kinds, each with its frame and with
`Wf` kept: work on one watcher, a new watcher registered, `NULL` stored, and a
watcher taken out.
-/
import Logkafka.Manager.Spec

namespace Logkafka

open Manager PositionFile Prog

variable {cfg : Config} {env : Env} {E : Fault Mutex Crash → Prop}
  {P : Str} {tw : WatcherId} {t t' : TailWatcher} {s s' s'' : Manager} {T T' : Str → Prop}

structure Manager.Wf (s : Manager) : Prop where
  watchers_lt : ∀ v t, s.watchers v = some t → v < s.nextWatcher
  tails_lt : ∀ P v, s.tails.find? P = some (some v) → v < s.nextWatcher
  tails_pattern : ∀ P v t, s.tails.find? P = some (some v) → s.watchers v = some t →
    t.pathPattern = P
  entry_pattern : ∀ v t, s.watchers v = some t →
    t.positionEntry.key.pathPattern = t.pathPattern
  entries : s.EntriesOk

/-- Only what belongs to the patterns in `T` is changed. -/
structure Frame (T : Str → Prop) (s s' : Manager) : Prop where
  tasks : s'.tasks = s.tasks
  taskConfs : s'.taskConfs = s.taskConfs
  tailsDeleted : s'.tailsDeleted = s.tailsDeleted
  nextWatcher : s.nextWatcher ≤ s'.nextWatcher
  producers : s.producers ⊆ s'.producers
  tails : ∀ P, ¬ T P → s'.tails.find? P = s.tails.find? P
  fresh : ∀ P v, s'.tails.find? P = some (some v) →
    s.tails.find? P = some (some v) ∨ s.nextWatcher ≤ v
  watchers : ∀ v t, ¬ T t.pathPattern → (s'.watchers v = some t ↔ s.watchers v = some t)
  slots : ∀ pe, ¬ T pe.key.pathPattern → s'.slots pe = s.slots pe
  removed : ∀ l, ¬ T l.1.key.pathPattern → (l ∈ s'.removed ↔ l ∈ s.removed)

theorem Frame.refl : Frame T s s :=
  ⟨rfl, rfl, rfl, Nat.le_refl _, List.Subset.refl _, fun _ _ => rfl, fun _ _ => Or.inl,
    fun _ _ _ => Iff.rfl, fun _ _ => rfl, fun _ _ => Iff.rfl⟩

theorem Frame.trans (h : Frame T s s') (h' : Frame T s' s'') : Frame T s s'' where
  tasks := h'.tasks.trans h.tasks
  taskConfs := h'.taskConfs.trans h.taskConfs
  tailsDeleted := h'.tailsDeleted.trans h.tailsDeleted
  nextWatcher := Nat.le_trans h.nextWatcher h'.nextWatcher
  producers := List.Subset.trans h.producers h'.producers
  tails P hP := (h'.tails P hP).trans (h.tails P hP)
  fresh P v hv := by
    rcases h'.fresh P v hv with hv | hv
    · exact h.fresh P v hv
    · exact Or.inr (Nat.le_trans h.nextWatcher hv)
  watchers v t ht := (h'.watchers v t ht).trans (h.watchers v t ht)
  slots pe hpe := (h'.slots pe hpe).trans (h.slots pe hpe)
  removed l hl := (h'.removed l hl).trans (h.removed l hl)

theorem Frame.mono (h : Frame T s s') (hT : ∀ P, T P → T' P) : Frame T' s s' where
  tasks := h.tasks
  taskConfs := h.taskConfs
  tailsDeleted := h.tailsDeleted
  nextWatcher := h.nextWatcher
  producers := h.producers
  tails P hP := h.tails P fun hP' => hP (hT P hP')
  fresh := h.fresh
  watchers v t ht := h.watchers v t fun ht' => ht (hT _ ht')
  slots pe hpe := h.slots pe fun hpe' => hpe (hT _ hpe')
  removed l hl := h.removed l fun hl' => hl (hT _ hl')

/-! ## The changes

Of each kind of change, that it is seen at its own pattern only and that `Wf` is
kept.
-/

/-- A watcher after local work is the one worked on, or it was there before. -/
theorem Local.watcher (h : Local tw P s s') (hw' : s'.watchers tw = some t') {v : WatcherId}
    (hv : s'.watchers v = some t) : v = tw ∧ t = t' ∨ v ≠ tw ∧ s.watchers v = some t := by
  by_cases hvw : v = tw
  · subst hvw
    exact Or.inl ⟨rfl, Option.some.inj (hv.symm.trans hw')⟩
  · exact Or.inr ⟨hvw, h.others v hvw ▸ hv⟩

theorem Local.frame (h : Local tw P s s') (hw : s.watchers tw = some t)
    (hw' : s'.watchers tw = some t') (ht : t.pathPattern = P) (ht' : t'.pathPattern = P) :
    Frame (· = P) s s' where
  tasks := h.tasks
  taskConfs := h.taskConfs
  tailsDeleted := h.tailsDeleted
  nextWatcher := Nat.le_of_eq h.nextWatcher.symm
  producers := fun _ hc => h.producers ▸ hc
  tails Q _ := by rw [h.tails]
  fresh Q v hv := Or.inl (h.tails ▸ hv)
  watchers v t₀ ht₀ := by
    by_cases hv : v = tw
    · subst hv
      rw [hw, hw']
      constructor
      · rintro ⟨⟩
        exact absurd ht' ht₀
      · rintro ⟨⟩
        exact absurd ht ht₀
    · rw [h.others v hv]
  slots := h.slots
  removed _ _ := by rw [h.removed]

/-- Work on entries alone. -/
theorem Local.frame_of_watchers (h : ∀ tw, Local tw P s s') (hw : s'.watchers = s.watchers) :
    Frame (· = P) s s' where
  tasks := (h 0).tasks
  taskConfs := (h 0).taskConfs
  tailsDeleted := (h 0).tailsDeleted
  nextWatcher := Nat.le_of_eq (h 0).nextWatcher.symm
  producers := fun _ hc => (h 0).producers ▸ hc
  tails Q _ := by rw [(h 0).tails]
  fresh Q v hv := Or.inl ((h 0).tails ▸ hv)
  watchers v t₀ _ := by rw [hw]
  slots := (h 0).slots
  removed _ _ := by rw [(h 0).removed]

theorem Manager.Wf.local (hs : s.Wf) (h : Local tw P s s') (hw : s.watchers tw = some t)
    (hw' : s'.watchers tw = some t') (hP : t'.pathPattern = t.pathPattern)
    (hpe : t'.positionEntry = t.positionEntry) : s'.Wf where
  watchers_lt v t₀ hv := by
    rw [h.nextWatcher]
    rcases h.watcher hw' hv with ⟨rfl, -⟩ | ⟨-, hv⟩
    · exact hs.watchers_lt v t hw
    · exact hs.watchers_lt v t₀ hv
  tails_lt Q v hv := h.nextWatcher ▸ hs.tails_lt Q v (h.tails ▸ hv)
  tails_pattern Q v t₀ hQ hv := by
    rw [h.tails] at hQ
    rcases h.watcher hw' hv with ⟨rfl, rfl⟩ | ⟨-, hv⟩
    · rw [hP]
      exact hs.tails_pattern Q v t hQ hw
    · exact hs.tails_pattern Q v t₀ hQ hv
  entry_pattern v t₀ hv := by
    rcases h.watcher hw' hv with ⟨rfl, rfl⟩ | ⟨-, hv⟩
    · rw [hP, hpe]
      exact hs.entry_pattern v t hw
    · exact hs.entry_pattern v t₀ hv
  entries := h.entries hs.entries

theorem Manager.Wf.of_watchers (hs : s.Wf) (h : Local tw P s s')
    (hw : s'.watchers = s.watchers) : s'.Wf where
  watchers_lt v t hv := h.nextWatcher ▸ hs.watchers_lt v t (hw ▸ hv)
  tails_lt Q v hv := h.nextWatcher ▸ hs.tails_lt Q v (h.tails ▸ hv)
  tails_pattern Q v t hQ hv := hs.tails_pattern Q v t (h.tails ▸ hQ) (hw ▸ hv)
  entry_pattern v t hv := hs.entry_pattern v t (hw ▸ hv)
  entries := h.entries hs.entries

/-- A new watcher of `P`, stored under it. -/
def Manager.register (s : Manager) (P : Str) (ps : List Str) (t : TailWatcher) : Manager :=
  { s.withNew ps t with tails := s.tails.insert P (some s.nextWatcher) }

theorem Manager.Wf.watchers_next (hs : s.Wf) : s.watchers s.nextWatcher = none := by
  cases h : s.watchers s.nextWatcher with
  | none => rfl
  | some t => exact absurd (hs.watchers_lt _ t h) (Nat.lt_irrefl _)

/-- A watcher after one is registered is the new one, or it was there before. -/
theorem Manager.register_watcher {ps : List Str} {v : WatcherId}
    (hv : (s.register P ps t).watchers v = some t') :
    v = s.nextWatcher ∧ t' = t ∨ v ≠ s.nextWatcher ∧ s.watchers v = some t' := by
  have hv : Function.update s.watchers s.nextWatcher (some t) v = some t' := hv
  by_cases hvn : v = s.nextWatcher
  · subst hvn
    rw [Function.update_self] at hv
    exact Or.inl ⟨rfl, (Option.some.inj hv).symm⟩
  · rw [Function.update_of_ne hvn] at hv
    exact Or.inr ⟨hvn, hv⟩

theorem Manager.register_of_lt {ps : List Str} {v : WatcherId} (hv : v < s.nextWatcher) :
    (s.register P ps t).watchers v = s.watchers v :=
  Function.update_of_ne (Nat.ne_of_lt hv) _ _

theorem Frame.register (hs : s.Wf) {ps : List Str} (hps : s.producers ⊆ ps)
    (ht : t.pathPattern = P) :
    Frame (· = P) s (s.register P ps t) where
  tasks := rfl
  taskConfs := rfl
  tailsDeleted := rfl
  nextWatcher := Nat.le_succ _
  producers := hps
  tails Q hQ := OrdMap.find?_insert_ne hQ _ _
  fresh Q v hv := by
    rcases OrdMap.find?_insert_eq_some.mp hv with ⟨-, h⟩ | ⟨-, h⟩
    · cases h
      exact Or.inr (Nat.le_refl _)
    · exact Or.inl h
  watchers v t₀ ht₀ := by
    show Function.update s.watchers s.nextWatcher (some t) v = some t₀ ↔ _
    by_cases hv : v = s.nextWatcher
    · subst hv
      rw [Function.update_self, hs.watchers_next]
      constructor
      · rintro ⟨⟩
        exact absurd ht ht₀
      · intro h
        cases h
    · rw [Function.update_of_ne hv]
  slots _ _ := rfl
  removed _ _ := Iff.rfl

theorem Manager.Wf.register (hs : s.Wf) {ps : List Str} (ht : t.pathPattern = P)
    (hpe : t.positionEntry.key.pathPattern = P) : (s.register P ps t).Wf where
  watchers_lt v t₀ hv := by
    show v < s.nextWatcher + 1
    rcases register_watcher hv with ⟨rfl, -⟩ | ⟨-, hv⟩
    · exact Nat.lt_succ_self _
    · exact Nat.lt_succ_of_lt (hs.watchers_lt v t₀ hv)
  tails_lt Q v hv := by
    show v < s.nextWatcher + 1
    rcases OrdMap.find?_insert_eq_some.mp hv with ⟨-, h⟩ | ⟨-, h⟩
    · cases h
      exact Nat.lt_succ_self _
    · exact Nat.lt_succ_of_lt (hs.tails_lt Q v h)
  tails_pattern Q v t₀ hQ hv := by
    rcases OrdMap.find?_insert_eq_some.mp hQ with ⟨heq, h⟩ | ⟨-, hQ⟩
    · cases h
      rcases register_watcher hv with ⟨-, rfl⟩ | ⟨hne, -⟩
      · exact ht.trans heq.symm
      · exact absurd rfl hne
    · rw [register_of_lt (hs.tails_lt Q v hQ)] at hv
      exact hs.tails_pattern Q v t₀ hQ hv
  entry_pattern v t₀ hv := by
    rcases register_watcher hv with ⟨-, rfl⟩ | ⟨-, hv⟩
    · exact hpe.trans ht.symm
    · exact hs.entry_pattern v t₀ hv
  entries := hs.entries

theorem Frame.insertNull : Frame (· = P) s { s with tails := s.tails.insert P none } where
  tasks := rfl
  taskConfs := rfl
  tailsDeleted := rfl
  nextWatcher := Nat.le_refl _
  producers := List.Subset.refl _
  tails Q hQ := OrdMap.find?_insert_ne hQ _ _
  fresh Q v hv := by
    rcases OrdMap.find?_insert_eq_some.mp hv with ⟨-, h⟩ | ⟨-, h⟩
    · cases h
    · exact Or.inl h
  watchers _ _ _ := Iff.rfl
  slots _ _ := rfl
  removed _ _ := Iff.rfl

theorem Manager.Wf.insertNull (hs : s.Wf) :
    ({ s with tails := s.tails.insert P none } : Manager).Wf where
  watchers_lt := hs.watchers_lt
  tails_lt Q v hv := by
    rcases OrdMap.find?_insert_eq_some.mp hv with ⟨-, h⟩ | ⟨-, h⟩
    · cases h
    · exact hs.tails_lt Q v h
  tails_pattern Q v t hQ hv := by
    rcases OrdMap.find?_insert_eq_some.mp hQ with ⟨-, h⟩ | ⟨-, h⟩
    · cases h
    · exact hs.tails_pattern Q v t h hv
  entry_pattern := hs.entry_pattern
  entries := hs.entries

/-- The watcher deleted and taken out of the map. -/
def Manager.unregister (s : Manager) (P : Str) (tw : WatcherId) : Manager :=
  { s with
    watchers := Function.update s.watchers tw none
    tails := s.tails.erase P }

theorem Frame.unregister (hw : s.watchers tw = some t) (ht : t.pathPattern = P) :
    Frame (· = P) s (s.unregister P tw) where
  tasks := rfl
  taskConfs := rfl
  tailsDeleted := rfl
  nextWatcher := Nat.le_refl _
  producers := List.Subset.refl _
  tails Q hQ := OrdMap.find?_erase_ne hQ _
  fresh Q v hv := Or.inl (OrdMap.find?_of_find?_erase hv)
  watchers v t₀ ht₀ := by
    show Function.update s.watchers tw none v = some t₀ ↔ _
    by_cases hv : v = tw
    · subst hv
      rw [Function.update_self, hw]
      constructor
      · intro h
        cases h
      · rintro ⟨⟩
        exact absurd ht ht₀
    · rw [Function.update_of_ne hv]
  slots _ _ := rfl
  removed _ _ := Iff.rfl

theorem of_update_none {f : WatcherId → Option TailWatcher} {v : WatcherId}
    (h : Function.update f tw none v = some t) : f v = some t := by
  by_cases hv : v = tw
  · subst hv
    simp at h
  · rwa [Function.update_of_ne hv] at h

theorem Manager.Wf.unregister (hs : s.Wf) : (s.unregister P tw).Wf where
  watchers_lt v t hv := hs.watchers_lt v t (of_update_none hv)
  tails_lt Q v hv := hs.tails_lt Q v (OrdMap.find?_of_find?_erase hv)
  tails_pattern Q v t hQ hv :=
    hs.tails_pattern Q v t (OrdMap.find?_of_find?_erase hQ) (of_update_none hv)
  entry_pattern v t hv := hs.entry_pattern v t (of_update_none hv)
  entries := hs.entries

end Logkafka
