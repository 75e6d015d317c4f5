/-
# `Logkafka.OrdMap` — ordered sets and maps

A set of ordered keys is its elements in increasing order, a map its entries
in increasing order of their keys; both carry the order as a field, so that
iterating over one is iterating over its list.  These are the containers
`std::set` and `std::map` as far as their contents and order go.

A map is used through `find?`: what `insert` and `erase` do to it is said by
`find?_insert` and `find?_erase`, and `mem_keys` says which keys there are.
-/
import Mathlib.Order.Lattice
import Mathlib.Data.List.Pairwise
import Mathlib.Tactic.Common

namespace Logkafka

variable {κ α : Type*} [LinearOrder κ]

/-- A finite set of keys, in increasing order. -/
structure OrdSet (κ : Type*) [LinearOrder κ] where
  elems : List κ
  sorted : elems.Pairwise (· < ·)

/-- A finite map, in increasing order of its keys. -/
structure OrdMap (κ α : Type*) [LinearOrder κ] where
  entries : List (κ × α)
  sorted : entries.Pairwise fun e e' => e.1 < e'.1

namespace OrdSet

instance : Membership κ (OrdSet κ) := ⟨fun s k => k ∈ s.elems⟩

instance (k : κ) (s : OrdSet κ) : Decidable (k ∈ s) :=
  inferInstanceAs (Decidable (k ∈ s.elems))

theorem mem_elems {k : κ} {s : OrdSet κ} : k ∈ s.elems ↔ k ∈ s := Iff.rfl

def single (k : κ) : OrdSet κ := ⟨[k], List.pairwise_singleton _ _⟩

/-- The elements that are not in the other set. -/
def diff (s t : OrdSet κ) : OrdSet κ := ⟨s.elems.filter (· ∉ t), s.sorted.filter _⟩

/-- The elements that are in the other set too. -/
def inter (s t : OrdSet κ) : OrdSet κ := ⟨s.elems.filter (· ∈ t), s.sorted.filter _⟩

@[simp] theorem mem_diff {k : κ} {s t : OrdSet κ} : k ∈ s.diff t ↔ k ∈ s ∧ k ∉ t := by
  show k ∈ s.elems.filter _ ↔ _
  rw [List.mem_filter]
  simp [mem_elems]

@[simp] theorem mem_inter {k : κ} {s t : OrdSet κ} : k ∈ s.inter t ↔ k ∈ s ∧ k ∈ t := by
  show k ∈ s.elems.filter _ ↔ _
  rw [List.mem_filter]
  simp [mem_elems]

@[simp] theorem mem_single {k k' : κ} : k' ∈ single k ↔ k' = k := List.mem_singleton

/-- What a loop over the set sees before the first element that fails `p`. -/
theorem mem_takeWhile {p : κ → Bool} {k : κ} {s : OrdSet κ} :
    k ∈ s.elems.takeWhile p ↔ k ∈ s ∧ ∀ j ∈ s, j ≤ k → p j = true := by
  obtain ⟨ks, hks⟩ := s
  show k ∈ ks.takeWhile p ↔ k ∈ ks ∧ ∀ j ∈ ks, j ≤ k → p j = true
  induction ks with
  | nil => simp
  | cons i ks ih =>
      obtain ⟨hi, hks⟩ := List.pairwise_cons.mp hks
      cases hp : p i with
      | false =>
          rw [List.takeWhile_cons_of_neg (by simp [hp])]
          refine iff_of_false List.not_mem_nil ?_
          rintro ⟨hk, hall⟩
          have hle : i ≤ k := by
            rcases List.mem_cons.mp hk with rfl | hk
            · exact le_refl _
            · exact le_of_lt (hi k hk)
          rw [hall i List.mem_cons_self hle] at hp
          cases hp
      | true =>
          rw [List.takeWhile_cons_of_pos hp, List.mem_cons, List.mem_cons, ih hks]
          constructor
          · rintro (rfl | ⟨hk, hall⟩)
            · refine ⟨Or.inl rfl, fun j hj hle => ?_⟩
              rcases List.mem_cons.mp hj with rfl | hj
              · exact hp
              · exact absurd hle (not_le_of_gt (hi j hj))
            · refine ⟨Or.inr hk, fun j hj hle => ?_⟩
              rcases List.mem_cons.mp hj with rfl | hj
              · exact hp
              · exact hall j hj hle
          · rintro ⟨hk | hk, hall⟩
            · exact Or.inl hk
            · exact Or.inr ⟨hk, fun j hj => hall j (List.mem_cons_of_mem _ hj)⟩

theorem nodup (s : OrdSet κ) : s.elems.Nodup := s.sorted.imp fun h => ne_of_lt h

end OrdSet

namespace OrdMap

def empty : OrdMap κ α := ⟨[], List.Pairwise.nil⟩

def findIn (k : κ) : List (κ × α) → Option α
  | [] => none
  | (k', a) :: es => if k = k' then some a else findIn k es

def find? (m : OrdMap κ α) (k : κ) : Option α := findIn k m.entries

def insertIn (k : κ) (a : α) : List (κ × α) → List (κ × α)
  | [] => [(k, a)]
  | (k', a') :: es =>
      if k < k' then (k, a) :: (k', a') :: es
      else if k = k' then (k, a) :: es
      else (k', a') :: insertIn k a es

theorem mem_insertIn {k : κ} {a : α} {e : κ × α} :
    ∀ {es : List (κ × α)}, e ∈ insertIn k a es → e = (k, a) ∨ e ∈ es
  | [], h => Or.inl (List.mem_singleton.mp h)
  | (k', a') :: es, h => by
      unfold insertIn at h
      split at h
      · rcases List.mem_cons.mp h with h | h
        · exact Or.inl h
        · exact Or.inr h
      · split at h
        · rcases List.mem_cons.mp h with h | h
          · exact Or.inl h
          · exact Or.inr (List.mem_cons_of_mem _ h)
        · rcases List.mem_cons.mp h with h | h
          · exact Or.inr (h ▸ List.mem_cons_self)
          · rcases mem_insertIn h with h | h
            · exact Or.inl h
            · exact Or.inr (List.mem_cons_of_mem _ h)

theorem sorted_insertIn (k : κ) (a : α) :
    ∀ {es : List (κ × α)}, es.Pairwise (fun e e' => e.1 < e'.1) →
      (insertIn k a es).Pairwise fun e e' => e.1 < e'.1
  | [], _ => List.pairwise_singleton _ _
  | (k', a') :: es, h => by
      obtain ⟨hhead, htail⟩ := List.pairwise_cons.mp h
      unfold insertIn
      split
      · next hlt =>
          refine List.pairwise_cons.mpr ⟨fun e he => ?_, h⟩
          rcases List.mem_cons.mp he with rfl | he
          · exact hlt
          · exact lt_trans hlt (hhead e he)
      · next hnlt =>
          split
          · next heq =>
              subst heq
              exact List.pairwise_cons.mpr ⟨hhead, htail⟩
          · next hne =>
              refine List.pairwise_cons.mpr ⟨fun e he => ?_, sorted_insertIn k a htail⟩
              rcases mem_insertIn he with rfl | he
              · exact lt_of_le_of_ne (not_lt.mp hnlt) (Ne.symm hne)
              · exact hhead e he

def insert (m : OrdMap κ α) (k : κ) (a : α) : OrdMap κ α :=
  ⟨insertIn k a m.entries, sorted_insertIn k a m.sorted⟩

def erase (m : OrdMap κ α) (k : κ) : OrdMap κ α :=
  ⟨m.entries.filter (·.1 ≠ k), m.sorted.filter _⟩

def mapWithKey {β : Type*} (f : κ → α → β) (m : OrdMap κ α) : OrdMap κ β :=
  ⟨m.entries.map fun e => (e.1, f e.1 e.2), List.pairwise_map.mpr m.sorted⟩

def keys (m : OrdMap κ α) : OrdSet κ := ⟨m.entries.map Prod.fst, List.pairwise_map.mpr m.sorted⟩

theorem findIn_insertIn (k k' : κ) (a : α) (es : List (κ × α)) :
    findIn k' (insertIn k a es) = if k' = k then some a else findIn k' es := by
  induction es with
  | nil => rfl
  | cons e es ih =>
      obtain ⟨j, b⟩ := e
      unfold insertIn
      split
      · rfl
      · split
        · next heq =>
            subst heq
            by_cases hk : k' = k
            · simp [findIn, hk]
            · simp [findIn, hk]
        · next hne =>
            by_cases hj : k' = j
            · subst hj
              rw [if_neg (Ne.symm hne)]
              simp [findIn]
            · simp [findIn, hj, ih]

theorem find?_insert (m : OrdMap κ α) (k k' : κ) (a : α) :
    (m.insert k a).find? k' = if k' = k then some a else m.find? k' :=
  findIn_insertIn k k' a m.entries

@[simp] theorem find?_insert_self (m : OrdMap κ α) (k : κ) (a : α) :
    (m.insert k a).find? k = some a := by
  rw [find?_insert, if_pos rfl]

theorem find?_insert_ne {k k' : κ} (h : k' ≠ k) (m : OrdMap κ α) (a : α) :
    (m.insert k a).find? k' = m.find? k' := by
  rw [find?_insert, if_neg h]

theorem find?_insert_eq_some {m : OrdMap κ α} {k k' : κ} {a b : α} :
    (m.insert k a).find? k' = some b ↔ k' = k ∧ a = b ∨ k' ≠ k ∧ m.find? k' = some b := by
  rw [find?_insert]
  split
  · next h => simp [h]
  · next h => simp [h]

theorem findIn_filter (k k' : κ) (es : List (κ × α)) :
    findIn k' (es.filter (·.1 ≠ k)) = if k' = k then none else findIn k' es := by
  induction es with
  | nil => simp [findIn]
  | cons e es ih =>
      obtain ⟨j, b⟩ := e
      by_cases hj : j = k
      · subst hj
        rw [List.filter_cons_of_neg (by simp), ih]
        by_cases hk : k' = j
        · simp [hk]
        · simp [findIn, hk]
      · rw [List.filter_cons_of_pos (by simpa using hj)]
        by_cases hkj : k' = j
        · subst hkj
          rw [if_neg hj]
          simp [findIn]
        · simp only [findIn, if_neg hkj, ih]

theorem find?_erase (m : OrdMap κ α) (k k' : κ) :
    (m.erase k).find? k' = if k' = k then none else m.find? k' :=
  findIn_filter k k' m.entries

@[simp] theorem find?_erase_self (m : OrdMap κ α) (k : κ) : (m.erase k).find? k = none := by
  rw [find?_erase, if_pos rfl]

theorem find?_erase_ne {k k' : κ} (h : k' ≠ k) (m : OrdMap κ α) :
    (m.erase k).find? k' = m.find? k' := by
  rw [find?_erase, if_neg h]

theorem find?_of_find?_erase {m : OrdMap κ α} {k k' : κ} {a : α}
    (h : (m.erase k).find? k' = some a) : m.find? k' = some a := by
  rw [find?_erase] at h
  split at h
  · cases h
  · exact h

theorem findIn_map {β : Type*} (f : κ → α → β) (k : κ) (es : List (κ × α)) :
    findIn k (es.map fun e => (e.1, f e.1 e.2)) = (findIn k es).map (f k) := by
  induction es with
  | nil => rfl
  | cons e es ih =>
      obtain ⟨j, b⟩ := e
      by_cases hk : k = j
      · subst hk
        simp [findIn]
      · simp only [List.map_cons, findIn, if_neg hk, ih]

@[simp] theorem find?_mapWithKey {β : Type*} (f : κ → α → β) (m : OrdMap κ α) (k : κ) :
    (m.mapWithKey f).find? k = (m.find? k).map (f k) :=
  findIn_map f k m.entries

theorem mem_entries {m : OrdMap κ α} {k : κ} {a : α} :
    (k, a) ∈ m.entries ↔ m.find? k = some a := by
  obtain ⟨es, hes⟩ := m
  show (k, a) ∈ es ↔ findIn k es = some a
  induction es with
  | nil => simp [findIn]
  | cons e es ih =>
      obtain ⟨j, b⟩ := e
      obtain ⟨hj, htail⟩ := List.pairwise_cons.mp hes
      rw [List.mem_cons, ih htail, findIn]
      split
      · next hk =>
          subst hk
          -- the key stands once
          have hnone : findIn k es ≠ some a := fun h => lt_irrefl k (hj _ ((ih htail).mpr h))
          simp [hnone, eq_comm]
      · next hk => simp [hk]

/-- What is asked of every entry can be computed. -/
instance {m : OrdMap κ α} {p : κ → α → Prop} [∀ k a, Decidable (p k a)] :
    Decidable (∀ k a, m.find? k = some a → p k a) :=
  decidable_of_iff (∀ e ∈ m.entries, p e.1 e.2)
    ⟨fun h _ _ hk => h _ (mem_entries.mpr hk), fun h _ he => h _ _ (mem_entries.mp he)⟩

/-- The same where an entry may be empty. -/
instance {m : OrdMap κ (Option α)} {p : κ → α → Prop} [∀ k a, Decidable (p k a)] :
    Decidable (∀ k a, m.find? k = some (some a) → p k a) :=
  decidable_of_iff (∀ k o, m.find? k = some o → ∀ a, o = some a → p k a)
    ⟨fun h k a hk => h k _ hk a rfl, fun h k _ hk a ho => h k a (ho ▸ hk)⟩

instance {o : Option (Option α)} {p : α → Prop} [DecidablePred p] :
    Decidable (∀ a, o = some (some a) → p a) :=
  decidable_of_iff (∀ o', o = some o' → ∀ a, o' = some a → p a)
    ⟨fun h a ho => h _ ho a rfl, fun h _ ho a ho' => h a (ho' ▸ ho)⟩

theorem mem_unique {m : OrdMap κ α} {k : κ} {a b : α} (ha : (k, a) ∈ m.entries)
    (hb : (k, b) ∈ m.entries) : a = b :=
  Option.some.inj ((mem_entries.mp ha).symm.trans (mem_entries.mp hb))

/-- A map is what it has for each key. -/
theorem ext_find? {m m' : OrdMap κ α} (h : ∀ k, m.find? k = m'.find? k) : m = m' := by
  have hnodup : ∀ m : OrdMap κ α, m.entries.Nodup := fun m =>
    m.sorted.imp fun hlt heq => ne_of_lt hlt (congrArg Prod.fst heq)
  have hentries : m.entries = m'.entries := by
    refine List.Perm.eq_of_pairwise (fun _ _ _ _ hab hba => absurd hba (lt_asymm hab))
      m.sorted m'.sorted ((List.perm_ext_iff_of_nodup (hnodup m) (hnodup m')).mpr ?_)
    rintro ⟨k, a⟩
    rw [mem_entries, mem_entries, h k]
  cases m
  cases m'
  cases hentries
  rfl

theorem insertIn_map {β : Type*} (f : κ → α → β) (k : κ) (a : α) (es : List (κ × α)) :
    (insertIn k a es).map (fun e => (e.1, f e.1 e.2))
      = insertIn k (f k a) (es.map fun e => (e.1, f e.1 e.2)) := by
  induction es with
  | nil => rfl
  | cons e es ih =>
      simp only [insertIn, List.map_cons]
      split
      · rfl
      · split
        · rfl
        · rw [List.map_cons, ih]

theorem mapWithKey_insert {β : Type*} (f : κ → α → β) (m : OrdMap κ α) (k : κ) (a : α) :
    (m.insert k a).mapWithKey f = (m.mapWithKey f).insert k (f k a) := by
  simp only [mapWithKey, insert, insertIn_map]

@[simp] theorem find?_empty (k : κ) : (empty : OrdMap κ α).find? k = none := rfl

theorem mem_map_fst_iff (k : κ) (es : List (κ × α)) :
    k ∈ es.map Prod.fst ↔ ∃ a, findIn k es = some a := by
  induction es with
  | nil => simp [findIn]
  | cons e es ih =>
      obtain ⟨j, b⟩ := e
      by_cases hk : k = j
      · simp [findIn, hk]
      · rw [List.map_cons, List.mem_cons, ih]
        simp [findIn, hk]

theorem mem_keys {m : OrdMap κ α} {k : κ} : k ∈ m.keys ↔ ∃ a, m.find? k = some a :=
  mem_map_fst_iff k m.entries

theorem not_mem_keys {m : OrdMap κ α} {k : κ} : k ∉ m.keys ↔ m.find? k = none := by
  rw [mem_keys, ← Option.ne_none_iff_exists', not_not]

theorem mem_keys_insert {m : OrdMap κ α} {k k' : κ} {a : α} (h : k ∈ m.keys) :
    k ∈ (m.insert k' a).keys := by
  rw [mem_keys, find?_insert]
  split
  · exact ⟨a, rfl⟩
  · exact mem_keys.mp h

end OrdMap

end Logkafka
