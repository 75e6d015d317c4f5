/-
# `Logkafka.Manager.Stores` — what an event does to the position store

Of the Manager's state the position file holds four fields, its `Store`.  The
programs of the main loop reach them through three calls on `PositionFile`
(position_file.cc) and its entries, and through nothing else:

    operator[]              a new entry gets the next serial, and a line of zeros
    update, updatePos       the slot of an entry that is in the map
    remove                  the entry leaves the map, its line stays

`Store.call` is such a call and `Effects.stored` says that every event is a list
of them.  A pointer to an entry that is not in the map is not written through:
where an entry is alive, the map has it under its key (`Store.Live`), and where
it is not, the program stops.
-/
import Logkafka.Manager.Effects
import Logkafka.Run

namespace Logkafka

open Manager

/-- A call on the position file or on one of its entries.  `write` is `update`,
or `updatePos` with the inode that is there. -/
inductive StoreCall
  | subscript (key : PositionEntryKey)
  | write (key : PositionEntryKey) (slot : Slot)
  | remove (key : PositionEntryKey)
deriving DecidableEq

namespace Store

def call : StoreCall → Store → Option Store
  | .subscript key, st =>
      match st.peMap.find? key with
      | some _ => some st
      | none => some { st with
          nextSerial := st.nextSerial + 1
          peMap := st.peMap.insert key ⟨key, st.nextSerial⟩
          slots := Function.update st.slots ⟨key, st.nextSerial⟩ (some ⟨0, 0⟩) }
  | .write key slot, st =>
      (st.peMap.find? key).map fun pe =>
        { st with slots := Function.update st.slots pe (some slot) }
  | .remove key, st =>
      match st.peMap.find? key with
      | some pe => some { st with
          peMap := st.peMap.erase key
          slots := Function.update st.slots pe none
          removed := st.removed ++ (st.slots pe).toList.map fun slot => (pe, slot) }
      | none => some st

/-- The map has the entries that are alive, each under its key. -/
structure Live (st : Store) : Prop where
  mapped : ∀ key pe, st.peMap.find? key = some pe → pe.key = key ∧ (st.slots pe).isSome
  found : ∀ pe slot, st.slots pe = some slot → st.peMap.find? pe.key = some pe

variable {st st' : Store} {key : PositionEntryKey} {pe : EntryId} {slot : Slot}

theorem call_subscript_new (h : st.peMap.find? key = none) :
    call (.subscript key) st = some { st with
      nextSerial := st.nextSerial + 1
      peMap := st.peMap.insert key ⟨key, st.nextSerial⟩
      slots := Function.update st.slots ⟨key, st.nextSerial⟩ (some ⟨0, 0⟩) } := by
  simp only [call, h]

theorem call_write (h : st.peMap.find? key = some pe) : call (.write key slot) st
    = some { st with slots := Function.update st.slots pe (some slot) } := by
  simp only [call, h, Option.map_some]

theorem call_remove (h : st.peMap.find? key = some pe) : call (.remove key) st = some { st with
      peMap := st.peMap.erase key
      slots := Function.update st.slots pe none
      removed := st.removed ++ (st.slots pe).toList.map fun slot => (pe, slot) } := by
  simp only [call, h]

/-- What a call does: nothing, or what is said above. -/
theorem call_cases {a : StoreCall} (h : call a st = some st') :
    st' = st ∨
      (∃ key, a = .subscript key ∧ st.peMap.find? key = none ∧ st' = { st with
        nextSerial := st.nextSerial + 1
        peMap := st.peMap.insert key ⟨key, st.nextSerial⟩
        slots := Function.update st.slots ⟨key, st.nextSerial⟩ (some ⟨0, 0⟩) }) ∨
      (∃ key slot pe, a = .write key slot ∧ st.peMap.find? key = some pe ∧
        st' = { st with slots := Function.update st.slots pe (some slot) }) ∨
      ∃ key pe, a = .remove key ∧ st.peMap.find? key = some pe ∧ st' = { st with
        peMap := st.peMap.erase key
        slots := Function.update st.slots pe none
        removed := st.removed ++ (st.slots pe).toList.map fun slot => (pe, slot) } := by
  cases a with
  | subscript key =>
      cases hfind : st.peMap.find? key with
      | some pe =>
          simp only [call, hfind] at h
          exact Or.inl (Option.some.inj h).symm
      | none =>
          rw [call_subscript_new hfind] at h
          exact Or.inr (Or.inl ⟨key, rfl, hfind, (Option.some.inj h).symm⟩)
  | write key slot =>
      obtain ⟨pe, hfind, rfl⟩ := Option.map_eq_some_iff.mp h
      exact Or.inr (Or.inr (Or.inl ⟨key, slot, pe, rfl, hfind, rfl⟩))
  | remove key =>
      cases hfind : st.peMap.find? key with
      | some pe =>
          rw [call_remove hfind] at h
          exact Or.inr (Or.inr (Or.inr ⟨key, pe, rfl, hfind, (Option.some.inj h).symm⟩))
      | none =>
          simp only [call, hfind] at h
          exact Or.inl (Option.some.inj h).symm

theorem Live.call {a : StoreCall} (hl : st.Live) (h : call a st = some st') : st'.Live := by
  rcases call_cases h with rfl | ⟨key, -, hfind, rfl⟩ | ⟨key, slot, pe, -, hfind, rfl⟩ |
    ⟨key, pe, -, hfind, rfl⟩
  · exact hl
  · refine ⟨fun key' pe' hpe' => ?_, fun pe' slot' hslot' => ?_⟩
    · rcases OrdMap.find?_insert_eq_some.mp hpe' with ⟨rfl, rfl⟩ | ⟨-, hold⟩
      · exact ⟨rfl, by simp⟩
      · exact ⟨(hl.mapped key' pe' hold).1, isSome_update_slots (hl.mapped key' pe' hold).2⟩
    · by_cases hpe' : pe' = ⟨key, st.nextSerial⟩
      · subst hpe'
        exact OrdMap.find?_insert_self _ _ _
      · have hslot' : Function.update st.slots ⟨key, st.nextSerial⟩ _ pe' = some slot' := hslot'
        rw [Function.update_of_ne hpe'] at hslot'
        have hold := hl.found pe' slot' hslot'
        refine (OrdMap.find?_insert_ne (fun heq => ?_) _ _).trans hold
        rw [heq, hfind] at hold
        cases hold
  · obtain ⟨hkey, -⟩ := hl.mapped key pe hfind
    refine ⟨fun key' pe' hpe' => ?_, fun pe' slot' hslot' => ?_⟩
    · exact ⟨(hl.mapped key' pe' hpe').1, isSome_update_slots (hl.mapped key' pe' hpe').2⟩
    · by_cases hpe' : pe' = pe
      · subst hpe'
        rw [hkey]
        exact hfind
      · have hslot' : Function.update st.slots pe _ pe' = some slot' := hslot'
        rw [Function.update_of_ne hpe'] at hslot'
        exact hl.found pe' slot' hslot'
  · obtain ⟨hkey, -⟩ := hl.mapped key pe hfind
    refine ⟨fun key' pe' hpe' => ?_, fun pe' slot' hslot' => ?_⟩
    · have hold := OrdMap.find?_of_find?_erase hpe'
      obtain ⟨hkey', halive⟩ := hl.mapped key' pe' hold
      refine ⟨hkey', ?_⟩
      show (Function.update st.slots pe none pe').isSome
      rwa [Function.update_of_ne]
      rintro rfl
      rw [← hkey', hkey, OrdMap.find?_erase_self] at hpe'
      cases hpe'
    · have hslot' : Function.update st.slots pe none pe' = some slot' := hslot'
      by_cases hpe' : pe' = pe
      · rw [hpe', Function.update_self] at hslot'
        cases hslot'
      · rw [Function.update_of_ne hpe'] at hslot'
        have hold := hl.found pe' slot' hslot'
        refine (OrdMap.find?_erase_ne (fun heq => hpe' ?_) _).trans hold
        rw [heq, hfind] at hold
        exact (Option.some.inj hold).symm

end Store

/-! ## Events as calls

Three of the effects are calls, and the others leave the store alone.
-/

/-- The store goes from one state to the other by some calls. -/
def Stored (s s' : Manager) : Prop :=
  s.store.Live → ∃ cs, run Store.call cs s.store = some s'.store

theorem Stored.refl (s : Manager) : Stored s s := fun _ => ⟨[], rfl⟩

theorem Stored.trans {s s' s'' : Manager} (h : Stored s s') (h' : Stored s' s'') :
    Stored s s'' := by
  intro hl
  obtain ⟨cs, hcs⟩ := h hl
  have hl' : s'.store.Live := run_inv (fun _ _ _ hI hc => Store.Live.call hI hc) cs _ _ hl hcs
  obtain ⟨cs', hcs'⟩ := h' hl'
  refine ⟨cs ++ cs', ?_⟩
  rw [run_append, hcs]
  exact hcs'

/-- The store is left alone. -/
theorem Stored.of_same {s s' : Manager} (h : s'.store = s.store) : Stored s s' := fun _ => by
  rw [h]
  exact ⟨[], rfl⟩

theorem Stored.of_call {s s' : Manager} {a : StoreCall}
    (h : s.store.Live → Store.call a s.store = some s'.store) : Stored s s' := fun hl =>
  ⟨[a], run_cons_eq_some.mpr ⟨_, h hl, rfl⟩⟩

theorem Effect.stored {s s' : Manager} (h : Effect s s') : Stored s s' := by
  cases h with
  | beside hstore => exact Stored.of_same hstore
  | watcher | made | gone | producer => exact Stored.of_same rfl
  | entry hfind => exact Stored.of_call fun _ => Store.call_subscript_new hfind
  | written halive =>
      obtain ⟨old, hold⟩ := Option.isSome_iff_exists.mp halive
      exact Stored.of_call fun hl => Store.call_write (hl.found _ old hold)
  | removed hfind => exact Stored.of_call fun _ => Store.call_remove hfind

/-- Every event of the main loop reaches the store by calls alone. -/
theorem Effects.stored {s s' : Manager} (h : Effects s s') : Stored s s' := by
  induction h with
  | refl => exact Stored.refl s
  | tail _ heffect ih => exact ih.trans heffect.stored

end Logkafka
