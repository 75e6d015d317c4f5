/-
# `Logkafka.Manager.Mirror` — the Manager's entries are what the file says

The Manager's model holds its entries as numbers; the position file holds text,
a map of places and the place where the next line goes.  `PositionFile.call` is
what the three calls of `Store.call` do to the text, and `Mirror` is what
relates the two levels:

    file      the lines of all entries ever made since the file was parsed,
              in the order in which they were made, removed ones included
    places    an entry in the map stands at the slot of its line

Every call keeps it (`Mirror.call`), and a process that starts finds it again
(`mirror_init`).  So the two levels go in step over any number of processes,
each stopped or killed between two events and followed by one that parses the
file: `file_simulates`.
-/
import Logkafka.Manager.Stores
import Logkafka.Manager.Unwatched

namespace Logkafka

open Manager PositionFile

variable {cfg : Config} {s s' : Manager} {st st' : Store} {p p' : PositionFile}
  {key : PositionEntryKey} {pe : EntryId} {slot : Slot} {ls : List FileLine}
  {rs : List (EntryId × Slot)}

namespace PositionFile

/-- The calls of `Store.call` on the file. -/
def call : StoreCall → PositionFile → Option PositionFile
  | .subscript key, p => some (p.subscript key)
  | .write key slot, p =>
      (p.peMap.find? key).map fun pe =>
        { p with file := pe.update slot.readInode slot.pos.toInt64 p.file }
  | .remove key, p => some (p.remove key)

end PositionFile

/-! ## The order of the lines

The lines of the file stand in the order in which the entries were made, and a
process that starts numbers them by where they stand.
-/

theorem above_iff {a b : EntryId} :
    above a b = true ↔ a.serial < b.serial ∨ a.serial = b.serial ∧ a.key ≤ b.key := by
  simp [above]

theorem above_trans {a b c : EntryId} (hab : above a b = true) (hbc : above b c = true) :
    above a c = true := by
  rw [above_iff] at hab hbc ⊢
  rcases hab with hab | ⟨hab, hkey⟩
  · rcases hbc with hbc | ⟨hbc, -⟩
    · exact Or.inl (Nat.lt_trans hab hbc)
    · exact Or.inl (hbc ▸ hab)
  · rcases hbc with hbc | ⟨hbc, hkey'⟩
    · exact Or.inl (hab ▸ hbc)
    · exact Or.inr ⟨hab.trans hbc, le_trans hkey hkey'⟩

theorem above_total (a b : EntryId) : (above a b || above b a) = true := by
  rw [Bool.or_eq_true, above_iff, above_iff]
  rcases Nat.lt_trichotomy a.serial b.serial with h | h | h
  · exact Or.inl (Or.inl h)
  · rcases le_total a.key b.key with hkey | hkey
    · exact Or.inl (Or.inr ⟨h, hkey⟩)
    · exact Or.inr (Or.inr ⟨h.symm, hkey⟩)
  · exact Or.inr (Or.inl h)

theorem above_antisymm {a b : EntryId} (hab : above a b = true) (hba : above b a = true) :
    a = b := by
  rw [above_iff] at hab hba
  rcases hab with hab | ⟨hab, hkey⟩
  · rcases hba with hba | ⟨hba, -⟩ <;> omega
  · rcases hba with hba | ⟨-, hkey'⟩
    · omega
    · cases a
      cases b
      cases hab
      cases le_antisymm hkey hkey'
      rfl

/-! ## The two levels

What the numbers of the Manager say, beside the text.  Lines of removed entries are
part of the relation, since `parse` will read them.
-/

/-- The line of an entry. -/
def toLine (r : EntryId × Slot) : FileLine := (r.1.key, r.2)

/-- The file is the lines `rs`, those of the live entries and of the removed
ones, and an entry in the map stands at its line. -/
structure Mirror (rs : List (EntryId × Slot)) (st : Store) (p : PositionFile) : Prop where
  live : st.Live
  file : p.file = textOf (rs.map toLine)
  lastPos : p.lastPos = p.file.length
  ordered : (rs.map Prod.fst).Pairwise fun a b => above a b = true ∧ a ≠ b
  below : ∀ r ∈ rs, r.1.serial < st.nextSerial
  mem : ∀ pe slot, (pe, slot) ∈ rs ↔ st.slots pe = some slot ∨ (pe, slot) ∈ st.removed
  removedNodup : st.removed.Nodup
  removedDead : ∀ r ∈ st.removed, st.slots r.1 = none
  places : ∀ key pe, st.peMap.find? key = some pe → ∃ i slot place,
    rs[i]? = some (pe, slot) ∧ p.peMap.find? key = some place ∧
      place.seek = offsetOf (rs.map toLine) i + (header key).length
  absent : ∀ key, st.peMap.find? key = none → p.peMap.find? key = none

theorem Mirror.nodup (h : Mirror rs st p) : (rs.map Prod.fst).Nodup :=
  h.ordered.imp And.right

/-- The line of an entry that is alive says what its place holds. -/
theorem Mirror.slot_eq (h : Mirror rs st p) (hfind : st.peMap.find? key = some pe)
    (hmem : (pe, slot) ∈ rs) : st.slots pe = some slot := by
  rcases (h.mem pe slot).mp hmem with hslot | hremoved
  · exact hslot
  · have hdead := h.removedDead _ hremoved
    have halive := (h.live.mapped key pe hfind).2
    rw [hdead] at halive
    cases halive

theorem getElem?_map_toLine {i : ℕ} (hi : rs[i]? = some (pe, slot)) :
    (rs.map toLine)[i]? = some (pe.key, slot) := by
  rw [List.getElem?_map, hi]
  rfl

/-- With different entries, a line that is written anew is the only one that changes. -/
theorem mem_set_iff {i : ℕ} {old : Slot} (hnodup : (rs.map Prod.fst).Nodup)
    (hi : rs[i]? = some (pe, old)) {r : EntryId × Slot} :
    r ∈ rs.set i (pe, slot) ↔ r = (pe, slot) ∨ r ∈ rs ∧ r.1 ≠ pe := by
  have hlt := (List.getElem?_eq_some_iff.mp hi).1
  have huniq : ∀ j, (rs.map Prod.fst)[j]? = some pe → j = i := by
    intro j hj
    have hi' : (rs.map Prod.fst)[i]? = some pe := by
      rw [List.getElem?_map, hi]
      rfl
    obtain ⟨hjlt, hj⟩ := List.getElem?_eq_some_iff.mp hj
    obtain ⟨hilt, hi'⟩ := List.getElem?_eq_some_iff.mp hi'
    exact (hnodup.getElem_inj_iff).mp (hj.trans hi'.symm)
  rw [List.mem_iff_getElem?, List.mem_iff_getElem?]
  constructor
  · rintro ⟨j, hj⟩
    by_cases hij : i = j
    · subst hij
      rw [List.getElem?_set_self hlt] at hj
      exact Or.inl (Option.some.inj hj).symm
    · rw [List.getElem?_set_ne hij] at hj
      refine Or.inr ⟨⟨j, hj⟩, fun heq => hij (huniq j ?_).symm⟩
      rw [List.getElem?_map, hj, ← heq]
      rfl
  · rintro (rfl | ⟨⟨j, hj⟩, hne⟩)
    · exact ⟨i, List.getElem?_set_self hlt⟩
    · refine ⟨j, ?_⟩
      rw [List.getElem?_set_ne, hj]
      rintro rfl
      exact hne (congrArg Prod.fst (Option.some.inj (hj.symm.trans hi)))

/-! ## One call

Each call once: a line is added at the end, a slot is written in its line, or a key
is forgotten and its line stays.
-/

/-- A new entry: its line goes to the end of the file. -/
theorem Mirror.subscript (h : Mirror rs st p) (hfind : st.peMap.find? key = none) :
    Mirror (rs ++ [(⟨key, st.nextSerial⟩, ⟨0, 0⟩)])
      { st with
        nextSerial := st.nextSerial + 1
        peMap := st.peMap.insert key ⟨key, st.nextSerial⟩
        slots := Function.update st.slots ⟨key, st.nextSerial⟩ (some ⟨0, 0⟩) }
      (p.subscript key) := by
  have hsub : p.subscript key = ⟨p.file ++ lineOf key ⟨0, 0⟩,
      p.lastPos + (lineOf key ⟨0, 0⟩).length,
      p.peMap.insert key ⟨p.lastPos + (header key).length⟩⟩ := by
    rw [PositionFile.subscript, h.absent key hfind, h.lastPos]
    simp only [overwrite_end]
    rfl
  have hnew : ∀ slot, (⟨key, st.nextSerial⟩, slot) ∉ rs := fun slot hmem =>
    Nat.lt_irrefl _ (h.below _ hmem)
  have hne : ∀ r ∈ st.removed, r.1 ≠ ⟨key, st.nextSerial⟩ := by
    rintro ⟨pe, slot⟩ hr rfl
    exact hnew slot ((h.mem _ _).mpr (Or.inr hr))
  rw [hsub]
  refine {
    live := h.live.call (Store.call_subscript_new hfind)
    file := ?_
    lastPos := ?_
    ordered := ?_
    below := fun r hr => ?_
    mem := fun pe slot => ?_
    removedNodup := h.removedNodup
    removedDead := fun r hr => ?_
    places := fun key' pe hpe => ?_
    absent := fun key' hnone => ?_ }
  · rw [h.file]
    simp [textOf, lineText, toLine]
  · rw [List.length_append, h.lastPos]
  · rw [List.map_append]
    refine List.pairwise_append.mpr ⟨h.ordered, List.pairwise_singleton _ _, fun a ha b hb => ?_⟩
    obtain ⟨r, hr, rfl⟩ := List.mem_map.mp ha
    obtain rfl := List.mem_singleton.mp hb
    have hlt := h.below r hr
    refine ⟨above_iff.mpr (Or.inl hlt), fun heq => ?_⟩
    rw [heq] at hlt
    exact Nat.lt_irrefl _ hlt
  · rcases List.mem_append.mp hr with hr | hr
    · exact Nat.lt_succ_of_lt (h.below r hr)
    · obtain rfl := List.mem_singleton.mp hr
      exact Nat.lt_succ_self _
  · rw [List.mem_append, List.mem_singleton, h.mem]
    by_cases hpe : pe = ⟨key, st.nextSerial⟩
    · subst hpe
      have hold := not_or.mp (mt (h.mem ⟨key, st.nextSerial⟩ slot).mpr (hnew slot))
      simp [hold.1, hold.2, eq_comm]
    · simp [hpe]
  · show Function.update st.slots _ _ r.1 = none
    rw [Function.update_of_ne (hne r hr)]
    exact h.removedDead r hr
  · rcases OrdMap.find?_insert_eq_some.mp hpe with ⟨rfl, rfl⟩ | ⟨hkey, hold⟩
    · refine ⟨rs.length, ⟨0, 0⟩, _, List.getElem?_concat_length, OrdMap.find?_insert_self _ _ _, ?_⟩
      show p.lastPos + (header key').length = _
      rw [List.map_append, offsetOf, Records.offset_append (by simp),
        ← List.length_map (f := toLine), Records.offset_length, h.lastPos, h.file]
    · obtain ⟨i, slot, place, hi, hplace, hseek⟩ := h.places key' pe hold
      have hlt := (List.getElem?_eq_some_iff.mp hi).1
      refine ⟨i, slot, place, (List.getElem?_append_left hlt).trans hi,
        (OrdMap.find?_insert_ne hkey _ _).trans hplace, ?_⟩
      rw [List.map_append, offsetOf, Records.offset_append (by simp; omega)]
      exact hseek
  · have hnone : (st.peMap.insert key ⟨key, st.nextSerial⟩).find? key' = none := hnone
    show (p.peMap.insert key _).find? key' = none
    rw [OrdMap.find?_insert] at hnone ⊢
    split
    · next heq =>
        rw [if_pos heq] at hnone
        cases hnone
    · next hne =>
        rw [if_neg hne] at hnone
        exact h.absent key' hnone

/-- A slot is written in its line. -/
theorem Mirror.write (h : Mirror rs st p) (hfind : st.peMap.find? key = some pe) (slot : Slot) :
    ∃ i p', PositionFile.call (.write key slot) p = some p' ∧
      Mirror (rs.set i (pe, slot))
        { st with slots := Function.update st.slots pe (some slot) } p' := by
  obtain ⟨i, old, place, hi, hplace, hseek⟩ := h.places key pe hfind
  obtain ⟨hkey, halive⟩ := h.live.mapped key pe hfind
  have hold := h.slot_eq hfind (List.mem_of_getElem? hi)
  have hline := getElem?_map_toLine hi
  rw [hkey] at hline
  have hholds := (Ledger.holds_of_line hline hseek).update slot.readInode slot.pos.toInt64
  have hfile : place.update slot.readInode slot.pos.toInt64 p.file
      = textOf ((rs.set i (pe, slot)).map toLine) := by
    rw [h.file, hholds.1, List.map_set]
    refine Eq.trans ?_ (Records.text_set hline _).symm
    simp [lineText, lineOf, toLine, hkey, Slot.update, Slot.readInode]
  have hset : (rs.set i (pe, slot)).map Prod.fst = rs.map Prod.fst := by
    rw [List.map_set]
    refine List.ext_getElem? fun j => ?_
    by_cases hij : i = j
    · subst hij
      rw [List.getElem?_set_self (by simpa using (List.getElem?_eq_some_iff.mp hi).1),
        List.getElem?_map, hi]
      rfl
    · rw [List.getElem?_set_ne hij]
  have hmap : (rs.set i (pe, slot)).map toLine = (rs.map toLine).set i (key, slot) := by
    rw [List.map_set, toLine, hkey]
  have hcall : PositionFile.call (.write key slot) p
      = some { p with file := place.update slot.readInode slot.pos.toInt64 p.file } := by
    rw [PositionFile.call, hplace]
    rfl
  refine ⟨i, _, hcall, ?_⟩
  refine {
    live := h.live.call (Store.call_write hfind)
    file := hfile
    lastPos := ?_
    ordered := hset ▸ h.ordered
    below := fun r hr => ?_
    mem := fun pe' slot' => ?_
    removedNodup := h.removedNodup
    removedDead := fun r hr => ?_
    places := fun key' pe' hpe' => ?_
    absent := h.absent }
  · show p.lastPos = _
    rw [hfile, hmap, textOf, Records.length_text_set hline (by simp [length_lineText]), h.lastPos,
      h.file]
  · rcases (mem_set_iff h.nodup hi).mp hr with rfl | ⟨hr, -⟩
    · exact h.below (pe, old) (List.mem_of_getElem? hi)
    · exact h.below r hr
  · rw [mem_set_iff h.nodup hi, h.mem]
    show _ ↔ Function.update st.slots pe (some slot) pe' = some slot' ∨ _
    by_cases hpe' : pe' = pe
    · subst hpe'
      have hdead : (pe', slot') ∉ st.removed := fun hr => by
        have hnone : st.slots pe' = none := h.removedDead _ hr
        rw [hnone] at hold
        cases hold
      simp [hdead, eq_comm]
    · simp [hpe']
  · have hne : r.1 ≠ pe := by
      rintro rfl
      rw [h.removedDead r hr] at hold
      cases hold
    show Function.update st.slots pe _ r.1 = none
    rw [Function.update_of_ne hne]
    exact h.removedDead r hr
  · obtain ⟨j, slot', place', hj, hplace', hseek'⟩ := h.places key' pe' hpe'
    have hoffset : offsetOf ((rs.set i (pe, slot)).map toLine) j = offsetOf (rs.map toLine) j := by
      rw [hmap, offsetOf, Records.offset_set hline (by simp [length_lineText])]
    by_cases hij : i = j
    · subst hij
      obtain ⟨rfl, -⟩ := Prod.mk.inj (Option.some.inj (hi.symm.trans hj))
      exact ⟨i, slot, place', List.getElem?_set_self (List.getElem?_eq_some_iff.mp hi).1, hplace',
        hoffset.symm ▸ hseek'⟩
    · exact ⟨j, slot', place', (List.getElem?_set_ne hij).trans hj, hplace',
        hoffset.symm ▸ hseek'⟩

/-- A removed entry leaves its line. -/
theorem Mirror.remove (h : Mirror rs st p) (hfind : st.peMap.find? key = some pe) :
    Mirror rs
      { st with
        peMap := st.peMap.erase key
        slots := Function.update st.slots pe none
        removed := st.removed ++ (st.slots pe).toList.map fun slot => (pe, slot) }
      (p.remove key) := by
  obtain ⟨hkey, halive⟩ := h.live.mapped key pe hfind
  obtain ⟨old, hold⟩ := Option.isSome_iff_exists.mp halive
  have hdead : ∀ slot, (pe, slot) ∉ st.removed := fun slot hr => by
    have hnone : st.slots pe = none := h.removedDead _ hr
    rw [hnone] at hold
    cases hold
  have hlive := h.live.call (Store.call_remove hfind)
  rw [hold] at hlive ⊢
  refine {
    live := hlive
    file := h.file
    lastPos := h.lastPos
    ordered := h.ordered
    below := h.below
    mem := fun pe' slot' => ?_
    removedNodup := ?_
    removedDead := fun r hr => ?_
    places := fun key' pe' hpe' => ?_
    absent := fun key' hnone => ?_ }
  · rw [h.mem]
    show _ ↔ Function.update st.slots pe none pe' = some slot' ∨ _ ∈ st.removed ++ [(pe, old)]
    by_cases hpe' : pe' = pe
    · subst hpe'
      simp [hold, hdead slot', eq_comm]
    · simp [hpe']
  · refine List.nodup_append'.mpr ⟨h.removedNodup, List.nodup_singleton _, ?_⟩
    exact List.disjoint_singleton.mpr (hdead old)
  · show Function.update st.slots pe none r.1 = none
    rcases List.mem_append.mp hr with hr | hr
    · by_cases hpe' : r.1 = pe
      · rw [hpe', Function.update_self]
      · rw [Function.update_of_ne hpe']
        exact h.removedDead r hr
    · obtain rfl := List.mem_singleton.mp hr
      exact Function.update_self _ _ _
  · have hne : key' ≠ key := by
      rintro rfl
      rw [show (st.peMap.erase key').find? key' = none from OrdMap.find?_erase_self _ _] at hpe'
      cases hpe'
    obtain ⟨i, slot', place', hi, hplace', hseek'⟩ :=
      h.places key' pe' (OrdMap.find?_of_find?_erase hpe')
    exact ⟨i, slot', place', hi, (OrdMap.find?_erase_ne hne _).trans hplace', hseek'⟩
  · show (p.peMap.erase key).find? key' = none
    rw [OrdMap.find?_erase]
    split
    · rfl
    · next hne => exact h.absent key' ((OrdMap.find?_erase_ne hne _).symm.trans hnone)

theorem Mirror.call {a : StoreCall} (h : Mirror rs st p) (hc : Store.call a st = some st') :
    ∃ rs' p', PositionFile.call a p = some p' ∧ Mirror rs' st' p' := by
  cases a with
  | subscript key =>
      cases hfind : st.peMap.find? key with
      | none =>
          rw [Store.call_subscript_new hfind] at hc
          obtain rfl := Option.some.inj hc
          exact ⟨_, _, rfl, h.subscript hfind⟩
      | some pe =>
          obtain ⟨i, slot, place, -, hplace, -⟩ := h.places key pe hfind
          simp only [Store.call, hfind] at hc
          obtain rfl := Option.some.inj hc
          refine ⟨rs, p, ?_, h⟩
          simp only [PositionFile.call, PositionFile.subscript, hplace]
  | write key slot =>
      obtain ⟨pe, hfind, rfl⟩ := Option.map_eq_some_iff.mp hc
      obtain ⟨i, p', hp', hmirror⟩ := h.write hfind slot
      exact ⟨_, p', hp', hmirror⟩
  | remove key =>
      cases hfind : st.peMap.find? key with
      | some pe =>
          rw [Store.call_remove hfind] at hc
          obtain rfl := Option.some.inj hc
          exact ⟨rs, _, rfl, h.remove hfind⟩
      | none =>
          simp only [Store.call, hfind] at hc
          obtain rfl := Option.some.inj hc
          have hsame : p.remove key = p := by
            have herase : p.peMap.erase key = p.peMap := OrdMap.ext_find? fun key' => by
              rw [OrdMap.find?_erase]
              split
              · next heq => rw [heq, h.absent key hfind]
              · rfl
            rw [PositionFile.remove, herase]
          exact ⟨rs, _, rfl, hsame.symm ▸ h⟩

theorem Mirror.calls : ∀ {cs : List StoreCall} {rs : List (EntryId × Slot)} {st : Store}
    {p : PositionFile}, Mirror rs st p → run Store.call cs st = some st' →
      ∃ rs' p', run PositionFile.call cs p = some p' ∧ Mirror rs' st' p'
  | [], rs, st, p, h, hr => by
      obtain rfl : st = st' := by simpa using hr
      exact ⟨rs, p, rfl, h⟩
  | a :: cs, rs, st, p, h, hr => by
      obtain ⟨st₁, hc, hrest⟩ := run_cons_eq_some.mp hr
      obtain ⟨rs₁, p₁, hp₁, h₁⟩ := h.call hc
      obtain ⟨rs', p', hp', h'⟩ := h₁.calls hrest
      exact ⟨rs', p', run_cons_eq_some.mpr ⟨p₁, hp₁, hp'⟩, h'⟩

/-! ## The text of the Manager

The Manager's state tells the whole text, so the relation fixes it.
-/

/-- The lines of the live entries and of the removed ones, in their order, are `rs`. -/
theorem Mirror.lines (h : Mirror rs s.store p) : s.lines = rs.map toLine := by
  have hentry : ∀ pe slot, (pe, slot) ∈ s.entryLines ↔ s.slots pe = some slot := by
    intro pe slot
    constructor
    · intro hmem
      obtain ⟨⟨key, pe'⟩, -, hslot⟩ := List.mem_filterMap.mp hmem
      obtain ⟨slot', hslot', heq⟩ := Option.map_eq_some_iff.mp hslot
      cases heq
      exact hslot'
    · intro hslot
      refine List.mem_filterMap.mpr
        ⟨(pe.key, pe), OrdMap.mem_entries.mpr (h.live.found pe slot hslot), ?_⟩
      rw [hslot]
      rfl
  have hentryNodup : s.entryLines.Nodup := by
    refine List.Pairwise.filterMap _ (fun e e' hlt r hr r' hr' heq => ?_)
      (List.Pairwise.and_mem.mp s.peMap.sorted)
    obtain ⟨hmem, hmem', hlt⟩ := hlt
    obtain ⟨slot, -, rfl⟩ := Option.map_eq_some_iff.mp hr
    obtain ⟨slot', -, rfl⟩ := Option.map_eq_some_iff.mp hr'
    obtain ⟨hpe, -⟩ := Prod.mk.inj heq
    have hkey := (h.live.mapped e.1 e.2 (OrdMap.mem_entries.mp hmem)).1
    have hkey' := (h.live.mapped e'.1 e'.2 (OrdMap.mem_entries.mp hmem')).1
    rw [← hkey, ← hkey', hpe] at hlt
    exact lt_irrefl _ hlt
  have hnodup : (s.entryLines ++ s.removed).Nodup := by
    refine List.nodup_append'.mpr ⟨hentryNodup, h.removedNodup, fun r hr hr' => ?_⟩
    have hslot := (hentry r.1 r.2).mp hr
    have hdead : s.slots r.1 = none := h.removedDead r hr'
    rw [hdead] at hslot
    cases hslot
  have hperm : (s.entryLines ++ s.removed).Perm rs := by
    refine (List.perm_ext_iff_of_nodup hnodup h.nodup.of_map).mpr fun r => ?_
    rw [List.mem_append, show r = (r.1, r.2) from rfl, hentry, h.mem]
    rfl
  have hsorted := @List.pairwise_mergeSort _ (fun l l' : EntryId × Slot => above l.1 l'.1)
    (fun _ _ _ => above_trans) (fun a b => above_total a.1 b.1) (s.entryLines ++ s.removed)
  have hrs : rs.Pairwise fun l l' => above l.1 l'.1 = true :=
    (List.pairwise_map.mp h.ordered).imp And.left
  have heq : (s.entryLines ++ s.removed).mergeSort (fun l l' => above l.1 l'.1) = rs := by
    refine List.Perm.eq_of_pairwise (fun a b ha hb hab hba => ?_) hsorted hrs
      ((List.mergeSort_perm _ _).trans hperm)
    have ha := hperm.mem_iff.mp (List.mem_mergeSort.mp ha)
    exact List.inj_on_of_nodup_map h.nodup ha hb (above_antisymm hab hba)
  rw [Manager.lines, heq]
  rfl

theorem Mirror.text (h : Mirror rs s.store p) : s.text = p.file := by
  rw [Manager.text, h.lines, h.file]

/-! ## A process starts

`parse` on the text that the last process left, at both levels.
-/

/-- What is read back are the lines that `compact` kept. -/
theorem find?_reread_iff (hls : ∀ l ∈ ls, Legible l.1) :
    (reread (textOf ls)).find? key = some slot ↔ (key, slot) ∈ kept ls := by
  have hslot : ∀ slot' : Slot, slot'.readPos ≠ unwatchedPosition →
      (⟨slot'.readPos.toUInt64, slot'.readInode.toUInt32⟩ : Slot) = slot' := fun _ h =>
    slot_of_live h
  constructor
  · intro h
    obtain ⟨slot', hmem, hlive, rfl⟩ := find?_reread hls h
    rwa [hslot slot' hlive]
  · intro hmem
    obtain ⟨m, hparse, hm⟩ := parse_textOf hls
    obtain ⟨place, hplace⟩ := hm.mem _ hmem
    obtain ⟨slot', hslot'⟩ := @exists_reread (textOf ls) key place
      (by rw [hparse]; exact hplace)
    obtain ⟨slot'', hmem', hlive, heq⟩ := find?_reread hls hslot'
    rw [hslot slot'' hlive] at heq
    -- one line of a pattern is kept
    have hlast : some (key, slot) = some (key, slot'') :=
      (mem_kept (l := (key, slot)).mp hmem).symm.trans (mem_kept (l := (key, slot'')).mp hmem')
    obtain ⟨-, rfl⟩ := Prod.mk.inj (Option.some.inj hlast)
    rw [hslot', heq]

/-- The lines of a process that was just started. -/
def startLines (ls : List FileLine) : List (EntryId × Slot) := (kept ls).map fun l => (⟨l.1, 0⟩, l.2)

theorem toLine_startLines (ls : List FileLine) : (startLines ls).map toLine = kept ls := by
  rw [startLines, List.map_map]
  exact List.map_id _

theorem mirror_init (hls : ∀ l ∈ ls, Legible l.1) :
    Mirror (startLines ls) (Manager.init (reread (textOf ls))).store (parse (textOf ls)) := by
  obtain ⟨m, hparse, hm⟩ := parse_textOf hls
  have hmap : ∀ key pe, (Manager.init (reread (textOf ls))).store.peMap.find? key = some pe ↔
      pe = ⟨key, 0⟩ ∧ ∃ slot, (key, slot) ∈ kept ls := by
    intro key pe
    show ((reread (textOf ls)).mapWithKey _).find? key = some pe ↔ _
    rw [OrdMap.find?_mapWithKey, Option.map_eq_some_iff]
    constructor
    · rintro ⟨slot, hslot, rfl⟩
      exact ⟨rfl, slot, (find?_reread_iff hls).mp hslot⟩
    · rintro ⟨rfl, slot, hmem⟩
      exact ⟨slot, (find?_reread_iff hls).mpr hmem, rfl⟩
  have hslots : ∀ pe slot, (Manager.init (reread (textOf ls))).store.slots pe = some slot ↔
      pe.serial = 0 ∧ (pe.key, slot) ∈ kept ls := by
    intro pe slot
    show (if pe.serial = 0 then (reread (textOf ls)).find? pe.key else none) = some slot ↔ _
    rw [Option.ite_none_right_eq_some, find?_reread_iff hls]
  have hmem : ∀ pe slot, (pe, slot) ∈ startLines ls ↔ pe.serial = 0 ∧ (pe.key, slot) ∈ kept ls := by
    intro pe slot
    constructor
    · intro h
      obtain ⟨l, hl, heq⟩ := List.mem_map.mp h
      cases heq
      exact ⟨rfl, hl⟩
    · rintro ⟨hserial, hl⟩
      refine List.mem_map.mpr ⟨(pe.key, slot), hl, ?_⟩
      rw [show pe = ⟨pe.key, pe.serial⟩ from rfl, hserial]
  rw [hparse]
  refine {
    live := ⟨fun key pe hpe => ?_, fun pe slot hslot => ?_⟩
    file := by rw [toLine_startLines]
    lastPos := rfl
    ordered := ?_
    below := fun r hr => ?_
    mem := fun pe slot => ?_
    removedNodup := List.nodup_nil
    removedDead := fun r hr => (nomatch hr)
    places := fun key pe hpe => ?_
    absent := fun key hnone => ?_ }
  · obtain ⟨rfl, slot, hl⟩ := (hmap key pe).mp hpe
    exact ⟨rfl, Option.isSome_iff_exists.mpr ⟨slot, (hslots _ _).mpr ⟨rfl, hl⟩⟩⟩
  · obtain ⟨hserial, hl⟩ := (hslots pe slot).mp hslot
    refine (hmap pe.key pe).mpr ⟨?_, slot, hl⟩
    rw [show pe = ⟨pe.key, pe.serial⟩ from rfl, hserial]
  · rw [startLines, List.map_map]
    refine List.pairwise_map.mpr ((kept_sorted ls).imp fun hlt => ?_)
    refine ⟨above_iff.mpr (Or.inr ⟨rfl, ?_⟩), fun heq => ?_⟩
    · exact le_of_lt (Prod.Lex.toLex_lt_toLex.mpr (Or.inl hlt))
    · have hkey := congrArg (fun pe : EntryId => pe.key.pathPattern) heq
      exact ne_of_lt hlt hkey
  · have hserial := ((hmem r.1 r.2).mp hr).1
    show r.1.serial < 1
    omega
  · rw [hmem, ← hslots]
    exact (or_iff_left fun h => (nomatch h)).symm
  · obtain ⟨rfl, slot, hl⟩ := (hmap key pe).mp hpe
    obtain ⟨place, hplace⟩ := hm.mem _ hl
    obtain ⟨i, slot', hi, hseek⟩ := hm.place key place hplace
    refine ⟨i, slot', place, ?_, hplace, by rw [toLine_startLines]; exact hseek⟩
    rw [startLines, List.getElem?_map, hi]
    rfl
  · refine Option.eq_none_iff_forall_ne_some.mpr fun place hplace => ?_
    obtain ⟨i, slot, hi, -⟩ := hm.place key place hplace
    have hsome := (hmap key ⟨key, 0⟩).mpr ⟨rfl, slot, List.mem_of_getElem? hi⟩
    rw [hnone] at hsome
    cases hsome

/-! ## Whole lives -/

/-- One event, or the process is stopped or killed and another one starts. -/
def lifeStep (cfg : Config) : SessionEvent → Manager → Option Manager
  | .event e, s => step cfg e s
  | .restart, s => some (Manager.init (reread s.text))

/-- The same for the file: calls, or `parse`. -/
inductive FileEvent
  | calls (cs : List StoreCall)
  | parse

def fileStep : FileEvent → PositionFile → Option PositionFile
  | .calls cs, p => run PositionFile.call cs p
  | .parse, p => some (PositionFile.parse p.file)

inductive Answers : SessionEvent → FileEvent → Prop
  | calls (e : Event) (cs : List StoreCall) : Answers (.event e) (.calls cs)
  | parse : Answers .restart .parse

/-- The file has what the Manager has: the same text, the same entries, and each
entry reads what the Manager's slot reads. -/
structure Mirrored (s : Manager) (p : PositionFile) : Prop where
  text : p.file = s.text
  lastPos : p.lastPos = p.file.length
  entry : ∀ key pe, s.peMap.find? key = some pe → ∃ place slot,
    p.peMap.find? key = some place ∧ s.slots pe = some slot ∧
      place.readPos p.file = slot.readPos ∧ place.readInode p.file = slot.readInode
  absent : ∀ key, s.peMap.find? key = none → p.peMap.find? key = none

theorem Mirror.mirrored (h : Mirror rs s.store p) : Mirrored s p where
  text := h.text.symm
  lastPos := h.lastPos
  entry key pe hpe := by
    obtain ⟨i, slot, place, hi, hplace, hseek⟩ := h.places key pe hpe
    have hline := getElem?_map_toLine hi
    rw [(h.live.mapped key pe hpe).1] at hline
    have hholds := Ledger.holds_of_line hline hseek
    refine ⟨place, slot, hplace, h.slot_eq hpe (List.mem_of_getElem? hi), ?_, ?_⟩
    · rw [h.file, hholds.readPos]
    · rw [h.file, hholds.readInode]
  absent := h.absent

theorem mirror_lifeStep {e : SessionEvent} (h : Mirror rs s.store p) (hread : Rereadable s e)
    (hs : lifeStep cfg e s = some s') :
    ∃ fe p', Answers e fe ∧ fileStep fe p = some p' ∧ ∃ rs', Mirror rs' s'.store p' := by
  cases e with
  | event e =>
      have hstored : Stored s s' := of_step hs fun _ =>
        (acts_exec e [] s (List.nil_subset _)).conseq fun _ _ h => h.stored
      obtain ⟨cs, hcs⟩ := hstored h.live
      obtain ⟨rs', p', hp', h'⟩ := h.calls hcs
      exact ⟨.calls cs, p', .calls e cs, hp', rs', h'⟩
  | restart =>
      obtain rfl := Option.some.inj hs
      have hlegible : ∀ l ∈ rs.map toLine, Legible l.1 := h.lines ▸ hread
      refine ⟨.parse, _, .parse, rfl, startLines (rs.map toLine), ?_⟩
      rw [h.text, h.file]
      exact mirror_init hlegible

/-- **The file goes in step with the Manager.**  Over any events and any number
of processes, each stopped or killed between two events and followed by one that
parses the file it left: each event is some calls on the file, each start is
`parse`, and then the file has the Manager's text, and its entries read what the
Manager's entries read.  The keys are to be legible where a process starts. -/
theorem file_simulates {es : List SessionEvent} (hls : ∀ l ∈ ls, Legible l.1)
    (hread : Along (lifeStep cfg) Rereadable es (Manager.init (reread (textOf ls))))
    (hr : run (lifeStep cfg) es (Manager.init (reread (textOf ls))) = some s) :
    ∃ fs p, List.Forall₂ Answers es fs ∧ run fileStep fs (parse (textOf ls)) = some p ∧
      Mirrored s p := by
  obtain ⟨fs, p, hfs, hp, rs, h⟩ := run_simulates
    (R := fun s p => ∃ rs, Mirror rs s.store p) (M := Answers)
    (fun e s s' p hR hC hs => mirror_lifeStep hR.choose_spec hC hs)
    ⟨_, mirror_init hls⟩ hread hr
  exact ⟨fs, p, hfs, hp, h.mirrored⟩

/-- "%H" is collected as "01" when the process is killed; the next one finds the
entry, and an hour later it collects "02". -/
def killedOnce : List SessionEvent :=
  [.event (hourlyRefresh [48, 49] [116]), .restart, .event (hourlyRefresh [48, 49] [116]),
    .event (hourlyRefresh [48, 50] [116])]

theorem file_simulates_killed :
    ∃ s, run (lifeStep sizes) killedOnce (Manager.init (reread [])) = some s ∧
      ∃ fs p, List.Forall₂ Answers killedOnce fs ∧ run fileStep fs (parse []) = some p ∧
        Mirrored s p := by
  have hsome : (run (lifeStep sizes) killedOnce (Manager.init (reread []))).isSome := by
    decide +kernel
  obtain ⟨s, hs⟩ := Option.isSome_iff_exists.mp hsome
  exact ⟨s, hs, @file_simulates _ _ [] _ (by simp) (by decide +kernel) hs⟩

end Logkafka
