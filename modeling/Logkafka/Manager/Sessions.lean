/-
# `Logkafka.Manager.Sessions` — the position file over several sessions

The file has a line for each entry that was made in the session, in that order,
also for those that were removed from the map.  A session ends with `stop`, and
the next one starts with what `PositionFile::parse` makes of the file.

    s.lines          the lines of the file, and what they say
    s.text           the file
    reread file      what `parse` finds, as `init` takes it

`sessionStep` is one event, or the start of the next session.
-/
import Logkafka.Manager.Events
import Logkafka.Position.Store

namespace Logkafka

open Manager PositionFile

variable {cfg : Config} {s : Manager} {P : Str} {ls : List FileLine} {l : FileLine}

/-- The line of `pe` is above that of `pe'`, or it is the same; those the session
started with are in the order of their keys. -/
def above (pe pe' : EntryId) : Bool :=
  decide (pe.serial < pe'.serial) || (pe.serial == pe'.serial && decide (pe.key ≤ pe'.key))

namespace Manager

/-- The lines whose entries are in the map. -/
def entryLines (s : Manager) : List (EntryId × Slot) :=
  s.peMap.entries.filterMap fun e => (s.slots e.2).map fun slot => (e.2, slot)

def lines (s : Manager) : List FileLine :=
  ((s.entryLines ++ s.removed).mergeSort fun l l' => above l.1 l'.1).map
    fun l => (l.1.key, l.2)

def text (s : Manager) : List Byte := textOf s.lines

end Manager

/-- The entries that `parse` finds, with what they read. -/
def reread (file : List Byte) : OrdMap PositionEntryKey Slot :=
  let pf := parse file
  pf.peMap.mapWithKey fun _ pe => ⟨(pe.readPos pf.file).toUInt64, (pe.readInode pf.file).toUInt32⟩

inductive SessionEvent
  | event (e : Event)
  | restart

/-- One event, or the next session when this one has stopped. -/
def sessionStep (cfg : Config) : SessionEvent → Manager → Option Manager
  | .event e, s => step cfg e s
  | .restart, s => if s.refreshTrigger then none else some (Manager.init (reread s.text))

theorem sessionStep_restart {s' : Manager} (h : sessionStep cfg .restart s = some s') :
    s.refreshTrigger = false ∧ s' = Manager.init (reread s.text) := by
  have h : (if s.refreshTrigger then none else some (Manager.init (reread s.text))) = some s' := h
  cases htrigger : s.refreshTrigger with
  | true =>
      rw [htrigger] at h
      cases h
  | false =>
      rw [htrigger] at h
      exact ⟨rfl, (Option.some.inj h).symm⟩

theorem mem_lines : l ∈ s.lines ↔
    (∃ pek pe, s.peMap.find? pek = some pe ∧ s.slots pe = some l.2 ∧ pe.key = l.1) ∨
      ∃ pe, (pe, l.2) ∈ s.removed ∧ pe.key = l.1 := by
  obtain ⟨key, slot⟩ := l
  have hsorted : (key, slot) ∈ s.lines ↔
      ∃ pe, ((pe, slot) ∈ s.entryLines ∨ (pe, slot) ∈ s.removed) ∧ pe.key = key := by
    constructor
    · intro hl
      obtain ⟨⟨pe, slot'⟩, hmem, heq⟩ := List.mem_map.mp hl
      cases heq
      exact ⟨pe, List.mem_append.mp (List.mem_mergeSort.mp hmem), rfl⟩
    · rintro ⟨pe, hmem, rfl⟩
      exact List.mem_map.mpr ⟨(pe, slot), List.mem_mergeSort.mpr (List.mem_append.mpr hmem), rfl⟩
  have hentry : ∀ pe, (pe, slot) ∈ s.entryLines ↔
      ∃ pek, s.peMap.find? pek = some pe ∧ s.slots pe = some slot := by
    intro pe
    constructor
    · intro hmem
      obtain ⟨⟨pek, pe'⟩, he, hslot⟩ := List.mem_filterMap.mp hmem
      obtain ⟨slot', hslot', heq⟩ := Option.map_eq_some_iff.mp hslot
      cases heq
      exact ⟨pek, OrdMap.mem_entries.mp he, hslot'⟩
    · rintro ⟨pek, hfound, hslot⟩
      refine List.mem_filterMap.mpr ⟨(pek, pe), OrdMap.mem_entries.mpr hfound, ?_⟩
      rw [hslot]
      rfl
  rw [hsorted]
  constructor
  · rintro ⟨pe, hmem | hmem, hkey⟩
    · obtain ⟨pek, hfound, hslot⟩ := (hentry pe).mp hmem
      exact Or.inl ⟨pek, pe, hfound, hslot, hkey⟩
    · exact Or.inr ⟨pe, hmem, hkey⟩
  · rintro (⟨pek, pe, hfound, hslot, hkey⟩ | ⟨pe, hmem, hkey⟩)
    · exact ⟨pe, Or.inl ((hentry pe).mpr ⟨pek, hfound, hslot⟩), hkey⟩
    · exact ⟨pe, Or.inr hmem, hkey⟩

/-- What is read back is a live line, and it reads the same. -/
theorem find?_reread {key : PositionEntryKey} {slot : Slot} (hls : ∀ l ∈ ls, Legible l.1)
    (h : (reread (textOf ls)).find? key = some slot) :
    ∃ slot', (key, slot') ∈ kept ls ∧ slot'.readPos ≠ unwatchedPosition ∧
      slot = ⟨slot'.readPos.toUInt64, slot'.readInode.toUInt32⟩ := by
  obtain ⟨m, hparse, hm⟩ := parse_textOf hls
  rw [reread, hparse, OrdMap.find?_mapWithKey] at h
  obtain ⟨pe, hpe, rfl⟩ := Option.map_eq_some_iff.mp h
  obtain ⟨i, slot', hi, hseek⟩ := hm.place key pe hpe
  have hholds := Ledger.holds_of_line hi hseek
  have hmem := List.mem_of_getElem? hi
  refine ⟨slot', hmem, (live_of_mem_kept hmem).2, ?_⟩
  rw [← hholds.readPos, ← hholds.readInode]

theorem exists_reread {file : List Byte} {key : PositionEntryKey} {pe : FilePositionEntry}
    (h : (parse file).peMap.find? key = some pe) :
    ∃ slot, (reread file).find? key = some slot := by
  rw [reread, OrdMap.find?_mapWithKey, h]
  exact ⟨_, rfl⟩

end Logkafka
