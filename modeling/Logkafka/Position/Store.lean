/-
# `Logkafka.Position.Store` — the position file under its calls

Entries are places in one shared text: `operator[]` takes the place from where
the file ends, `parse` counts it, and lines of removed keys stay.  Why no call
disturbs another entry is one invariant, `Represents`: the file is a list of
lines, one for each `operator[]` so far, and a live entry is the place of the
slot of a line that has its key and says what the entry was last given.

`store_sound` is what follows for every run of calls after `parse`.  What an
entry does not give back is the largest offset, and a negative one: printed
without a sign they are at or above the value that `hexstr2num` takes for an
overflow.
-/
import Logkafka.Position.Text

namespace Logkafka

open PositionFile

/-- What is written for an entry. -/
def Told.slot (t : Told) : Slot := ⟨t.pos.toUInt64, t.inode.toUInt32⟩

theorem Told.readInode_slot (t : Told) : t.slot.readInode = t.inode.toUInt32.toUInt64 := rfl

theorem Told.readPos_slot (t : Told) :
    t.slot.readPos = if Lasting t.pos then t.pos else -1 :=
  Slot.readPos_updatePos t.slot t.pos

/-- A live slot is what is written for what it reads. -/
theorem slot_of_live {s : Slot} (h : s.readPos ≠ unwatchedPosition) :
    Told.slot ⟨s.readInode, s.readPos⟩ = s := by
  have hlt : s.pos.toNat < 2 ^ 63 - 1 := by
    by_contra hge
    exact h (if_neg hge)
  have hpos : s.readPos = s.pos.toInt64 := if_pos hlt
  rw [Told.slot, hpos]
  simp [Slot.readInode]

namespace Ledger

variable {l l' : Ledger} {ls : List FileLine} {key key' : PositionEntryKey}
  {pe pe' : FilePositionEntry}

/-! ## The invariant

What the file looks like under any calls, and that each call keeps it: what it
needs to know of the other entries is that they stand at other lines.
-/

/-- The entry stands at the place of a line of its key, which says `t`. -/
structure Stands (ls : List FileLine) (key : PositionEntryKey) (pe : FilePositionEntry) (t : Told)
    (i : ℕ) : Prop where
  line : ls[i]? = some (key, t.slot)
  seek : pe.seek = offsetOf ls i + (header key).length

structure Represents (l : Ledger) (ls : List FileLine) : Prop where
  file : l.pf.file = textOf ls
  lastPos : l.pf.lastPos = (textOf ls).length
  none : ∀ key, l.pf.peMap.find? key = none → l.told.find? key = none
  entry : ∀ key pe, l.pf.peMap.find? key = some pe →
    ∃ t i, l.told.find? key = some t ∧ Stands ls key pe t i

/-- The file around the slot of a line. -/
theorem holds_of_line {i : ℕ} {s : Slot} (hi : ls[i]? = some (key, s))
    (hseek : pe.seek = offsetOf ls i + (header key).length) :
    pe.Holds (textOf (ls.take i) ++ header key) ([10] ++ textOf (ls.drop (i + 1))) (textOf ls) s := by
  refine ⟨?_, by rw [hseek, List.length_append]; rfl⟩
  rw [textOf, Records.text_getElem? hi]
  simp [lineText, lineOf]

theorem represents_ofFile (hls : ∀ l ∈ ls, Legible l.1) :
    (ofFile (textOf ls)).Represents (kept ls) := by
  obtain ⟨m, hparse, hm⟩ := parse_textOf hls
  have hofFile : ofFile (textOf ls) = ⟨⟨textOf (kept ls), (textOf (kept ls)).length, m⟩,
      m.mapWithKey fun _ pe => ⟨pe.readInode (textOf (kept ls)), pe.readPos (textOf (kept ls))⟩⟩ := by
    rw [ofFile, hparse]
  rw [hofFile]
  refine ⟨rfl, rfl, fun key h => ?_, fun key pe h => ?_⟩
  · rw [OrdMap.find?_mapWithKey, show m.find? key = none from h]
    rfl
  · have h : m.find? key = some pe := h
    obtain ⟨i, s, hi, hseek⟩ := hm.place key pe h
    have hholds := holds_of_line hi hseek
    refine ⟨⟨s.readInode, s.readPos⟩, i, ?_, ?_, hseek⟩
    · rw [OrdMap.find?_mapWithKey, h, ← hholds.readInode, ← hholds.readPos]
      rfl
    · rw [slot_of_live (live_of_mem_kept (List.mem_of_getElem? hi)).2]
      exact hi

/-- Another line at the end disturbs no entry. -/
theorem Stands.append {t : Told} {i : ℕ} (h : Stands ls key pe t i) (line : FileLine) :
    Stands (ls ++ [line]) key pe t i where
  line := (List.getElem?_append_left (List.getElem?_eq_some_iff.mp h.line).1).trans h.line
  seek := by
    rw [offsetOf, Records.offset_append (Nat.le_of_lt (List.getElem?_eq_some_iff.mp h.line).1)]
    exact h.seek

/-- Nor does another slot in a line of another key. -/
theorem Stands.set {t : Told} {i j : ℕ} {s s' : Slot} (h : Stands ls key pe t i)
    (hj : ls[j]? = some (key', s)) (hne : key ≠ key') : Stands (ls.set j (key', s')) key pe t i where
  line := by
    rw [List.getElem?_set_ne, h.line]
    rintro rfl
    exact hne (congrArg Prod.fst (Option.some.inj (h.line.symm.trans hj)))
  seek := by
    rw [offsetOf, Records.offset_set hj (by simp [length_lineText])]
    exact h.seek

theorem holds_call {pre suf file : List Byte} {t : Told} (h : pe.Holds pre suf file t.slot)
    (a : EntryCall) : pe.Holds pre suf (a.file pe file) (a.told t).slot := by
  cases a with
  | write a =>
      cases a with
      | update inode pos => exact h.update inode pos
      | updatePos pos => exact h.updatePos pos
  | unwatch => exact h.updatePos unwatchedPosition

/-- A call on an entry replaces the slot of its line. -/
theorem file_call {t : Told} {i : ℕ} (h : Stands ls key pe t i) (a : EntryCall) :
    a.file pe (textOf ls) = textOf (ls.set i (key, (a.told t).slot)) := by
  refine (holds_call (holds_of_line h.line h.seek) a).1.trans ?_
  refine Eq.trans ?_ (Records.text_set h.line _).symm
  simp [lineText, lineOf]

/-- `operator[]` finds the entry, or appends its line. -/
theorem step_get (h : l.Represents ls) (hs : step (.get key) l = some l') :
    (∃ pe, l.pf.peMap.find? key = some pe) ∧ l' = l ∨
      l.pf.peMap.find? key = none ∧
        l' = ⟨⟨l.pf.file ++ lineOf key ⟨0, 0⟩, l.pf.lastPos + (lineOf key ⟨0, 0⟩).length,
          l.pf.peMap.insert key ⟨l.pf.lastPos + (header key).length⟩⟩,
          l.told.insert key ⟨0, 0⟩⟩ := by
  obtain rfl := Option.some.inj hs
  cases hfind : l.pf.peMap.find? key with
  | some pe =>
      obtain ⟨t, i, ht, -⟩ := h.entry key pe hfind
      refine Or.inl ⟨⟨pe, rfl⟩, ?_⟩
      rw [PositionFile.subscript, hfind, ht, if_neg (by simp)]
  | none =>
      have hend : l.pf.lastPos = l.pf.file.length := h.lastPos.trans (congrArg _ h.file.symm)
      refine Or.inr ⟨rfl, ?_⟩
      rw [PositionFile.subscript, hfind, if_pos (h.none key hfind), hend]
      simp only [overwrite_end]
      rfl

theorem represents_append (h : l.Represents ls) (hfind : l.pf.peMap.find? key = none)
    (hs : step (.get key) l = some l') : l'.Represents (ls ++ [(key, ⟨0, 0⟩)]) := by
  rcases step_get h hs with ⟨⟨pe, hpe⟩, -⟩ | ⟨-, rfl⟩
  · rw [hfind] at hpe
    cases hpe
  · have htext : textOf (ls ++ [(key, ⟨0, 0⟩)]) = textOf ls ++ lineOf key ⟨0, 0⟩ := by
      simp [textOf, lineText]
    refine ⟨?_, ?_, fun key' hnone => ?_, fun key' pe' hsome => ?_⟩
    · rw [htext, h.file]
    · rw [htext, h.lastPos, List.length_append]
    · rw [OrdMap.find?_insert] at hnone ⊢
      split
      · next heq =>
          rw [if_pos heq] at hnone
          cases hnone
      · next hne =>
          rw [if_neg hne] at hnone
          exact h.none key' hnone
    · rcases OrdMap.find?_insert_eq_some.mp hsome with ⟨rfl, rfl⟩ | ⟨hne, hsome⟩
      · refine ⟨⟨0, 0⟩, ls.length, OrdMap.find?_insert_self _ _ _, ?_, ?_⟩
        · exact List.getElem?_concat_length
        · rw [offsetOf, Records.offset_append (Nat.le_refl _), Records.offset_length, h.lastPos]
      · obtain ⟨t, i, ht, hst⟩ := h.entry key' pe' hsome
        exact ⟨t, i, (OrdMap.find?_insert_ne hne _ _).trans ht, hst.append _⟩

/-- What a call on an entry needs, and does. -/
theorem step_entry {a : EntryCall} (hs : step (.entry key a) l = some l') :
    ∃ pe t, l.pf.peMap.find? key = some pe ∧ l.told.find? key = some t ∧
      l' = ⟨{ l.pf with file := a.file pe l.pf.file }, l.told.insert key (a.told t)⟩ := by
  simp only [step] at hs
  split at hs
  · next pe t hpe ht => exact ⟨pe, t, hpe, ht, (Option.some.inj hs).symm⟩
  · cases hs

theorem represents_set {a : EntryCall} (h : l.Represents ls)
    (hs : step (.entry key a) l = some l') :
    ∃ i s s', ls[i]? = some (key, s) ∧ l'.Represents (ls.set i (key, s')) := by
  obtain ⟨pe, t, hpe, ht, rfl⟩ := step_entry hs
  obtain ⟨t', i, ht', hst⟩ := h.entry key pe hpe
  obtain rfl : t = t' := Option.some.inj (ht.symm.trans ht')
  refine ⟨i, t.slot, (a.told t).slot, hst.line, ?_⟩
  refine ⟨?_, ?_, fun key' hnone => ?_, fun key' pe' hsome => ?_⟩
  · show a.file pe l.pf.file = _
    rw [h.file, file_call hst]
  · show l.pf.lastPos = _
    rw [h.lastPos, textOf, textOf, Records.length_text_set hst.line (by simp [length_lineText])]
  · have hnone : l.pf.peMap.find? key' = none := hnone
    have hne : key' ≠ key := by
      rintro rfl
      rw [hpe] at hnone
      cases hnone
    exact (OrdMap.find?_insert_ne hne _ _).trans (h.none key' hnone)
  · have hsome : l.pf.peMap.find? key' = some pe' := hsome
    by_cases hkey : key' = key
    · subst hkey
      obtain rfl : pe = pe' := Option.some.inj (hpe.symm.trans hsome)
      have hlt := (List.getElem?_eq_some_iff.mp hst.line).1
      refine ⟨a.told t, i, OrdMap.find?_insert_self _ _ _, ?_, ?_⟩
      · exact List.getElem?_set_self hlt
      · rw [offsetOf, Records.offset_set hst.line (by simp [length_lineText])]
        exact hst.seek
    · obtain ⟨t', j, ht', hst'⟩ := h.entry key' pe' hsome
      exact ⟨t', j, (OrdMap.find?_insert_ne hkey _ _).trans ht', hst'.set hst.line hkey⟩

theorem represents_remove (h : l.Represents ls) (hs : step (.remove key) l = some l') :
    l'.Represents ls := by
  obtain rfl := Option.some.inj hs
  refine ⟨h.file, h.lastPos, fun key' hnone => ?_, fun key' pe' hsome => ?_⟩
  · rw [OrdMap.find?_erase]
    split
    · rfl
    · next hne => exact h.none key' ((OrdMap.find?_erase_ne hne _).symm.trans hnone)
  · have hne : key' ≠ key := by
      rintro rfl
      rw [show (l.pf.remove key').peMap.find? key' = none from OrdMap.find?_erase_self _ _] at hsome
      cases hsome
    obtain ⟨t, i, ht, hst⟩ := h.entry key' pe' (OrdMap.find?_of_find?_erase hsome)
    exact ⟨t, i, (OrdMap.find?_erase_ne hne _).trans ht, hst⟩

theorem represents_step {a : FileCall} (h : l.Represents ls) (hs : step a l = some l') :
    ∃ ls', l'.Represents ls' := by
  cases a with
  | get key =>
      rcases step_get h hs with ⟨-, rfl⟩ | ⟨hfind, -⟩
      · exact ⟨ls, h⟩
      · exact ⟨_, represents_append h hfind hs⟩
  | entry key a =>
      obtain ⟨_, _, _, -, h'⟩ := represents_set h hs
      exact ⟨_, h'⟩
  | remove key => exact ⟨ls, represents_remove h hs⟩

theorem represents_run {as : List FileCall} (hls : ∀ l ∈ ls, Legible l.1)
    (hr : run step as (ofFile (textOf ls)) = some l) : ∃ ls', l.Represents ls' :=
  run_inv (I := fun l => ∃ ls', l.Represents ls')
    (fun _ _ _ ⟨_, h⟩ hs => represents_step h hs) as _ l ⟨_, represents_ofFile hls⟩ hr

/-! ## What follows -/

/-- What every state of a position file keeps. -/
structure Sound (l : Ledger) : Prop where
  lastPos : l.pf.lastPos = l.pf.file.length
  /-- the slot is that of a line of the key -/
  inLine : ∀ key pe, l.pf.peMap.find? key = some pe →
    ∃ pre suf s, l.pf.file = pre ++ lineOf key s ++ suf ∧ (pre = [] ∨ pre.getLast? = some 10) ∧
      pe.seek = (pre ++ header key).length
  disjoint : ∀ key key' pe pe', l.pf.peMap.find? key = some pe →
    l.pf.peMap.find? key' = some pe' → key ≠ key' →
      pe.seek + 25 ≤ pe'.seek ∨ pe'.seek + 25 ≤ pe.seek
  reads : ∀ key pe, l.pf.peMap.find? key = some pe →
    ∃ t, l.told.find? key = some t ∧
      pe.readPos l.pf.file = (if Lasting t.pos then t.pos else -1) ∧
      pe.readInode l.pf.file = t.inode.toUInt32.toUInt64

/-- The text of some lines ends with a newline. -/
theorem getLast?_textOf (ls : List FileLine) : textOf ls = [] ∨ (textOf ls).getLast? = some 10 := by
  rcases List.eq_nil_or_concat ls with rfl | ⟨ls, line, rfl⟩
  · exact Or.inl rfl
  · refine Or.inr ?_
    rw [List.concat_eq_append, textOf, Records.text_append, Records.text_cons, Records.text_nil,
      List.append_nil, lineText, lineOf, ← List.append_assoc, List.getLast?_concat]

/-- The slots of two lines are apart. -/
theorem slots_disjoint {t t' : Told} {i j : ℕ} (h : Stands ls key pe t i)
    (h' : Stands ls key' pe' t' j) (hij : i < j) : pe.seek + 25 ≤ pe'.seek := by
  have hle : offsetOf ls i + (lineText (key, t.slot)).length ≤ offsetOf ls j :=
    Records.offset_add_le h.line hij
  have hlen : (lineText (key, t.slot)).length
      = key.pathPattern.length + 1 + key.path.length + 1 + 26 := length_lineText _
  rw [h.seek, h'.seek]
  simp only [header, List.length_append, List.length_singleton]
  omega

theorem sound_of_represents (h : l.Represents ls) : l.Sound where
  lastPos := h.lastPos.trans (congrArg _ h.file.symm)
  inLine key pe hpe := by
    obtain ⟨t, i, -, hst⟩ := h.entry key pe hpe
    refine ⟨textOf (ls.take i), textOf (ls.drop (i + 1)), t.slot, ?_, getLast?_textOf _, ?_⟩
    · rw [h.file]
      exact Records.text_getElem? hst.line
    · rw [hst.seek, List.length_append]
      rfl
  disjoint key key' pe pe' hpe hpe' hne := by
    obtain ⟨t, i, -, hst⟩ := h.entry key pe hpe
    obtain ⟨t', j, -, hst'⟩ := h.entry key' pe' hpe'
    rcases Nat.lt_trichotomy i j with hij | rfl | hij
    · exact Or.inl (slots_disjoint hst hst' hij)
    · exact absurd (congrArg Prod.fst (Option.some.inj (hst.line.symm.trans hst'.line))) hne
    · exact Or.inr (slots_disjoint hst' hst hij)
  reads key pe hpe := by
    obtain ⟨t, i, ht, hst⟩ := h.entry key pe hpe
    have hholds := holds_of_line hst.line hst.seek
    refine ⟨t, ht, ?_, ?_⟩
    · rw [h.file, hholds.readPos, Told.readPos_slot]
    · rw [h.file, hholds.readInode, Told.readInode_slot]

/-- The key a call is about. -/
def callKey : FileCall → PositionEntryKey
  | .get key => key
  | .entry key _ => key
  | .remove key => key

/-- The entry a call writes. -/
def written (l : Ledger) : FileCall → Option FilePositionEntry
  | .entry key _ => l.pf.peMap.find? key
  | _ => none

/-- A call leaves the entries of the other keys, and every byte that is not in
the slot of the entry it is on. -/
structure Confined (a : FileCall) (l l' : Ledger) : Prop where
  entries : ∀ key, key ≠ callKey a →
    l'.pf.peMap.find? key = l.pf.peMap.find? key ∧ l'.told.find? key = l.told.find? key
  bytes : ∀ k < l.pf.file.length,
    (∀ pe, l.written a = some pe → k < pe.seek ∨ pe.seek + 25 ≤ k) →
      l'.pf.file[k]? = l.pf.file[k]?

theorem confined_step {a : FileCall} (h : l.Represents ls) (hs : step a l = some l') :
    Confined a l l' := by
  cases a with
  | get key =>
      rcases step_get h hs with ⟨-, rfl⟩ | ⟨-, rfl⟩
      · exact ⟨fun _ _ => ⟨rfl, rfl⟩, fun _ _ _ => rfl⟩
      · exact ⟨fun key' hne => ⟨OrdMap.find?_insert_ne hne _ _, OrdMap.find?_insert_ne hne _ _⟩,
          fun k hk _ => List.getElem?_append_left hk⟩
  | entry key a =>
      obtain ⟨pe, t, hpe, ht, rfl⟩ := step_entry hs
      obtain ⟨t', i, ht', hst⟩ := h.entry key pe hpe
      refine ⟨fun key' hne => ⟨rfl, OrdMap.find?_insert_ne hne _ _⟩, fun k _ hk => ?_⟩
      obtain rfl : t = t' := Option.some.inj (ht.symm.trans ht')
      have hholds := holds_of_line hst.line hst.seek
      have hlen : ∀ s s' : Slot, s'.text.length = s.text.length := by simp
      show (a.file pe l.pf.file)[k]? = _
      rw [h.file, (holds_call hholds a).1]
      conv_rhs => rw [hholds.1]
      refine getElem?_mid (hlen _ _) ?_
      rw [← hholds.2, Slot.length_text]
      exact hk pe hpe
  | remove key =>
      obtain rfl := Option.some.inj hs
      exact ⟨fun key' hne => ⟨OrdMap.find?_erase_ne hne _, OrdMap.find?_erase_ne hne _⟩,
        fun _ _ _ => rfl⟩

/-- **The position file under its calls.**  After `parse` of canonical lines
and any calls: the state is sound, and the next call is confined to its key
and its slot. -/
theorem store_sound {as : List FileCall} (hls : ∀ l ∈ ls, Legible l.1)
    (hr : run step as (ofFile (textOf ls)) = some l) :
    l.Sound ∧ ∀ a l', step a l = some l' → Confined a l l' := by
  obtain ⟨ls', h⟩ := represents_run hls hr
  exact ⟨sound_of_represents h, fun a l' hs => confined_step h hs⟩

/-- The pattern "a", which is its own path. -/
def keyA : PositionEntryKey := ⟨[97], [97]⟩

/-- The pattern "b". -/
def keyB : PositionEntryKey := ⟨[98], [98]⟩

/-- An entry is removed, added again, and another one unwatched. -/
def readded : List FileCall :=
  [.get keyB, .entry keyA (.write (.updatePos 7)), .remove keyA, .get keyA,
    .entry keyB .unwatch]

theorem store_sound_readded :
    ∃ l, run step readded (ofFile (textOf [(keyA, ⟨5, 6⟩)])) = some l ∧ l.Sound := by
  have hr : run step readded (ofFile (textOf [(keyA, ⟨5, 6⟩)])) = some _ := rfl
  exact ⟨_, hr, (store_sound (by decide +kernel) hr).1⟩

/-- The largest offset reads as none. -/
theorem store_sound_fails :
    ¬ ∀ (ls : List FileLine) (as : List FileCall) (l : Ledger), (∀ l ∈ ls, Legible l.1) →
      run step as (ofFile (textOf ls)) = some l →
        ∀ key pe t, l.pf.peMap.find? key = some pe → l.told.find? key = some t →
          pe.readPos l.pf.file = t.pos := by
  intro h
  have hread := h [] [.get keyA, .entry keyA (.write (.updatePos Int64.maxValue))] _
    (by decide) rfl keyA _ _ rfl rfl
  exact absurd hread (by decide)

end Ledger

end Logkafka
