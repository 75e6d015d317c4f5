/-
# `Logkafka.Position.RoundTrip` — writing the position file and reading it back

After a restart `parse` has nothing but the text.  `RoundTrips` asks that it
finds the entries there were: the same keys, each with the same 25 bytes.

While nothing is unwatched or removed, every line of the text is that of a
live entry (`Complete`), so a text of legible lines, one for each pattern,
comes back line by line.  It does not when a key is not legible, because no
entry `parse` makes has such a key, nor when an entry was last given the
largest `off_t` or a negative one, which `compact` reads as the mark of an
unwatched one.
-/
import Logkafka.Position.Store
import Logkafka.TaskConf
import Mathlib.Data.List.Nodup

namespace Logkafka.Ledger

open PositionFile

variable {l l' : Ledger} {ls : List FileLine} {key : PositionEntryKey}

/-- `parse` of the file gives the same keys, with the same text in their slots. -/
def RoundTrips (p : PositionFile) : Prop :=
  ∀ key, (parse p.file).slotText key = p.slotText key

/-- Nothing is unwatched and nothing removed. -/
def Watching : FileCall → Prop
  | .get _ => True
  | .entry _ (.write _) => True
  | .entry _ .unwatch => False
  | .remove _ => False

instance : (a : FileCall) → Decidable (Watching a)
  | .get _ => inferInstanceAs (Decidable True)
  | .entry _ (.write _) => inferInstanceAs (Decidable True)
  | .entry _ .unwatch => inferInstanceAs (Decidable False)
  | .remove _ => inferInstanceAs (Decidable False)

/-! ## A text without old lines -/

structure Complete (l : Ledger) (ls : List FileLine) : Prop where
  represents : l.Represents ls
  live : ∀ line ∈ ls, l.pf.peMap.find? line.1 ≠ none
  nodup : (ls.map Prod.fst).Nodup

theorem complete_get (h : l.Complete ls) (hs : step (.get key) l = some l') :
    ∃ ls', l'.Complete ls' := by
  rcases step_get h.represents hs with ⟨-, rfl⟩ | ⟨hfind, hl'⟩
  · exact ⟨ls, h⟩
  · refine ⟨_, represents_append h.represents hfind hs, ?_, ?_⟩
    · subst hl'
      intro line hline
      show OrdMap.find? (OrdMap.insert _ _ _) _ ≠ none
      rw [OrdMap.find?_insert]
      split
      · exact Option.some_ne_none _
      · next hne =>
          rcases List.mem_append.mp hline with hline | hline
          · exact h.live line hline
          · exact absurd (congrArg Prod.fst (List.mem_singleton.mp hline)) hne
    · rw [List.map_append, List.map_singleton, List.nodup_append]
      refine ⟨h.nodup, List.nodup_singleton _, fun k hk k' hk' => ?_⟩
      obtain ⟨line, hline, rfl⟩ := List.mem_map.mp hk
      obtain rfl := List.mem_singleton.mp hk'
      intro heq
      exact h.live line hline (heq ▸ hfind)

theorem complete_write {a : Write} (h : l.Complete ls)
    (hs : step (.entry key (.write a)) l = some l') : ∃ ls', l'.Complete ls' := by
  obtain ⟨i, s, s', hi, hrep⟩ := represents_set h.represents hs
  obtain ⟨pe, t, hpe, ht, rfl⟩ := step_entry hs
  refine ⟨_, hrep, fun line hline => ?_, ?_⟩
  · rcases List.mem_or_eq_of_mem_set hline with hline | rfl
    · exact h.live line hline
    · show l.pf.peMap.find? key ≠ none
      rw [hpe]
      exact Option.some_ne_none _
  · have hkeys : (ls.set i (key, s')).map Prod.fst = ls.map Prod.fst := by
      obtain ⟨hlt, hline⟩ := List.getElem?_eq_some_iff.mp hi
      have hlt' : i < (ls.map Prod.fst).length := by simpa using hlt
      have hkey : key = (ls.map Prod.fst)[i] := by simp [hline]
      rw [List.map_set]
      conv_lhs => rw [hkey]
      exact List.set_getElem_self _
    rw [hkeys]
    exact h.nodup

theorem complete_step {a : FileCall} (ha : Watching a) (h : l.Complete ls)
    (hs : step a l = some l') : ∃ ls', l'.Complete ls' := by
  cases a with
  | get key => exact complete_get h hs
  | entry key a =>
      cases a with
      | write a => exact complete_write h hs
      | unwatch => exact ha.elim
  | remove key => exact ha.elim

theorem complete_ofFile : (ofFile []).Complete [] where
  represents := represents_ofFile (fun _ h => (List.not_mem_nil h).elim)
  live _ h := (List.not_mem_nil h).elim
  nodup := List.nodup_nil

theorem complete_run {as : List FileCall} (has : ∀ a ∈ as, Watching a)
    (hr : run step as (ofFile []) = some l) : ∃ ls, l.Complete ls :=
  run_inv_along (C := fun _ a => Watching a) (I := fun l => ∃ ls, l.Complete ls)
    (fun _ _ _ ⟨_, h⟩ ha hs => complete_step ha h hs) as _ l ⟨[], complete_ofFile⟩
    (along_of_forall has) hr

/-! ## What comes back

The lines are read back by `parse`, and each is compared with what its entry was
last given.
-/

theorem slotText_of_line {p : PositionFile} {pe : FilePositionEntry} {i : ℕ} {s : Slot}
    (hfile : p.file = textOf ls) (hpe : p.peMap.find? key = some pe) (hi : ls[i]? = some (key, s))
    (hseek : pe.seek = offsetOf ls i + (header key).length) :
    p.slotText key = some (some s.text) := by
  have hholds := holds_of_line hi hseek
  rw [slotText, hpe, hfile, hholds.1]
  exact congrArg some (readAt_mid hholds.2 s.length_text.symm)

/-- The text of the slot of an entry. -/
theorem slotText_eq {t : Told} (h : l.Represents ls) (ht : l.told.find? key = some t) :
    l.pf.slotText key = some (some t.slot.text) := by
  cases hpe : l.pf.peMap.find? key with
  | none =>
      rw [h.none key hpe] at ht
      cases ht
  | some pe =>
      obtain ⟨t', i, ht', hst⟩ := h.entry key pe hpe
      obtain rfl : t = t' := Option.some.inj (ht.symm.trans ht')
      exact slotText_of_line h.file hpe hst.line hst.seek

/-- Every line is that of a live entry. -/
theorem told_of_mem (h : l.Complete ls) {line : FileLine} (hline : line ∈ ls) :
    ∃ t, l.told.find? line.1 = some t ∧ line.2 = t.slot := by
  obtain ⟨pe, hpe⟩ := Option.ne_none_iff_exists'.mp (h.live line hline)
  obtain ⟨t, i, ht, hst⟩ := h.represents.entry _ _ hpe
  refine ⟨t, ht, ?_⟩
  -- the keys of the lines are different
  have heq := List.inj_on_of_nodup_map h.nodup hline (List.mem_of_getElem? hst.line) rfl
  exact congrArg Prod.snd heq

/-- An entry reads as unwatched when what it was given does not come back. -/
theorem readPos_slot_iff {t : Told} : t.slot.readPos = unwatchedPosition ↔ ¬ Lasting t.pos := by
  rw [Told.readPos_slot]
  split
  · next h =>
      refine iff_of_false (fun hread => ?_) (not_not.mpr h)
      have hneg := h.1
      rw [hread] at hneg
      exact absurd hneg (by decide)
  · next h => exact iff_of_true rfl h

/-- **When the position file round-trips.**  Entries are created and updated in
any order, one for each pattern, and none is unwatched: `parse` finds them
again if and only if every key is legible and every entry was last given an
offset that is not negative and below the largest `off_t`. -/
theorem round_trips_iff {as : List FileCall} (has : ∀ a ∈ as, Watching a)
    (hr : run step as (ofFile []) = some l)
    (hpatterns : ∀ key ∈ l.pf.peMap.keys, ∀ key' ∈ l.pf.peMap.keys,
      key.pathPattern = key'.pathPattern → key = key') :
    RoundTrips l.pf ↔ ∀ key t, l.told.find? key = some t →
      Legible key ∧ Lasting t.pos := by
  obtain ⟨ls, h⟩ := complete_run has hr
  constructor
  · intro htrip
    have hparsed : ∀ key t, l.told.find? key = some t →
        ∃ pe, (parse l.pf.file).peMap.find? key = some pe := by
      intro key t ht
      obtain ⟨pe, hpe, -⟩ := Option.map_eq_some_iff.mp
        ((htrip key).trans (slotText_eq h.represents ht))
      exact ⟨pe, hpe⟩
    have hlegible : ∀ line ∈ ls, Legible line.1 := by
      intro line hline
      obtain ⟨t, ht, -⟩ := told_of_mem h hline
      obtain ⟨pe, hpe⟩ := hparsed _ t ht
      exact legible_parse _ _ pe hpe
    obtain ⟨m, hparse, hplaced⟩ := parse_textOf hlegible
    intro key t ht
    obtain ⟨pe, hpe⟩ := hparsed key t ht
    rw [h.represents.file, hparse] at hpe
    obtain ⟨i, s, hi, -⟩ := hplaced.place key pe hpe
    obtain ⟨hmem, hlive⟩ := live_of_mem_kept (List.mem_of_getElem? hi)
    obtain ⟨t', ht', hs⟩ := told_of_mem h hmem
    obtain rfl : t = t' := Option.some.inj (ht.symm.trans ht')
    refine ⟨hlegible _ hmem, ?_⟩
    by_contra hlost
    rw [hs] at hlive
    exact hlive (readPos_slot_iff.mpr hlost)
  · intro hgood key
    have hlegible : ∀ line ∈ ls, Legible line.1 := by
      intro line hline
      obtain ⟨t, ht, -⟩ := told_of_mem h hline
      exact (hgood _ t ht).1
    obtain ⟨m, hparse, hplaced⟩ := parse_textOf hlegible
    rw [h.represents.file, hparse]
    cases hpe : l.pf.peMap.find? key with
    | none =>
        have hnone : m.find? key = none := by
          cases hm : m.find? key with
          | none => rfl
          | some pe =>
              obtain ⟨i, s, hi, -⟩ := hplaced.place key pe hm
              exact absurd hpe (h.live _ (live_of_mem_kept (List.mem_of_getElem? hi)).1)
        simp only [slotText, hnone, hpe, Option.map_none]
    | some pe =>
        obtain ⟨t, i, ht, hst⟩ := h.represents.entry key pe hpe
        have hmem : (key, t.slot) ∈ ls := List.mem_of_getElem? hst.line
        have hlive : t.slot.readPos ≠ unwatchedPosition := fun hdead =>
          readPos_slot_iff.mp hdead (hgood key t ht).2
        have hkept : (key, t.slot) ∈ kept ls := by
          refine mem_kept_of_unique hmem hlive fun line hline hp => ?_
          have hin : ∀ line ∈ ls, line.1 ∈ l.pf.peMap.keys := fun line hline =>
            OrdMap.mem_keys.mpr (Option.ne_none_iff_exists'.mp (h.live line hline))
          exact List.inj_on_of_nodup_map h.nodup hline hmem
            (hpatterns _ (hin line hline) _ (hin _ hmem) hp)
        obtain ⟨pe', hpe'⟩ := hplaced.mem _ hkept
        obtain ⟨j, s, hj, hseek⟩ := hplaced.place key pe' hpe'
        -- the line that is left is the entry's own
        obtain ⟨t', ht', hs⟩ := told_of_mem h (live_of_mem_kept (List.mem_of_getElem? hj)).1
        obtain rfl : t = t' := Option.some.inj (ht.symm.trans ht')
        rw [slotText_eq h.represents ht, ← hs]
        exact slotText_of_line rfl hpe' hj hseek

/-- Two entries, and one of them updated. -/
def twoEntries : List FileCall :=
  [.get keyB, .get keyA, .entry keyB (.write (.update 6 5))]

theorem round_trips_iff_two :
    ∃ l, run step twoEntries (ofFile []) = some l ∧ RoundTrips l.pf := by
  have hr : run step twoEntries (ofFile []) = some _ := rfl
  have htold : ∀ e ∈ [(keyA, (⟨0, 0⟩ : Told)), (keyB, ⟨6, 5⟩)],
      Legible e.1 ∧ Lasting e.2.pos := by decide +kernel
  exact ⟨_, hr, (round_trips_iff (by decide) hr (by decide +kernel)).mpr fun key t ht =>
    htold (key, t) (OrdMap.mem_entries.mpr ht)⟩

/-- A pattern may hold a tab. -/
theorem round_trips_fails :
    ¬ ∀ (expand : Str → Str) (as : List FileCall) (l : Ledger),
      (∀ a ∈ as, Watching a ∧ ∃ conf : LogConf, conf.isLegal = true ∧
        callKey a = ⟨conf.logPath, expand conf.logPath⟩) →
      run step as (ofFile []) = some l → RoundTrips l.pf := by
  intro h
  have htrip := h id [.get ⟨[97, 9, 98], [97, 9, 98]⟩] _ (fun a ha => by
    obtain rfl := List.mem_singleton.mp ha
    exact ⟨trivial, ⟨[97, 9, 98], true, 200, false, 10, true⟩, by decide, rfl⟩) rfl
  exact absurd (htrip ⟨[97, 9, 98], [97, 9, 98]⟩) (by decide)

end Logkafka.Ledger
