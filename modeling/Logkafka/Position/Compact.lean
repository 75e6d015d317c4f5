/-
# `Logkafka.Position.Compact` — what `compact` makes of any file

`compact` keeps the last live line of each pattern, as it stands, and writes
the lines it keeps one after the other, in the order of their patterns:

    livePattern line      the pattern of a line with a position that is watched
    lastLive file p       the last such line of the pattern `p`
    entriesOf file        these lines, each under its pattern

Only the last line of a file can be without its newline.  If it is kept it is
written where its pattern stands, and the line behind it begins in the middle
of a line: both are lost (`Glued`).  Otherwise the lines that are kept are the
lines of the new file, and compacting it changes nothing.
-/
import Logkafka.Position.Text

namespace Logkafka.PositionFile

variable {file line : List Byte} {p : Str}

/-- The pattern of a line that is accepted with a position other than
`UNWATCHED_POSITION`. -/
def livePattern (line : List Byte) : Option Str :=
  match parseLine (cString line) with
  | none => none
  | some e => if e.pos = unwatchedPosition then none else some e.key.pathPattern

/-- The last such line of a pattern. -/
def lastLive (file : List Byte) (pathPattern : Str) : Option (List Byte) :=
  ((fgetsLines file).filter fun line => livePattern line = some pathPattern).getLast?

/-- The lines of a file that `parseLine` accepts. -/
def accepted (file : List Byte) : List (List Byte) :=
  (fgetsLines file).filter fun line => (parseLine (cString line)).isSome

/-- After `compact` the accepted lines are the last live lines, each once. -/
def Lossless (file : List Byte) : Prop :=
  (∀ line, line ∈ accepted (compact file) ↔ ∃ p, lastLive file p = some line) ∧
    (accepted (compact file)).Nodup

/-- The last line of the file is live and has no newline, and there is a live
line of a greater pattern. -/
def Glued (file : List Byte) : Prop :=
  ∃ last p, (fgetsLines file).getLast? = some last ∧ 10 ∉ last ∧ livePattern last = some p ∧
    ∃ line ∈ fgetsLines file, ∃ q, livePattern line = some q ∧ p < q

/-! ## The lines that are kept

A map from patterns to lines, filled from the first line to the last.
-/

def keepLast : List (List Byte) → OrdMap Str (List Byte) → OrdMap Str (List Byte)
  | [], m => m
  | line :: lines, m =>
      match livePattern line with
      | none => keepLast lines m
      | some p => keepLast lines (m.insert p line)

def entriesOf (file : List Byte) : OrdMap Str (List Byte) :=
  keepLast (fgetsLines file) OrdMap.empty

theorem find?_keepLast (p : Str) (lines : List (List Byte)) :
    ∀ m : OrdMap Str (List Byte), (keepLast lines m).find? p =
      ((lines.filter fun line => livePattern line = some p).getLast?).or (m.find? p) := by
  induction lines with
  | nil => exact fun _ => rfl
  | cons line lines ih =>
      intro m
      rw [keepLast]
      split
      · next hdead => rw [ih, List.filter_cons_of_neg (by simp [hdead])]
      · next q hlive =>
          rw [ih, OrdMap.find?_insert]
          by_cases hp : p = q
          · rw [if_pos hp, List.filter_cons_of_pos (by simp [hp, hlive]), List.getLast?_cons]
            cases (List.filter _ lines).getLast? <;> rfl
          · rw [if_neg hp, List.filter_cons_of_neg (by simp [hlive, Ne.symm hp])]

theorem find?_entriesOf : (entriesOf file).find? p = lastLive file p := by
  rw [entriesOf, find?_keepLast, OrdMap.find?_empty, Option.or_none]
  rfl

theorem mem_entriesOf : (p, line) ∈ (entriesOf file).entries ↔ lastLive file p = some line := by
  rw [OrdMap.mem_entries, find?_entriesOf]

theorem live_of_mem_entriesOf (h : (p, line) ∈ (entriesOf file).entries) :
    line ∈ fgetsLines file ∧ livePattern line = some p := by
  have hmem := List.mem_filter.mp (List.mem_of_getLast? (mem_entriesOf.mp h))
  exact ⟨hmem.1, of_decide_eq_true hmem.2⟩

/-- Each live line has a last one of its pattern. -/
theorem exists_mem_entriesOf (hline : line ∈ fgetsLines file) (hp : livePattern line = some p) :
    ∃ l, (p, l) ∈ (entriesOf file).entries := by
  have hin : line ∈ (fgetsLines file).filter fun line => livePattern line = some p :=
    List.mem_filter.mpr ⟨hline, decide_eq_true hp⟩
  cases hlast : lastLive file p with
  | none =>
      rw [List.getLast?_eq_none_iff.mp hlast] at hin
      cases hin
  | some l => exact ⟨l, mem_entriesOf.mpr hlast⟩

theorem livePattern_eq_some : livePattern line = some p ↔ ∃ e, parseLine (cString line) = some e ∧
    e.pos ≠ unwatchedPosition ∧ e.key.pathPattern = p := by
  unfold livePattern
  cases parseLine (cString line) with
  | none => simp
  | some e => by_cases hpos : e.pos = unwatchedPosition <;> simp [hpos]

/-! ## The file `compact` leaves

What `fgets` reads of it again, which need not be what was written.
-/

theorem cString_of_no_zero (h : 0 ∉ line) : cString line = line :=
  List.takeWhile_eq_self_iff.mpr fun _ hb => decide_eq_true fun hzero => h (hzero ▸ hb)

theorem cString_of_mem (hzero : 0 ∉ file) (hline : line ∈ fgetsLines file) :
    cString line = line :=
  cString_of_no_zero fun h => hzero (mem_of_mem_fgetsLines hline h)

/-- The key comes first in its line. -/
theorem pattern_append_drop {e : ParsedLine} (h : parseLine line = some e) :
    e.key.pathPattern ++ line.drop e.key.pathPattern.length = line := by
  obtain ⟨_, _, _, rfl, -⟩ := parseLine_sound h
  simp [header]

theorem existentEntries_eq {lines : List (List Byte)}
    (hlines : ∀ l ∈ lines, cString l = l ∧ l ≠ []) : ∀ m : OrdMap Str (List Byte),
    existentEntries lines (m.mapWithKey fun p l => l.drop p.length) =
      (keepLast lines m).mapWithKey fun p l => l.drop p.length := by
  induction lines with
  | nil => exact fun _ => rfl
  | cons line lines ih =>
      intro m
      obtain ⟨⟨hline, hne⟩, hrest⟩ := List.forall_mem_cons.mp hlines
      simp only [existentEntries, keepLast, livePattern, hline, if_neg hne]
      cases parseLine line with
      | none => exact ih hrest m
      | some e =>
          simp only
          by_cases hpos : e.pos = unwatchedPosition
          · rw [if_pos hpos, if_pos hpos]
            exact ih hrest m
          · rw [if_neg hpos, if_neg hpos, ← ih hrest, OrdMap.mapWithKey_insert]

theorem compact_eq (hzero : 0 ∉ file) :
    compact file = ((entriesOf file).entries.map Prod.snd).flatten := by
  have hentries : existentEntries (fgetsLines file) OrdMap.empty =
      (entriesOf file).mapWithKey fun p l => l.drop p.length :=
    existentEntries_eq (fun l hl => ⟨cString_of_mem hzero hl, fgetsLines_ne_nil hl⟩) OrdMap.empty
  rw [compact, hentries]
  show List.flatMap _ (List.map _ _) = _
  rw [List.flatMap_map, ← List.flatMap_def]
  refine List.flatMap_congr fun e he => ?_
  obtain ⟨p, l⟩ := e
  obtain ⟨hl, hlive⟩ := live_of_mem_entriesOf he
  obtain ⟨parsed, hparsed, -, rfl⟩ := livePattern_eq_some.mp hlive
  rw [cString_of_mem hzero hl] at hparsed
  exact pattern_append_drop hparsed

theorem compact_no_zero (hzero : 0 ∉ file) : 0 ∉ compact file := by
  rw [compact_eq hzero]
  intro hmem
  obtain ⟨l, hl, hb⟩ := List.mem_flatten.mp hmem
  obtain ⟨⟨p, l⟩, he, rfl⟩ := List.mem_map.mp hl
  exact hzero (mem_of_mem_fgetsLines (live_of_mem_entriesOf he).1 hb)

/-- The lines that are kept, each with its newline but for one at the end. -/
theorem fgetsLines_compact (hzero : 0 ∉ file) (hglued : ¬ Glued file) :
    fgetsLines (compact file) = (entriesOf file).entries.map Prod.snd := by
  rw [compact_eq hzero]
  rcases List.eq_nil_or_concat (entriesOf file).entries with hnil | ⟨init, ⟨q, last⟩, hinit⟩
  · rw [hnil]
    rfl
  · rw [List.concat_eq_append] at hinit
    have hmem : ∀ e ∈ init ++ [(q, last)], e ∈ (entriesOf file).entries := fun e he => hinit ▸ he
    have hlast : last ∈ fgetsLines file ∧ livePattern last = some q :=
      live_of_mem_entriesOf (hmem _ (List.mem_append_right _ List.mem_cons_self))
    have hsorted := (entriesOf file).sorted
    rw [hinit, List.pairwise_append] at hsorted
    rw [hinit, List.map_append, List.map_singleton]
    refine fgetsLines_concat (fun l hl => ?_) ?_
    · obtain ⟨⟨p, l⟩, he, rfl⟩ := List.mem_map.mp hl
      obtain ⟨hl, hp⟩ := live_of_mem_entriesOf (hmem _ (List.mem_append_left _ he))
      rcases complete_or_last hl with hl | ⟨hend, hnew, -⟩
      · exact hl
      · exact absurd ⟨l, p, hend, hnew, hp, last, hlast.1, q, hlast.2,
          hsorted.2.2 (p, l) he (q, last) List.mem_cons_self⟩ hglued
    · exact (complete_or_last hlast.1).imp_right And.right

/-- Each line that is kept is the only one of its pattern. -/
theorem lastLive_compact (hlines : fgetsLines (compact file) =
    (entriesOf file).entries.map Prod.snd) (p : Str) :
    lastLive (compact file) p = lastLive file p := by
  have hin : ∀ l, l ∈ (fgetsLines (compact file)).filter (livePattern · = some p) ↔
      (p, l) ∈ (entriesOf file).entries := by
    intro l
    rw [hlines, List.mem_filter, List.mem_map]
    constructor
    · rintro ⟨⟨⟨q, l⟩, he, rfl⟩, hp⟩
      have hp := of_decide_eq_true hp
      rw [(live_of_mem_entriesOf he).2] at hp
      exact Option.some.inj hp ▸ he
    · intro he
      exact ⟨⟨_, he, rfl⟩, decide_eq_true (live_of_mem_entriesOf he).2⟩
  cases hnew : lastLive (compact file) p with
  | some l => exact (mem_entriesOf.mp ((hin l).mp (List.mem_of_getLast? hnew))).symm
  | none =>
      cases hold : lastLive file p with
      | none => rfl
      | some l =>
          have hmem := (hin l).mpr (mem_entriesOf.mpr hold)
          rw [List.getLast?_eq_none_iff.mp hnew] at hmem
          cases hmem

theorem accepted_compact (hlines : fgetsLines (compact file) =
    (entriesOf file).entries.map Prod.snd) : accepted (compact file) =
      (entriesOf file).entries.map Prod.snd := by
  rw [accepted, hlines]
  refine List.filter_eq_self.mpr fun l hl => ?_
  obtain ⟨⟨p, l⟩, he, rfl⟩ := List.mem_map.mp hl
  obtain ⟨e, he, -⟩ := livePattern_eq_some.mp (live_of_mem_entriesOf he).2
  simp only [he, Option.isSome_some]

theorem lossless_of_lines (hlines : fgetsLines (compact file) =
    (entriesOf file).entries.map Prod.snd) : Lossless file := by
  unfold Lossless
  rw [accepted_compact hlines]
  refine ⟨fun line => ?_, ?_⟩
  · rw [List.mem_map]
    constructor
    · rintro ⟨⟨p, l⟩, he, rfl⟩
      exact ⟨p, mem_entriesOf.mp he⟩
    · rintro ⟨p, hlast⟩
      exact ⟨(p, line), mem_entriesOf.mpr hlast, rfl⟩
  · -- equal lines have equal patterns
    refine List.pairwise_map.mpr ((entriesOf file).sorted.imp_of_mem fun he he' hlt heq => ?_)
    have hp := (live_of_mem_entriesOf he).2
    rw [heq, (live_of_mem_entriesOf he').2] at hp
    exact absurd hlt (Option.some.inj hp ▸ lt_irrefl _)

theorem compact_compact_of_lines (hzero : 0 ∉ file) (hlines : fgetsLines (compact file) =
    (entriesOf file).entries.map Prod.snd) : compact (compact file) = compact file := by
  have hentries : entriesOf (compact file) = entriesOf file := OrdMap.ext_find? fun p => by
    rw [find?_entriesOf, find?_entriesOf, lastLive_compact hlines]
  rw [compact_eq (compact_no_zero hzero), hentries, compact_eq hzero]

/-- A line without its newline has the next one behind it, and is no line any more. -/
theorem not_lossless_of_glued (hzero : 0 ∉ file) (hglued : Glued file) : ¬ Lossless file := by
  obtain ⟨last, p, hlast, hnew, hp, line, hline, q, hq, hlt⟩ := hglued
  have hend : (p, last) ∈ (entriesOf file).entries := by
    obtain ⟨init, hinit⟩ := List.getLast?_eq_some_iff.mp hlast
    have hfilter : [last].filter (livePattern · = some p) = [last] := by simp [hp]
    rw [mem_entriesOf, lastLive, hinit, List.filter_append, hfilter, List.getLast?_concat]
  obtain ⟨l, hl⟩ := exists_mem_entriesOf hline hq
  obtain ⟨before, after, hsplit⟩ := List.append_of_mem hend
  have hmem : ∀ e ∈ before ++ (p, last) :: after, e ∈ (entriesOf file).entries :=
    fun e he => hsplit ▸ he
  have hsorted := (entriesOf file).sorted
  rw [hsplit, List.pairwise_append] at hsorted
  obtain ⟨-, hafter, hbefore⟩ := hsorted
  have hcomplete : ∀ e ∈ before ++ (p, last) :: after, e.1 ≠ p → Complete e.2 := by
    intro e he hne
    obtain ⟨hmem, hlive⟩ := live_of_mem_entriesOf (hmem e he)
    rcases complete_or_last hmem with hcomp | ⟨hlast', -⟩
    · exact hcomp
    · obtain rfl := Option.some.inj (hlast.symm.trans hlast')
      exact absurd (Option.some.inj (hlive.symm.trans hp)) hne
  cases after with
  | nil =>
      rw [hsplit] at hl
      rcases List.mem_append.mp hl with hl | hl
      · exact absurd hlt (lt_asymm (hbefore _ hl _ List.mem_cons_self))
      · obtain ⟨rfl, -⟩ := Prod.mk.inj (List.mem_singleton.mp hl)
        exact absurd hlt (lt_irrefl _)
  | cons next after =>
      have hbelow : ∀ e ∈ before, Complete e.2 := fun e he =>
        hcomplete e (List.mem_append_left _ he)
          (ne_of_lt (hbefore e he (p, last) List.mem_cons_self))
      have habove : ∀ e ∈ next :: after, Complete e.2 := fun e he =>
        hcomplete e (List.mem_append_right _ (List.mem_cons_of_mem _ he))
          (ne_of_gt ((List.pairwise_cons.mp hafter).1 e he))
      have hall : ∀ l ∈ before.map Prod.snd ++ (last ++ next.2) :: after.map Prod.snd,
          Complete l := by
        intro l hl
        rcases List.mem_append.mp hl with hl | hl
        · obtain ⟨e, he, rfl⟩ := List.mem_map.mp hl
          exact hbelow e he
        · rcases List.mem_cons.mp hl with rfl | hl
          · exact (habove next List.mem_cons_self).append hnew
          · obtain ⟨e, he, rfl⟩ := List.mem_map.mp hl
            exact habove e (List.mem_cons_of_mem _ he)
      have hlines := @fgetsLines_append _ hall [] List.not_mem_nil
      rw [List.append_nil, if_pos rfl, List.append_nil] at hlines
      have hcompact : compact file =
          (before.map Prod.snd ++ (last ++ next.2) :: after.map Prod.snd).flatten := by
        rw [compact_eq hzero, hsplit]
        simp
      rintro ⟨hkeeps, -⟩
      have hin := (List.mem_filter.mp ((hkeeps last).mpr ⟨p, mem_entriesOf.mp hend⟩)).1
      rw [hcompact, hlines] at hin
      exact hnew (hall last hin).mem

/-- **When `compact` is lossless and idempotent.**  For every file without a zero
byte: unless its last line is live and without a newline, and there is a live
line of a greater pattern. -/
theorem compact_lossless_iff (file : List Byte) (hzero : 0 ∉ file) :
    Lossless file ∧ compact (compact file) = compact file ↔ ¬ Glued file := by
  constructor
  · rintro ⟨hlossless, -⟩ hglued
    exact not_lossless_of_glued hzero hglued hlossless
  · intro hglued
    have hlines := fgetsLines_compact hzero hglued
    exact ⟨lossless_of_lines hlines, compact_compact_of_lines hzero hlines⟩

/-- The line of "/c", and behind it that of "/b", as far as it was written. -/
def interrupted : List Byte :=
  ascii "/c\t/c\t0000000000000007\t00000005\n/b\t/b\t0000000000000000\t00000000"

/-- The two lines, the second one with its newline. -/
theorem compact_lossless_iff_two : Lossless (interrupted ++ [10]) ∧
    compact (compact (interrupted ++ [10])) = compact (interrupted ++ [10]) := by
  refine (compact_lossless_iff (interrupted ++ [10]) (by decide +kernel)).mpr ?_
  rintro ⟨last, p, hlast, hnew, -⟩
  have hend : (fgetsLines (interrupted ++ [10])).getLast? =
      some (ascii "/b\t/b\t0000000000000000\t00000000\n") := by decide +kernel
  obtain rfl := Option.some.inj (hend.symm.trans hlast)
  exact hnew (by decide +kernel)

/-- Without the newline both entries are lost. -/
theorem compact_lossless_fails : 0 ∉ interrupted ∧
    ¬ (Lossless interrupted ∧ compact (compact interrupted) = compact interrupted) ∧
      accepted (compact interrupted) = [] := by
  have hzero : 0 ∉ interrupted := by decide +kernel
  refine ⟨hzero, fun h => not_lossless_of_glued hzero ?_ h.1, by decide +kernel⟩
  exact ⟨ascii "/b\t/b\t0000000000000000\t00000000", ascii "/b", by decide +kernel,
    by decide +kernel, by decide +kernel, ascii "/c\t/c\t0000000000000007\t00000005\n",
    by decide +kernel, ascii "/c", by decide +kernel, by decide +kernel⟩

end Logkafka.PositionFile
