/-
# `Logkafka.IOHandler.Step` — what one step of `onNotify` does

The lemmas here say once, for the scan and for each control point, what the
code does; the invariants of the next modules are derived from them and never
unfold the code again.

    scan_spec          the `for` loop cuts the frames of the one-pass splitter,
                       up to the batch size
    scanBuffer_spec    the same, with the leftover moved to the head
    enter_cases        the three ways into a call, after the buffer was looked at
                       (handleUncleaned_cases)
    leaveReads_cases   the three ways out of the inner loop
    Step, step_cases   the five ways from one control point to the next

A frame is what the scan cuts out of the buffer, terminator included; `strip`
is what is pushed of it and `layout` the lines of consecutive frames.
-/
import Logkafka.Framing
import Logkafka.IOHandler.Basic

namespace Logkafka.IOHandler

open Framing

/-- The one-pass splitter with the delimiter and the limit of a handler. -/
abbrev Conf.cuts (c : Conf) : List Byte → List Byte → List (List Byte) × List Byte :=
  Framing.cuts (fun b => b = c.lineDelimiter) c.lineMaxBytes

abbrev Conf.Uncut (c : Conf) : List Byte → Prop :=
  Framing.Uncut (fun b => b = c.lineDelimiter) c.lineMaxBytes

/-- What is pushed of a frame: the delimiter goes if it is to be removed. -/
def strip (c : Conf) (fr : List Byte) : List Byte :=
  if c.removeDelimiter ∧ fr.getLast? = some c.lineDelimiter then fr.dropLast else fr

/-- The lines of consecutive frames, the first at offset `pos`. -/
def layout (c : Conf) : ℕ → List (List Byte) → List Line
  | _, [] => []
  | pos, fr :: frs => ⟨pos, strip c fr⟩ :: layout c (pos + fr.length) frs

theorem strip_delimiter (c : Conf) (cur : List Byte) :
    strip c (cur ++ [c.lineDelimiter])
      = if c.removeDelimiter then cur else cur ++ [c.lineDelimiter] := by
  simp [strip]

theorem strip_limit {c : Conf} {b : Byte} (h : b ≠ c.lineDelimiter) (cur : List Byte) :
    strip c (cur ++ [b]) = cur ++ [b] := by
  simp [strip, h]

theorem layout_text (c : Conf) (pos : ℕ) (frs : List (List Byte)) :
    (layout c pos frs).map Line.text = frs.map (strip c) := by
  induction frs generalizing pos with
  | nil => rfl
  | cons fr frs ih => simp [layout, ih]

theorem length_layout (c : Conf) (pos : ℕ) (frs : List (List Byte)) :
    (layout c pos frs).length = frs.length := by
  simpa using congrArg List.length (layout_text c pos frs)

/-- Frames are not empty, so their lines start at different places, all before
the place where the last frame ends. -/
theorem layout_starts (c : Conf) {pos : ℕ} {frs : List (List Byte)} (hne : ∀ fr ∈ frs, fr ≠ []) :
    (layout c pos frs).Pairwise (fun l l' => l.start < l'.start) ∧
      ∀ l ∈ layout c pos frs, pos ≤ l.start ∧ l.start < pos + frs.flatten.length := by
  induction frs generalizing pos with
  | nil => simp [layout]
  | cons fr frs ih =>
      have hpos : 0 < fr.length := List.length_pos_iff.mpr (hne fr List.mem_cons_self)
      obtain ⟨h1, h2⟩ := @ih (pos + fr.length)
        fun x hx => hne x (List.mem_cons_of_mem _ hx)
      refine ⟨List.pairwise_cons.mpr ⟨fun l hl => ?_, h1⟩, fun l hl => ?_⟩
      · have := (h2 l hl).1
        show pos < l.start
        omega
      · rw [List.flatten_cons, List.length_append]
        rcases List.mem_cons.mp hl with rfl | hl
        · show pos ≤ pos ∧ pos < _
          omega
        · have := h2 l hl
          omega

/-! ## The scan

`Scanned` is what the loop does from any byte on, by induction on the bytes;
`BufferScanned` is the block around it.
-/

/-- What the scan of `rest`, `cur` being read since the last cut, leaves: it
cut `frames` and left `left` over. -/
structure Scanned (c : Conf) (base : ℕ) (lines : List Line) (curBufPos : ℕ)
    (cur rest : List Byte) (r : Scan) (frames : List (List Byte)) (left : List Byte) : Prop where
  lines_eq : r.lines = lines ++ layout c (base + curBufPos) frames
  pos_eq : r.curBufPos = curBufPos + frames.flatten.length
  split : frames.flatten ++ left = cur ++ rest
  nonempty : ∀ fr ∈ frames, fr ≠ []
  cuts_eq : c.cuts cur rest = (frames ++ (c.cuts [] left).1, (c.cuts [] left).2)
  scanned : r.broke = false → c.Uncut left
  full : r.broke = true → c.maxLineAtOnce ≤ r.lines.length
  bound : lines.length ≤ c.maxLineAtOnce → r.lines.length ≤ c.maxLineAtOnce

/-- One frame more at the front: the scan cut `cur ++ [b]` and went on. -/
theorem Scanned.cons {c : Conf} {base curBufPos : ℕ} {lines : List Line} {cur rest : List Byte}
    {b : Byte} {r : Scan} {frames : List (List Byte)} {left : List Byte}
    (hroom : lines.length < c.maxLineAtOnce)
    (hend : b = c.lineDelimiter ∨ c.lineMaxBytes ≤ cur.length + 1)
    (h : Scanned c base (lines ++ [⟨base + curBufPos, strip c (cur ++ [b])⟩])
      (curBufPos + (cur.length + 1)) [] rest r frames left) :
    Scanned c base lines curBufPos cur (b :: rest) r ((cur ++ [b]) :: frames) left where
  lines_eq := by
    have hlen : base + curBufPos + (cur.length + 1) = base + (curBufPos + (cur.length + 1)) := by
      omega
    rw [h.lines_eq, layout, List.length_append, List.length_singleton, hlen]
    simp
  pos_eq := by
    rw [h.pos_eq, List.flatten_cons, List.length_append, List.length_append, List.length_singleton]
    omega
  split := by
    have := h.split
    simp only [List.nil_append] at this
    simp [this]
  nonempty := by
    intro fr hfr
    rcases List.mem_cons.mp hfr with rfl | hfr
    · simp
    · exact h.nonempty fr hfr
  cuts_eq := by
    have hrest := h.cuts_eq
    show Framing.cuts _ _ cur (b :: rest) = _
    rw [Framing.cuts_cons_end (by simpa using hend), show Framing.cuts _ _ [] rest = _ from hrest]
    rfl
  scanned := h.scanned
  full := h.full
  bound := fun _ => h.bound (by rw [List.length_append, List.length_singleton]; omega)

theorem scan_spec (c : Conf) (base : ℕ) :
    ∀ (rest : List Byte) (lines : List Line) (curBufPos : ℕ) (cur : List Byte), c.Uncut cur →
      ∃ frames left,
        Scanned c base lines curBufPos cur rest (scan c base lines curBufPos cur rest) frames left
  | [], lines, curBufPos, cur, hu =>
      ⟨[], cur, by
        constructor <;> simp_all [scan, layout, Framing.Uncut]⟩
  | b :: rest, lines, curBufPos, cur, hu => by
      by_cases hfull : c.maxLineAtOnce ≤ lines.length
      · -- the batch is full: nothing is cut, and the rest stays in the buffer
        have hscan : scan c base lines curBufPos cur (b :: rest) = ⟨lines, curBufPos, true⟩ := by
          rw [scan, if_pos hfull]
        refine ⟨[], cur ++ b :: rest, ?_⟩
        rw [hscan]
        constructor
        · simp [layout]
        · simp
        · simp
        · simp
        · show Framing.cuts _ _ cur (b :: rest) = _
          rw [show c.cuts [] (cur ++ b :: rest) = c.cuts cur (b :: rest) from
            Framing.cuts_append_of_uncut hu _]
          rfl
        · simp
        · exact fun _ => hfull
        · exact id
      · have hroom : lines.length < c.maxLineAtOnce := Nat.lt_of_not_le hfull
        by_cases hd : b = c.lineDelimiter
        · obtain ⟨frames, left, h⟩ := scan_spec c base rest
            (lines ++ [⟨base + curBufPos, strip c (cur ++ [b])⟩])
            (curBufPos + (cur.length + 1)) [] uncut_nil
          refine ⟨(cur ++ [b]) :: frames, left, ?_⟩
          rw [scan, if_neg hfull, if_pos hd]
          subst hd
          rw [← strip_delimiter]
          exact h.cons hroom (Or.inl rfl)
        · by_cases hl : c.lineMaxBytes ≤ cur.length + 1
          · obtain ⟨frames, left, h⟩ := scan_spec c base rest
              (lines ++ [⟨base + curBufPos, strip c (cur ++ [b])⟩])
              (curBufPos + (cur.length + 1)) [] uncut_nil
            have hcons := h.cons hroom (Or.inr hl)
            rw [strip_limit hd] at hcons
            refine ⟨(cur ++ [b]) :: frames, left, ?_⟩
            rw [scan, if_neg hfull, if_neg hd, if_pos hl]
            exact hcons
          · have hmid : ¬ (decide (b = c.lineDelimiter) = true ∨ c.lineMaxBytes ≤ cur.length + 1) := by
              simp [hd, Nat.lt_of_not_le hl]
            obtain ⟨frames, left, h⟩ := scan_spec c base rest lines curBufPos (cur ++ [b])
              (uncut_append_singleton hu hmid)
            refine ⟨frames, left, ?_⟩
            rw [scan, if_neg hfull, if_neg hd, if_neg hl]
            refine { h with split := ?_, cuts_eq := ?_ }
            · rw [h.split]
              simp
            · show Framing.cuts _ _ cur (b :: rest) = _
              rw [Framing.cuts_cons_mid hmid]
              exact h.cuts_eq

/-- What the block over the buffer does to a handler. -/
structure BufferScanned (c : Conf) (now : ℤ) (h h' : IOHandler) (broke : Bool)
    (frames : List (List Byte)) : Prop where
  same : h' = { h with
    lines := h'.lines, cut := h'.cut, buffer := h'.buffer,
    bufferLastSegment := h'.bufferLastSegment, lastBufferStuckTime := h'.lastBufferStuckTime }
  lines_eq : h'.lines = h.lines ++ layout c h.cutPos frames
  cut_eq : h'.cut = h.cut ++ layout c h.cutPos frames
  split : frames.flatten ++ h'.buffer = h.buffer
  nonempty : ∀ fr ∈ frames, fr ≠ []
  cuts_eq : c.cuts [] h.buffer = (frames ++ (c.cuts [] h'.buffer).1, (c.cuts [] h'.buffer).2)
  scanned : broke = false → c.Uncut h'.buffer
  full : broke = true → c.maxLineAtOnce ≤ h'.lines.length
  bound : h.lines.length ≤ c.maxLineAtOnce → h'.lines.length ≤ c.maxLineAtOnce

theorem scanBuffer_spec (c : Conf) (now : ℤ) (h : IOHandler) :
    ∃ frames, BufferScanned c now h (scanBuffer c now h).1 (scanBuffer c now h).2 frames := by
  by_cases hb : h.buffer = []
  · refine ⟨[], ?_⟩
    rw [scanBuffer, if_pos hb]
    constructor
    · rfl
    all_goals simp [hb, layout, Framing.uncut_nil]
  · obtain ⟨frames, left, hs⟩ := scan_spec c h.cutPos h.buffer h.lines 0 [] uncut_nil
    have hleft : h.buffer.drop (scan c h.cutPos h.lines 0 [] h.buffer).curBufPos = left := by
      have hsplit := hs.split
      rw [hs.pos_eq, Nat.zero_add, show h.buffer = frames.flatten ++ left by simpa using hsplit.symm]
      simp
    refine ⟨frames, ?_⟩
    rw [scanBuffer, if_neg hb]
    constructor
    · rfl
    · exact hs.lines_eq
    · show h.cut ++ List.drop _ _ = _
      rw [hs.lines_eq]
      simp
    · show frames.flatten ++ List.drop _ _ = _
      rw [hleft]
      exact hs.split
    · exact hs.nonempty
    · show _ = (frames ++ (c.cuts [] (List.drop _ _)).1, _)
      simp only [hleft]
      exact hs.cuts_eq
    · intro hbr
      show c.Uncut (List.drop _ _)
      rw [hleft]
      exact hs.scanned hbr
    · exact hs.full
    · exact hs.bound

theorem scanBuffer_fileOpen (c : Conf) (now : ℤ) (h : IOHandler) :
    (scanBuffer c now h).1.fileOpen = h.fileOpen := by
  obtain ⟨frames, hs⟩ := scanBuffer_spec c now h
  rw [hs.same]

/-! ## The head of a call and the end of the inner loop

The code before the first call and after the last `fread`, each with its cases.
-/

/-- The buffer becomes a line if it is flushed, and only then is it touched. -/
theorem handleUncleaned_cases (c : Conf) (now : ℤ) (h : IOHandler) :
    h.buffer = [] ∧ handleUncleaned c now h = h ∨
      h.buffer ≠ [] ∧ h.lines.length < c.maxLineAtOnce ∧ h.bufferLastSegment = true ∧
        handleUncleaned c now h = { h with
          lastIoTime := now
          lines := h.lines ++ [⟨h.cutPos, h.buffer⟩]
          cut := h.cut ++ [⟨h.cutPos, h.buffer⟩]
          buffer := [] } ∨
      h.buffer ≠ [] ∧ handleUncleaned c now h = { h with lastIoTime := now } := by
  by_cases hbuffer : h.buffer = []
  · exact Or.inl ⟨hbuffer, if_pos hbuffer⟩
  · have hhead : handleUncleaned c now h = if flushes c now h then _ else _ := if_neg hbuffer
    by_cases hflush : flushes c now h = true
    · have hconds := hflush
      simp only [flushes, Bool.and_eq_true, decide_eq_true_eq] at hconds
      obtain ⟨⟨-, hroom⟩, -, hseg⟩ := hconds
      exact Or.inr (Or.inl ⟨hbuffer, hroom, hseg, hhead.trans (if_pos hflush)⟩)
    · exact Or.inr (Or.inr ⟨hbuffer, hhead.trans (if_neg hflush)⟩)

theorem handleUncleaned_of_nil {c : Conf} {now : ℤ} {h : IOHandler} (hnil : h.buffer = []) :
    handleUncleaned c now h = h :=
  if_pos hnil

/-- The lines that were held back stay in front. -/
theorem lines_handleUncleaned (c : Conf) (now : ℤ) (h : IOHandler) :
    h.lines <+: (handleUncleaned c now h).lines := by
  rcases handleUncleaned_cases c now h with ⟨-, heq⟩ | ⟨-, -, -, heq⟩ | ⟨-, heq⟩
  · rw [heq]
  · rw [heq]
    exact List.prefix_append _ _
  · rw [heq]

/-- Without a flush the lines, the buffer and the place in the file stay. -/
theorem handleUncleaned_of_not_flushes {c : Conf} {now : ℤ} {h : IOHandler}
    (hflush : flushes c now h = false) :
    handleUncleaned c now h = { h with lastIoTime := (handleUncleaned c now h).lastIoTime } := by
  unfold handleUncleaned
  rw [hflush]
  split <;> rfl

theorem enter_cases (c : Conf) (now : ℤ) (h : IOHandler) :
    h.fileOpen = false ∧ enter c now h = (.returned, h) ∨
      h.fileOpen = true ∧ (handleUncleaned c now h).lines = [] ∧
        enter c now h = (.read false, handleUncleaned c now h) ∨
      h.fileOpen = true ∧ (handleUncleaned c now h).lines ≠ [] ∧
        enter c now h = (.resend, handleUncleaned c now h) := by
  cases hopen : h.fileOpen with
  | false => exact Or.inl ⟨rfl, if_neg (by simp [hopen])⟩
  | true =>
      have henter : enter c now h = if (handleUncleaned c now h).lines = [] then _ else _ :=
        if_pos hopen
      by_cases hlines : (handleUncleaned c now h).lines = []
      · exact Or.inr (Or.inl ⟨rfl, hlines, henter.trans (if_pos hlines)⟩)
      · exact Or.inr (Or.inr ⟨rfl, hlines, henter.trans (if_neg hlines)⟩)

/-- With nothing to send the loop goes round, or the call returns. -/
theorem leaveReads_of_nil {readMore : Bool} {h : IOHandler} (hnil : h.lines = []) :
    leaveReads readMore h = (if readMore then .read false else .returned, h) :=
  if_pos hnil

/-- With lines at hand the loop is left to send them. -/
theorem leaveReads_of_lines {readMore : Bool} {h : IOHandler} (hlines : h.lines ≠ []) :
    leaveReads readMore h = (.send readMore, h) :=
  if_neg hlines

theorem leaveReads_cases (readMore : Bool) (h : IOHandler) :
    h.lines = [] ∧ readMore = true ∧ leaveReads readMore h = (.read false, h) ∨
      h.lines = [] ∧ readMore = false ∧ leaveReads readMore h = (.returned, h) ∨
      h.lines ≠ [] ∧ leaveReads readMore h = (.send readMore, h) := by
  by_cases hlines : h.lines = []
  · cases readMore with
    | true => exact Or.inl ⟨hlines, rfl, leaveReads_of_nil hlines⟩
    | false => exact Or.inr (Or.inl ⟨hlines, rfl, leaveReads_of_nil hlines⟩)
  · exact Or.inr (Or.inr ⟨hlines, leaveReads_of_lines hlines⟩)

/-- The whole buffer is there for `fread`. -/
theorem room_of_nil {c : Conf} {h : IOHandler} (hnil : h.buffer = []) :
    room c h = c.bufferMaxBytes := by
  have hmax := c.bufferMaxBytes_lt
  unfold room
  rw [hnil, List.length_nil]
  omega

/-! ## The steps -/

/-- The five ways from one control point of `onNotify` to the next. -/
inductive Step (c : Conf) (f : LogFile) :
    Event → Control × IOHandler → Control × IOHandler → Prop
  | resend {ok : Bool} {vs : List Verdict} {now : ℤ} {h : IOHandler} :
      vs.length = h.lines.length →
      Step c f (.receive ok vs now) (.resend, h)
        (if pick .unsent h.lines vs = [] then .read false else .returned,
         afterReceive ok vs now h)
  | readNothing {visible : ℕ} {failed readMore : Bool} {now : ℤ} {h : IOHandler} :
      FreadOk c f h visible 0 failed →
      Step c f (.fread visible 0 failed now) (.read readMore, h)
        (leaveReads (readMore || (scanBuffer c now (afterFread f visible 0 failed h)).2)
          (scanBuffer c now (afterFread f visible 0 failed h)).1)
  | readFull {visible n : ℕ} {failed readMore : Bool} {now : ℤ} {h : IOHandler} :
      FreadOk c f h visible n failed → n ≠ 0 →
      c.maxLineAtOnce ≤ (scanBuffer c now (afterFread f visible n failed h)).1.lines.length →
      Step c f (.fread visible n failed now) (.read readMore, h)
        (leaveReads true (scanBuffer c now (afterFread f visible n failed h)).1)
  | readOn {visible n : ℕ} {failed readMore : Bool} {now : ℤ} {h : IOHandler} :
      FreadOk c f h visible n failed → n ≠ 0 →
      (scanBuffer c now (afterFread f visible n failed h)).1.lines.length < c.maxLineAtOnce →
      Step c f (.fread visible n failed now) (.read readMore, h)
        (.read readMore, (scanBuffer c now (afterFread f visible n failed h)).1)
  | send {ok readMore : Bool} {vs : List Verdict} {now : ℤ} {h : IOHandler} :
      vs.length = h.lines.length →
      Step c f (.receive ok vs now) (.send readMore, h)
        (if readMore ∧ pick .unsent h.lines vs = [] then .read false else .returned,
         afterReceive ok vs now h)

theorem step_cases {c : Conf} {f : LogFile} {e : Event} {s s' : Control × IOHandler}
    (hs : step c f e s = some s') : Step c f e s s' := by
  obtain ⟨ctl, h⟩ := s
  cases e with
  | receive ok vs now =>
      cases ctl with
      | resend =>
          simp only [step, Option.ite_none_right_eq_some] at hs
          obtain ⟨hlen, hs⟩ := hs
          have : s' = (if pick .unsent h.lines vs = [] then Control.read false else .returned,
              afterReceive ok vs now h) := by
            split at hs <;> simp_all
          rw [this]
          exact .resend hlen
      | send readMore =>
          simp only [step, Option.ite_none_right_eq_some] at hs
          obtain ⟨hlen, hs⟩ := hs
          have : s' = (if readMore ∧ pick .unsent h.lines vs = [] then Control.read false
              else .returned, afterReceive ok vs now h) := by
            by_cases hu : pick .unsent h.lines vs = [] <;> simp_all
          rw [this]
          exact .send hlen
      | read readMore => simp [step] at hs
      | returned => simp [step] at hs
  | fread visible n failed now =>
      cases ctl with
      | read readMore =>
          simp only [step, Option.ite_none_right_eq_some] at hs
          obtain ⟨hok, hs⟩ := hs
          by_cases hn : n = 0
          · subst hn
            rw [if_pos rfl] at hs
            obtain rfl := Option.some.inj hs
            exact .readNothing hok
          · rw [if_neg hn] at hs
            by_cases hfull : c.maxLineAtOnce ≤
                (scanBuffer c now (afterFread f visible n failed h)).1.lines.length
            · rw [if_pos hfull] at hs
              obtain rfl := Option.some.inj hs
              exact .readFull hok hn hfull
            · rw [if_neg hfull] at hs
              -- the loop goes on only when the scan ran to the end of the buffer
              have hbroke : (scanBuffer c now (afterFread f visible n failed h)).2 = false := by
                obtain ⟨frames, hsp⟩ := scanBuffer_spec c now (afterFread f visible n failed h)
                by_contra hb
                exact hfull (hsp.full (by simpa using hb))
              rw [hbroke, Bool.or_false] at hs
              obtain rfl := Option.some.inj hs
              exact .readOn hok hn (Nat.lt_of_not_le hfull)
      | resend => simp [step] at hs
      | send readMore => simp [step] at hs
      | returned => simp [step] at hs

end Logkafka.IOHandler
