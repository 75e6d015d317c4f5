/-
# `Logkafka.IOHandler.Reference` — what is delivered is what one pass cuts

`reference` cuts a whole byte sequence in one pass.  `onNotify` reads it in
chunks, scans a buffer it has scanned before, stops in the middle of it when
the batch is full, and may be replaced by a new handler between two calls.
While every batch is accepted and the buffer is never flushed for being stuck,
none of this can be seen:

    delivered = reference (content[start, filePos))

and between two calls the buffer is what the one pass leaves over and the
stored position is where it starts.  Nothing is left unread either: while the
file only grows, `filePos` is after each call what its last `fread` found there.

`Framed` holds at every control point: the frames cut so far, followed by what
one pass would still cut out of the buffer, are what one pass cuts out of
everything read.  The rest is that the buffer always has room when the loop
comes back to `fread`; that is where `line_max_bytes ≤ read_max_bytes` and
`1 ≤ batch` are needed.  `Sees` follows what the events make visible.
-/
import Logkafka.IOHandler.Accounting

namespace Logkafka

/-- `content[a, b)` -/
def LogFile.window (f : LogFile) (a b : ℕ) : List Byte := (f.content.drop a).take (b - a)

theorem LogFile.window_self (f : LogFile) (a : ℕ) : f.window a a = [] := by
  simp [window]

theorem LogFile.window_append (f : LogFile) {a b : ℕ} (h : a ≤ b) (n : ℕ) :
    f.window a (b + n) = f.window a b ++ (f.content.drop b).take n := by
  have hlen : b + n - a = (b - a) + n := by omega
  have hdrop : a + (b - a) = b := by omega
  rw [window, window, hlen, List.take_add, List.drop_drop, hdrop]

/-- The head of a window is a window. -/
theorem LogFile.window_prefix (f : LogFile) {a b : ℕ} {xs ys : List Byte}
    (h : f.window a b = xs ++ ys) : f.window a (a + xs.length) = xs := by
  have hle : xs.length ≤ b - a := by
    have hlen := congrArg List.length h
    rw [window, List.length_take, List.length_append] at hlen
    omega
  have htake : (f.window a b).take xs.length = xs := by simp [h]
  rw [window, List.take_take, Nat.min_eq_left hle] at htake
  rw [window, Nat.add_sub_cancel_left]
  exact htake

namespace IOHandler

open Framing

/-- The one-pass splitter: cut after each delimiter, or after `line_max_bytes`
bytes since the last cut. -/
def reference (c : Conf) (bytes : List Byte) : List (List Byte) :=
  (c.cuts [] bytes).1.map (strip c)

/-- The lines handed over for good, over all batches. -/
def delivered (h : IOHandler) : List Line := h.calls.flatMap Call.delivered

/-- What happens to the reading of a file: a call, or a new handler at the
stored position.  The record of the batches goes on. -/
inductive Turn
  | notify (now : ℤ) (es : List Event)
  | restart (now : ℤ)
deriving DecidableEq

def turn (c : Conf) (f : LogFile) : Turn → IOHandler → Option IOHandler
  | .notify now es, h => onNotify c f now es h
  | .restart now, h => some { init h.stored h.stored now with calls := h.calls }

def Turn.events : Turn → List Event
  | .notify _ es => es
  | .restart _ => []

/-- What is visible of the file behind an event, `n` bytes before it. -/
def Event.shown (n : ℕ) : Event → ℕ
  | .fread visible _ _ _ => visible
  | .receive _ _ _ => n

/-- What the last `fread` found of the file. -/
def shown (n : ℕ) (es : List Event) : ℕ := es.foldl Event.shown n

/-- The file only grows, and no `fread` of it fails. -/
def Grows : ℕ → List Event → Prop
  | _, [] => True
  | n, .fread visible _ failed _ :: es => (failed = false ∧ n ≤ visible) ∧ Grows visible es
  | n, .receive _ _ _ :: es => Grows n es

instance decidableGrows : (n : ℕ) → (es : List Event) → Decidable (Grows n es)
  | _, [] => isTrue trivial
  | n, .fread visible _ failed _ :: es =>
      have := decidableGrows visible es
      inferInstanceAs (Decidable ((failed = false ∧ n ≤ visible) ∧ Grows visible es))
  | n, .receive _ _ _ :: es => decidableGrows n es

/-- The callback took the batch. -/
def Accepted (a : Bool × List Verdict) : Prop := a.1 = true ∧ .unsent ∉ a.2

instance (a : Bool × List Verdict) : Decidable (Accepted a) := by
  unfold Accepted; infer_instance

/-- Every batch is accepted and the stuck buffer is not flushed. -/
def Quiet (c : Conf) (h : IOHandler) : Turn → Prop
  | .notify now es => flushes c now h = false ∧ ∀ a ∈ answers es, Accepted a
  | .restart _ => True

instance (c : Conf) (h : IOHandler) : ∀ k : Turn, Decidable (Quiet c h k)
  | .notify now es =>
      inferInstanceAs (Decidable (flushes c now h = false ∧ ∀ a ∈ answers es, Accepted a))
  | .restart _ => isTrue trivial

/-- The parameters the law is about. -/
structure Conf.Sane (c : Conf) : Prop where
  batch : 1 ≤ c.maxLineAtOnce
  line : 1 ≤ c.lineMaxBytes
  buffer : c.lineMaxBytes ≤ c.bufferMaxBytes

/-! ## The invariant

`Framed` is of what was cut and is in the buffer; `Drained` and `Waits` add what
holds at the three control points.
-/

theorem Conf.cuts_append (c : Conf) (cur xs ys : List Byte) :
    c.cuts cur (xs ++ ys)
      = ((c.cuts cur xs).1 ++ (c.cuts (c.cuts cur xs).2 ys).1, (c.cuts (c.cuts cur xs).2 ys).2) :=
  Framing.cuts_append cur xs ys

theorem Conf.cuts_flatten_frames (c : Conf) (xs : List Byte) :
    c.cuts [] (c.cuts [] xs).1.flatten = ((c.cuts [] xs).1, []) :=
  Framing.cuts_flatten_frames uncut_nil xs

theorem layout_append (c : Conf) (pos : ℕ) (frs frs' : List (List Byte)) :
    layout c pos (frs ++ frs') = layout c pos frs ++ layout c (pos + frs.flatten.length) frs' := by
  induction frs generalizing pos with
  | nil => rfl
  | cons fr frs ih =>
      have hlen : pos + fr.length + frs.flatten.length
          = pos + (fr :: frs).flatten.length := by
        rw [List.flatten_cons, List.length_append]
        omega
      simp only [List.cons_append, layout, ih, hlen]

/-- `frames` were cut so far out of what was read since `start`. -/
structure Framed (c : Conf) (f : LogFile) (start : ℕ) (h : IOHandler)
    (frames : List (List Byte)) : Prop where
  fileOpen : h.fileOpen = true
  bufferLe : h.buffer.length ≤ h.filePos
  room : h.buffer.length < c.bufferMaxBytes
  read : f.window start h.filePos = frames.flatten ++ h.buffer
  cuts_eq : c.cuts [] (f.window start h.filePos)
    = (frames ++ (c.cuts [] h.buffer).1, (c.cuts [] h.buffer).2)
  lines_eq : h.delivered ++ h.lines = layout c start frames
  cutPos_eq : h.cutPos = start + frames.flatten.length
  stored : h.lines = [] → h.stored = h.cutPos

/-- Nothing is left to cut, and all the last `fread` saw was read. -/
def Drained (c : Conf) (h : IOHandler) : Prop := c.Uncut h.buffer ∧ h.seen ≤ h.filePos

/-- What holds besides at a control point.  `resend` is never reached: no line
outlives its call. -/
def Waits (c : Conf) : Control → IOHandler → Prop
  | .resend, _ => False
  | .read _, h => h.lines.length < c.maxLineAtOnce
  | .send readMore, h => readMore = false → Drained c h
  | .returned, h => h.lines = [] ∧ Drained c h

theorem framed_init {c : Conf} (hc : c.Sane) (f : LogFile) (start : ℕ) (now : ℤ) :
    Framed c f start (init start start now) [] where
  fileOpen := rfl
  bufferLe := Nat.zero_le _
  room := Nat.lt_of_lt_of_le hc.line hc.buffer
  read := f.window_self start
  cuts_eq := by
    show c.cuts [] (f.window start start) = _
    rw [f.window_self]
    rfl
  lines_eq := rfl
  cutPos_eq := rfl
  stored := fun _ => rfl

theorem drained_init (c : Conf) (start : ℕ) (now : ℤ) : Drained c (init start start now) :=
  ⟨uncut_nil, Nat.le_refl _⟩

theorem Framed.start_le {c : Conf} {f : LogFile} {start : ℕ} {h : IOHandler}
    {frames : List (List Byte)} (hF : Framed c f start h frames) : start ≤ h.filePos := by
  have hcut := hF.cutPos_eq
  have hle : h.cutPos ≤ h.filePos := Nat.sub_le _ _
  omega

/-! ## Reading

The round of `fread` and scan, which may be any part of what is there.
-/

/-- There is room, so a read of nothing met the end of the file. -/
theorem seen_of_fread_zero {c : Conf} {f : LogFile} {h : IOHandler} {visible : ℕ} {failed : Bool}
    (hroom : h.buffer.length < c.bufferMaxBytes) (hok : FreadOk c f h visible 0 failed) :
    (afterFread f visible 0 failed h).seen ≤ (afterFread f visible 0 failed h).filePos := by
  have hmax := c.bufferMaxBytes_lt
  have hpos : 0 < IOHandler.room c h := by
    unfold IOHandler.room
    omega
  show (if failed then h.filePos else visible) ≤ h.filePos + 0
  obtain ⟨-, -, -, hzero⟩ := hok
  rcases hzero rfl with h0 | hend | hfail
  · omega
  · split <;> omega
  · rw [if_pos hfail]
    exact Nat.le_refl _

/-- What a scan of a chunk leaves over has room for more: a scan that stopped for
a full batch cut at least one line. -/
theorem BufferScanned.room {c : Conf} (hc : c.Sane) {f : LogFile} {h h' : IOHandler}
    {frs : List (List Byte)} {visible n : ℕ} {failed broke : Bool} {now : ℤ}
    (hs : BufferScanned c now (afterFread f visible n failed h) h' broke frs)
    (hok : FreadOk c f h visible n failed) (hroom : h.buffer.length < c.bufferMaxBytes)
    (hlines : h.lines.length < c.maxLineAtOnce) : h'.buffer.length < c.bufferMaxBytes := by
  have hsplit : frs.flatten ++ h'.buffer = h.buffer ++ (f.content.drop h.filePos).take n := hs.split
  have hlen := congrArg List.length hsplit
  rw [List.length_append, List.length_append, length_chunk hok] at hlen
  have hmax := c.bufferMaxBytes_lt
  have hn := hok.2.1
  unfold IOHandler.room at hn
  cases frs with
  | cons fr frs =>
      have hfr : 0 < fr.length := List.length_pos_iff.mpr (hs.nonempty fr List.mem_cons_self)
      rw [List.flatten_cons, List.length_append] at hlen
      omega
  | nil =>
      have hnotfull : broke = false := by
        by_contra hb
        have hfull := hs.full (by simpa using hb)
        rw [hs.lines_eq] at hfull
        simp only [layout, List.append_nil] at hfull
        exact Nat.not_lt_of_le hfull hlines
      exact (hs.scanned hnotfull).length_lt hc.line hc.buffer

/-- One round of the inner loop: read a chunk, scan the buffer. -/
theorem Framed.read_scan {c : Conf} (hc : c.Sane) {f : LogFile} {start : ℕ} {h : IOHandler}
    {frames : List (List Byte)} {visible n : ℕ} {failed : Bool}
    (hF : Framed c f start h frames) (hlines : h.lines.length < c.maxLineAtOnce)
    (hok : FreadOk c f h visible n failed) (now : ℤ) :
    ∃ frames', Framed c f start (scanBuffer c now (afterFread f visible n failed h)).1 frames' ∧
      ((scanBuffer c now (afterFread f visible n failed h)).2 = false →
        c.Uncut (scanBuffer c now (afterFread f visible n failed h)).1.buffer) := by
  obtain ⟨frs, hs⟩ := scanBuffer_spec c now (afterFread f visible n failed h)
  generalize (scanBuffer c now (afterFread f visible n failed h)).1 = h' at hs ⊢
  generalize (scanBuffer c now (afterFread f visible n failed h)).2 = broke at hs ⊢
  have hchunk := length_chunk hok
  have hle : (afterFread f visible n failed h).buffer.length
      ≤ (afterFread f visible n failed h).filePos := by
    show (h.buffer ++ (f.content.drop h.filePos).take n).length ≤ h.filePos + n
    rw [List.length_append, hchunk]
    exact Nat.add_le_add_right hF.bufferLe n
  have hpos : h'.filePos = h.filePos + n := by rw [hs.same]; rfl
  have hcalls : h'.delivered = h.delivered := by
    unfold delivered
    rw [hs.same]
    rfl
  have hcut : h'.cutPos = h.cutPos + frs.flatten.length := by
    rw [hs.cutPos hle, cutPos_afterFread hok hF.bufferLe]
  have hadded : h'.lines = h.lines ++ layout c h.cutPos frs := by
    rw [hs.lines_eq, cutPos_afterFread hok hF.bufferLe]
    rfl
  -- the chunk is the next piece of what is read since `start`
  have hsplit : frs.flatten ++ h'.buffer = h.buffer ++ (f.content.drop h.filePos).take n := hs.split
  have hwin : f.window start h'.filePos
      = f.window start h.filePos ++ (f.content.drop h.filePos).take n := by
    rw [hpos]
    exact f.window_append hF.start_le n
  refine ⟨frames ++ frs, ⟨?_, ?_, ?_, ?_, ?_, ?_, ?_, ?_⟩, hs.scanned⟩
  · rw [hs.same]
    exact hF.fileOpen
  · have hlen := congrArg List.length hsplit
    have hle := hF.bufferLe
    rw [List.length_append, List.length_append, hchunk] at hlen
    omega
  · exact hs.room hc hok hF.room hlines
  · rw [hwin, hF.read, List.flatten_append, List.append_assoc, List.append_assoc, hsplit]
  · have hrest := hs.cuts_eq
    have hbuf : (afterFread f visible n failed h).buffer
        = h.buffer ++ (f.content.drop h.filePos).take n := rfl
    rw [hbuf, c.cuts_append] at hrest
    obtain ⟨h1, h2⟩ := Prod.mk.inj hrest
    rw [hwin, c.cuts_append, hF.cuts_eq]
    simp only [List.append_assoc]
    rw [h1, h2]
  · rw [hcalls, hadded, ← List.append_assoc, hF.lines_eq, layout_append, hF.cutPos_eq]
  · rw [hcut, hF.cutPos_eq, List.flatten_append, List.length_append]
    omega
  · intro hnil
    rw [hadded, List.append_eq_nil_iff] at hnil
    have hfrs : frs = [] := by
      rw [← List.length_eq_zero_iff, ← length_layout c h.cutPos frs, hnil.2]
      rfl
    have hstored : h'.stored = h.stored := by rw [hs.same]; rfl
    rw [hstored, hcut, hF.stored hnil.1, hfrs]
    rfl

/-! ## Handing over -/

/-- An accepted batch is delivered, and the position stored behind it. -/
theorem Framed.accept {c : Conf} {f : LogFile} {start : ℕ} {h : IOHandler}
    {frames : List (List Byte)} (hF : Framed c f start h frames) {ok : Bool} {vs : List Verdict}
    (hlen : vs.length = h.lines.length) (ha : Accepted (ok, vs)) (now : ℤ) :
    Framed c f start (afterReceive ok vs now h) frames ∧ (afterReceive ok vs now h).lines = [] := by
  obtain ⟨hok, hun⟩ := ha
  obtain rfl : ok = true := hok
  have hnil : pick .unsent h.lines vs = [] := (pick_nil_iff hlen).mpr hun
  refine ⟨⟨hF.fileOpen, hF.bufferLe, hF.room, hF.read, hF.cuts_eq, ?_, hF.cutPos_eq, ?_⟩, hnil⟩
  · show (h.calls ++ [_]).flatMap Call.delivered ++ pick .unsent h.lines vs = _
    rw [hnil, List.append_nil, List.flatMap_append]
    simpa [Call.delivered, delivered] using hF.lines_eq
  · intro _
    show h.getFilePos - h.buffer.length = h.filePos - h.buffer.length
    rw [getFilePos, if_pos hF.fileOpen]

/-! ## Steps, calls, runs

One step keeps `InCall`, so that a call goes from `Settled` to `Settled`; a
restart starts with an empty buffer where the position was stored.
-/

/-- The invariant of a call. -/
def InCall (c : Conf) (f : LogFile) (start : ℕ) (s : Control × IOHandler) : Prop :=
  (∃ frames, Framed c f start s.2 frames) ∧ Waits c s.1 s.2

theorem waits_leaveReads {c : Conf} (hc : c.Sane) {readMore : Bool} {h : IOHandler}
    (hd : readMore = false → Drained c h) :
    Waits c (leaveReads readMore h).1 (leaveReads readMore h).2 := by
  rcases leaveReads_cases readMore h with ⟨hl, -, heq⟩ | ⟨hl, hmore, heq⟩ | ⟨-, heq⟩ <;> rw [heq]
  · show h.lines.length < c.maxLineAtOnce
    rw [hl]
    exact hc.batch
  · exact ⟨hl, hd hmore⟩
  · exact hd

theorem InCall.step {c : Conf} (hc : c.Sane) {f : LogFile} {start : ℕ} {e : Event}
    {s s' : Control × IOHandler} (hI : InCall c f start s) (he : e.Answers Accepted)
    (hs : step c f e s = some s') : InCall c f start s' := by
  obtain ⟨⟨frames, hF⟩, hw⟩ := hI
  cases step_cases hs with
  | resend => exact hw.elim
  | @readNothing visible failed readMore now h hok =>
      obtain ⟨frames', hF', hun⟩ := hF.read_scan hc hw hok now
      refine ⟨⟨frames', by rw [leaveReads_handler]; exact hF'⟩, waits_leaveReads hc fun hrm => ?_⟩
      obtain ⟨-, hbroke⟩ := Bool.or_eq_false_iff.mp hrm
      refine ⟨hun hbroke, ?_⟩
      obtain ⟨frs, hsp⟩ := scanBuffer_spec c now (afterFread f visible 0 failed h)
      rw [hsp.same]
      exact seen_of_fread_zero hF.room hok
  | @readFull visible n failed readMore now h hok =>
      obtain ⟨frames', hF', -⟩ := hF.read_scan hc hw hok now
      exact ⟨⟨frames', by rw [leaveReads_handler]; exact hF'⟩, waits_leaveReads hc (by simp)⟩
  | @readOn visible n failed readMore now h hok _ hroom =>
      obtain ⟨frames', hF', -⟩ := hF.read_scan hc hw hok now
      exact ⟨⟨frames', hF'⟩, hroom⟩
  | @send ok readMore vs now h hlen =>
      obtain ⟨hF', hnil⟩ := hF.accept hlen he now
      have hall : pick .unsent h.lines vs = [] := (pick_nil_iff hlen).mpr he.2
      refine ⟨⟨frames, hF'⟩, ?_⟩
      cases readMore with
      | true =>
          rw [if_pos ⟨rfl, hall⟩]
          show (afterReceive ok vs now h).lines.length < c.maxLineAtOnce
          rw [hnil]
          exact hc.batch
      | false => exact ⟨hnil, hw rfl⟩

/-- The invariant between two calls. -/
def Settled (c : Conf) (f : LogFile) (start : ℕ) (h : IOHandler) : Prop :=
  InCall c f start (.returned, h)

/-- A call starts with reading. -/
theorem Settled.enter_eq {c : Conf} {f : LogFile} {start : ℕ} {h : IOHandler}
    (hS : Settled c f start h) {now : ℤ} (hf : flushes c now h = false) :
    enter c now h = (.read false, handleUncleaned c now h) := by
  obtain ⟨⟨frames, hF⟩, hnil, -⟩ := hS
  rcases enter_cases c now h with ⟨hclosed, -⟩ | ⟨-, -, heq⟩ | ⟨-, hlines, -⟩
  · rw [hF.fileOpen] at hclosed
    cases hclosed
  · exact heq
  · rw [handleUncleaned_of_not_flushes hf] at hlines
    exact absurd hnil hlines

theorem Settled.enter {c : Conf} (hc : c.Sane) {f : LogFile} {start : ℕ} {h : IOHandler}
    (hS : Settled c f start h) {now : ℤ} (hf : flushes c now h = false) :
    InCall c f start (enter c now h) := by
  rw [hS.enter_eq hf, handleUncleaned_of_not_flushes hf]
  obtain ⟨⟨frames, hF⟩, hnil, hd⟩ := hS
  have hbatch : h.lines.length < c.maxLineAtOnce := by
    rw [hnil]
    exact hc.batch
  exact ⟨⟨frames, hF.fileOpen, hF.bufferLe, hF.room, hF.read, hF.cuts_eq, hF.lines_eq,
    hF.cutPos_eq, hF.stored⟩, hbatch⟩

theorem Settled.restart {c : Conf} (hc : c.Sane) {f : LogFile} {start : ℕ} {h : IOHandler}
    (hS : Settled c f start h) (now : ℤ) :
    Settled c f start { init h.stored h.stored now with calls := h.calls } := by
  obtain ⟨⟨frames, hF⟩, hnil, hd⟩ := hS
  have hstored : h.stored = start + frames.flatten.length := by
    rw [hF.stored hnil, hF.cutPos_eq]
  have hwin : f.window start h.stored = frames.flatten := by
    rw [hstored]
    exact f.window_prefix hF.read
  have hframes : (c.cuts [] (f.window start h.filePos)).1 = frames := by
    have hu : c.cuts [] h.buffer = ([], h.buffer) := hd.1
    rw [hF.cuts_eq, hu]
    exact List.append_nil _
  have hcuts : c.cuts [] frames.flatten = (frames, []) := by
    have hself := c.cuts_flatten_frames (f.window start h.filePos)
    rwa [hframes] at hself
  refine ⟨⟨frames, rfl, Nat.zero_le _, Nat.lt_of_lt_of_le hc.line hc.buffer, ?_, ?_, ?_, hstored,
    fun _ => rfl⟩, rfl, drained_init c h.stored now⟩
  · show f.window start h.stored = frames.flatten ++ []
    rw [hwin, List.append_nil]
  · show c.cuts [] (f.window start h.stored) = (frames ++ [], [])
    rw [hwin, hcuts, List.append_nil]
  · have hlines := hF.lines_eq
    rw [hnil] at hlines
    exact hlines

theorem Settled.turn {c : Conf} (hc : c.Sane) {f : LogFile} {start : ℕ} {k : Turn}
    {h h' : IOHandler} (hS : Settled c f start h) (hq : Quiet c h k)
    (hr : turn c f k h = some h') : Settled c f start h' := by
  cases k with
  | notify now es =>
      obtain ⟨hf, hacc⟩ := hq
      exact run_inv_along (I := InCall c f start) (C := fun _ e => e.Answers Accepted)
        (fun _ _ _ hI he hs => hI.step hc he hs) es _ _ (hS.enter hc hf)
        (along_of_forall (forall_answers hacc)) (onNotify_eq_some.mp hr)
  | restart now =>
      obtain rfl := Option.some.inj hr
      exact hS.restart hc now

/-! ## What has been read

Where the file only grows, the position never passes what is visible, and a
call begins with an `fread`; so `seen` is what the last `fread` of the call
found, and `Drained` says that the position is there.
-/

/-- Of the `n` bytes visible so far no more are read; `seen` is that number, but
for what an `fread` that comes first will find. -/
structure Sees (n : ℕ) (s : Control × IOHandler) : Prop where
  filePos_le : s.2.filePos ≤ n
  seen : s.2.seen = n ∨ ∃ readMore, s.1 = .read readMore

/-- What an `fread` finds bounds the position behind it. -/
theorem scanBuffer_fread {c : Conf} {f : LogFile} {h : IOHandler} {n visible k : ℕ}
    (hle : h.filePos ≤ n) (hvisible : n ≤ visible) (hok : FreadOk c f h visible k false) (now : ℤ) :
    (scanBuffer c now (afterFread f visible k false h)).1.filePos ≤ visible ∧
      (scanBuffer c now (afterFread f visible k false h)).1.seen = visible := by
  obtain ⟨frs, hs⟩ := scanBuffer_spec c now (afterFread f visible k false h)
  rw [hs.same]
  refine ⟨?_, rfl⟩
  show h.filePos + k ≤ visible
  obtain ⟨-, -, hpos, -⟩ := hok
  rcases Nat.eq_zero_or_pos k with rfl | hk
  · omega
  · exact hpos hk

theorem Sees.step {c : Conf} {f : LogFile} {n : ℕ} {e : Event} {s s' : Control × IOHandler}
    (h : Sees n s) (hgrow : Grows n [e]) (hs : step c f e s = some s') :
    Sees (e.shown n) s' := by
  cases step_cases hs with
  | resend => exact ⟨h.filePos_le, Or.inl (h.seen.resolve_right (by simp))⟩
  | readNothing hok =>
      obtain ⟨⟨rfl, hvisible⟩, -⟩ := hgrow
      obtain ⟨hle, hseen⟩ := scanBuffer_fread h.filePos_le hvisible hok _
      refine ⟨?_, Or.inl ?_⟩ <;> rw [leaveReads_handler]
      · exact hle
      · exact hseen
  | readFull hok =>
      obtain ⟨⟨rfl, hvisible⟩, -⟩ := hgrow
      obtain ⟨hle, hseen⟩ := scanBuffer_fread h.filePos_le hvisible hok _
      refine ⟨?_, Or.inl ?_⟩ <;> rw [leaveReads_handler]
      · exact hle
      · exact hseen
  | readOn hok =>
      obtain ⟨⟨rfl, hvisible⟩, -⟩ := hgrow
      obtain ⟨hle, hseen⟩ := scanBuffer_fread h.filePos_le hvisible hok _
      exact ⟨hle, Or.inl hseen⟩
  | send => exact ⟨h.filePos_le, Or.inl (h.seen.resolve_right (by simp))⟩

theorem grows_cons {n : ℕ} {e : Event} {es : List Event} :
    Grows n (e :: es) ↔ Grows n [e] ∧ Grows (e.shown n) es := by
  cases e with
  | fread visible k failed now => exact and_congr_left fun _ => (and_iff_left trivial).symm
  | receive ok vs now => exact (and_iff_right trivial).symm

theorem grows_append {es : List Event} :
    ∀ {n : ℕ} {es' : List Event},
      Grows n (es ++ es') ↔ Grows n es ∧ Grows (shown n es) es' := by
  induction es with
  | nil => exact (and_iff_right trivial).symm
  | cons e es ih =>
      intro n es'
      rw [List.cons_append, grows_cons, ih, ← and_assoc, ← grows_cons]
      rfl

theorem Sees.run {c : Conf} {f : LogFile} {es : List Event} :
    ∀ {n : ℕ} {s s' : Control × IOHandler}, Sees n s → Grows n es →
      run (IOHandler.step c f) es s = some s' → Sees (shown n es) s' := by
  induction es with
  | nil =>
      intro n s s' h _ hr
      obtain rfl := Option.some.inj hr
      exact h
  | cons e es ih =>
      intro n s s' h hgrow hr
      obtain ⟨s₁, h1, h2⟩ := run_cons_eq_some.mp hr
      obtain ⟨hgrow1, hgrow2⟩ := grows_cons.mp hgrow
      exact ih (h.step hgrow1 h1) hgrow2 h2

/-- A call reads up to what its last `fread` found. -/
theorem Settled.filePos_eq {c : Conf} (hc : c.Sane) {f : LogFile} {start n : ℕ} {now : ℤ}
    {es : List Event} {h h' : IOHandler} (hS : Settled c f start h)
    (hq : Quiet c h (.notify now es)) (hle : h.filePos ≤ n) (hgrow : Grows n es)
    (hr : onNotify c f now es h = some h') : h'.filePos = shown n es := by
  obtain ⟨-, -, -, hdrained⟩ := hS.turn hc (k := .notify now es) hq hr
  have henter : Sees n (IOHandler.enter c now h) := by
    rw [hS.enter_eq hq.1, handleUncleaned_of_not_flushes hq.1]
    exact ⟨hle, Or.inr ⟨false, rfl⟩⟩
  have hsees := henter.run hgrow (onNotify_eq_some.mp hr)
  have hseen : h'.seen = shown n es := hsees.seen.resolve_right (by simp)
  exact Nat.le_antisymm hsees.filePos_le (hseen ▸ hdrained)

/-- The turns `ks` have read no more than was visible, and if the last of them is
a call, all of it. -/
structure HasRead (start : ℕ) (ks : List Turn) (h : IOHandler) : Prop where
  filePos_le : h.filePos ≤ shown start (ks.flatMap Turn.events)
  filePos_eq : ∀ now es, ks.getLast? = some (.notify now es) →
    h.filePos = shown start (ks.flatMap Turn.events)

theorem HasRead.turn {c : Conf} (hc : c.Sane) {f : LogFile} {start : ℕ} {ks : List Turn} {k : Turn}
    {h h' : IOHandler} (hR : HasRead start ks h) (hS : Settled c f start h) (hq : Quiet c h k)
    (hgrow : Grows (shown start (ks.flatMap Turn.events)) k.events)
    (hr : IOHandler.turn c f k h = some h') : HasRead start (ks ++ [k]) h' := by
  have hevents : shown start ((ks ++ [k]).flatMap Turn.events)
      = shown (shown start (ks.flatMap Turn.events)) k.events := by
    simp [shown]
  cases k with
  | notify now es =>
      have heq := hS.filePos_eq hc hq hR.filePos_le hgrow hr
      exact ⟨Nat.le_of_eq (heq.trans hevents.symm), fun _ _ _ => heq.trans hevents.symm⟩
  | restart now =>
      obtain rfl := Option.some.inj hr
      refine ⟨?_, fun now' es hlast => by simp at hlast⟩
      obtain ⟨⟨frames, hF⟩, hnil, -⟩ := hS
      have hstored : h.stored ≤ h.filePos := (hF.stored hnil).trans_le (Nat.sub_le _ _)
      exact (hstored.trans hR.filePos_le).trans_eq hevents.symm

theorem hasRead_run {c : Conf} (hc : c.Sane) {f : LogFile} {start : ℕ} {t : ℤ} {ks : List Turn}
    {h : IOHandler} (hr : run (turn c f) ks (init start start t) = some h)
    (hq : Along (turn c f) (Quiet c) ks (init start start t))
    (hgrow : Grows start (ks.flatMap Turn.events)) : HasRead start ks h := by
  have hinit : Settled c f start (init start start t) :=
    ⟨⟨[], framed_init hc f start t⟩, rfl, drained_init c start t⟩
  have hboth := run_inv_past (I := fun ks h => Settled c f start h ∧ HasRead start ks h)
    ⟨hinit, Nat.le_refl _, fun _ _ hnil => by cases hnil⟩
    (fun bs k cs u u' hks hu hk hI => by
      obtain ⟨hS, hR⟩ := hI
      rw [hks] at hq hgrow
      have hquiet := cond_of_along hu hq
      have hafter : Grows (shown start (bs.flatMap Turn.events)) k.events := by
        rw [List.flatMap_append, grows_append, List.flatMap_cons, grows_append] at hgrow
        exact hgrow.2.1
      exact ⟨hS.turn hc hquiet hk, hR.turn hc hS hquiet hafter hk⟩) hr
  exact hboth.2

/-- **Framing does not depend on chunks, batches and restarts.**  After any
calls and restarts in which every batch was accepted and nothing was flushed,
the texts delivered are the ones the one-pass splitter gives for the bytes read
since `start`; nothing is held back; the stored position is `start` plus the
bytes cut; the buffer is what the splitter leaves over; and all bytes the last
`fread` saw have been read.  Where the file only grows, the bytes read after a
call are all that was visible to it. -/
theorem delivered_eq_reference {c : Conf} {f : LogFile} {start : ℕ} {t : ℤ} {ks : List Turn}
    {h : IOHandler} (hc : c.Sane) (hr : run (turn c f) ks (init start start t) = some h)
    (hq : Along (turn c f) (Quiet c) ks (init start start t)) :
    h.delivered.map Line.text = reference c (f.window start h.filePos) ∧
      h.lines = [] ∧
      h.stored = start + (c.cuts [] (f.window start h.filePos)).1.flatten.length ∧
      h.buffer = (c.cuts [] (f.window start h.filePos)).2 ∧
      h.filePos = h.stored + h.buffer.length ∧
      h.seen ≤ h.filePos ∧
      ∀ now es, ks.getLast? = some (.notify now es) → Grows start (ks.flatMap Turn.events) →
        h.filePos = shown start (ks.flatMap Turn.events) := by
  have hread := fun hgrow => (hasRead_run hc hr hq hgrow).filePos_eq
  obtain ⟨⟨frames, hF⟩, hnil, hu, hseen⟩ := run_inv_along (I := Settled c f start)
    (fun _ _ _ hS hk hs => hS.turn hc hk hs) ks _ _
    ⟨⟨[], framed_init hc f start t⟩, rfl, drained_init c start t⟩ hq hr
  have hcuts : c.cuts [] (f.window start h.filePos) = (frames, h.buffer) := by
    have hu : c.cuts [] h.buffer = ([], h.buffer) := hu
    rw [hF.cuts_eq, hu, List.append_nil]
  have hlines := hF.lines_eq
  rw [hnil, List.append_nil] at hlines
  have hstored := hF.stored hnil
  refine ⟨?_, hnil, ?_, ?_, ?_, hseen, fun now es hlast hgrow => hread hgrow now es hlast⟩
  · rw [reference, hcuts, hlines, layout_text]
  · rw [hcuts, hstored, hF.cutPos_eq]
  · rw [hcuts]
  · rw [hstored]
    have hle : h.buffer.length ≤ h.filePos := hF.bufferLe
    show h.filePos = h.filePos - h.buffer.length + h.buffer.length
    omega

/-- Two calls and a restart between them; the file grows in between. -/
def grownAndRestarted : List Turn :=
  [.notify 5 [.fread 3 3 false 5, .fread 3 0 false 5, .receive true [.taken] 6],
    .restart 7,
    .notify 8 [.fread 7 2 false 8, .fread 7 3 false 8, .receive true [.taken, .dropped] 9,
      .fread 7 0 false 9]]

theorem delivered_eq_reference_restarted :
    ∃ h, run (turn smallConf smallFile) grownAndRestarted (init 0 0 0) = some h ∧
      h.delivered.map Line.text = [[97], [98], [99]] ∧ h.filePos = 7 ∧ h.stored = 6 ∧
      h.buffer = [100] := by
  obtain ⟨h, hr⟩ := Option.isSome_iff_exists.mp
    (show (run (turn smallConf smallFile) grownAndRestarted (init 0 0 0)).isSome by decide)
  obtain ⟨hlines, -, hstored, hbuffer, -, -, hread⟩ :=
    delivered_eq_reference ⟨by decide, by decide, by decide⟩ hr (by decide)
  have hpos : h.filePos = 7 := hread _ _ rfl (by decide)
  rw [hpos] at hlines hstored hbuffer
  exact ⟨h, hr, hlines.trans (by decide), hpos, hstored.trans (by decide),
    hbuffer.trans (by decide)⟩

end IOHandler

end Logkafka
