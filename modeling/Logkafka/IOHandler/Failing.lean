/-
# `Logkafka.IOHandler.Failing` — a receive callback that returns `false`

A callback that returns `false` leaves the batch in `m_lines` and the position
where it is.  After a call `onNotify` looks at the lines that were left unsent,
and not at the answer, so it goes on: it reads until there is nothing to read or
the batch is full.  A full batch with bytes behind it sets `read_more`, which
sends the batch, and then everything is as it was:

    read    a byte is in the buffer and the batch is full, so `read_more`
    send    `false`, and no unsent lines
    read    ..

Nothing is lost on the way (`held_step`).  Whether the way ends is a matter of
the bytes at hand: the call returns if and only if they do not fill the batch
with bytes left over (`harmless_iff`).  What is at hand does not change while the
callback fails (`overflows_read`), since a line that is cut takes its place in
the batch.
-/
import Logkafka.IOHandler.Limits
import Logkafka.IOHandler.Reference
import Logkafka.IOHandler.Returns

namespace Logkafka.IOHandler

open Framing

variable {c : Conf} {f : LogFile} {size : ℕ} {h h' : IOHandler} {s s' : Control × IOHandler}
  {e : Event}

/-! ## What is to hold -/

/-- From `h` to `h'` the position was not moved, and what was cut is still there. -/
structure Held (h h' : IOHandler) : Prop where
  stored : h'.stored = h.stored
  lines : ∃ more, h'.lines = h.lines ++ more ∧ h'.cut = h.cut ++ more

/-- The next call begins with the lines of the batch. -/
def OfferedAgain (c : Conf) (h : IOHandler) : Prop :=
  ∀ now, h.fileOpen = true → h.lines ≠ [] →
    (enter c now h).1 = .resend ∧ h.lines <+: (enter c now h).2.lines

/-- While the callback returns `false` and the file has `size` bytes: the call
returns, whatever it is answered, and nothing was moved or lost. -/
def Harmless (c : Conf) (f : LogFile) (size : ℕ) (s : Control × IOHandler) : Prop :=
  Ends (step c f) (Event.Steady size false)
    (fun s' => s'.1 = .returned ∧ Held s.2 s'.2 ∧ Accounted s'.2 ∧ OfferedAgain c s'.2) s

/-- `bytes` are cut into `k` lines at least, with bytes behind the `k`-th. -/
def Over (c : Conf) (k : ℕ) (bytes : List Byte) : Prop :=
  k ≤ (c.cuts [] bytes).1.length ∧ ((c.cuts [] bytes).1.take k).flatten.length < bytes.length

instance (c : Conf) (k : ℕ) (bytes : List Byte) : Decidable (Over c k bytes) := by
  unfold Over; infer_instance

/-- The bytes of the buffer and, if there is room for one of them, of the file. -/
def atHand (c : Conf) (f : LogFile) (size : ℕ) (h : IOHandler) : List Byte :=
  h.buffer ++ if h.buffer.length < c.bufferMaxBytes then f.window h.filePos size else []

/-- The bytes at hand fill the batch, and more. -/
def Overflows (c : Conf) (f : LogFile) (size : ℕ) (h : IOHandler) : Prop :=
  Over c (c.maxLineAtOnce - h.lines.length) (atHand c f size h)

instance (c : Conf) (f : LogFile) (size : ℕ) (h : IOHandler) : Decidable (Overflows c f size h) := by
  unfold Overflows; infer_instance

/-- There is something left to do, and too many bytes to do it with. -/
def Spills (c : Conf) (f : LogFile) (size : ℕ) (s : Control × IOHandler) : Prop :=
  s.1 ≠ .returned ∧ s.1 ≠ .send false ∧ Overflows c f size s.2

/-! ## Every state of a call -/

/-- The batch and the buffer are within their sizes, and `fread` is called with
`read_more` unset. -/
structure Poised (c : Conf) (s : Control × IOHandler) : Prop where
  batch : s.2.lines.length ≤ c.maxLineAtOnce
  buffer : s.2.buffer.length ≤ c.bufferMaxBytes
  fresh : ∀ readMore, s.1 = .read readMore → readMore = false

theorem fresh_leaveReads (readMore : Bool) :
    ∀ rm, (leaveReads readMore h).1 = .read rm → rm = false := by
  intro rm hrm
  rcases leaveReads_cases readMore h with ⟨-, -, heq⟩ | ⟨-, -, heq⟩ | ⟨-, heq⟩ <;> rw [heq] at hrm
  · exact (Control.read.inj hrm).symm
  · cases hrm
  · cases hrm

/-- What was read fits into the buffer. -/
theorem length_afterFread_le {n : ℕ} {failed : Bool} {visible : ℕ}
    (hok : FreadOk c f h visible n failed) (hbuffer : h.buffer.length ≤ c.bufferMaxBytes) :
    (afterFread f visible n failed h).buffer.length ≤ c.bufferMaxBytes := by
  have hmax := c.bufferMaxBytes_lt
  have hn := hok.2.1
  have hlen := length_afterFread hok
  unfold room at hn
  omega

/-- And a scan makes it no longer. -/
theorem length_read_le {n : ℕ} {failed : Bool} {visible : ℕ} (hok : FreadOk c f h visible n failed)
    (hbuffer : h.buffer.length ≤ c.bufferMaxBytes) (now : ℤ) :
    (scanBuffer c now (afterFread f visible n failed h)).1.buffer.length ≤ c.bufferMaxBytes := by
  obtain ⟨frames, hsp⟩ := scanBuffer_spec c now (afterFread f visible n failed h)
  have hle := length_afterFread_le hok hbuffer
  rw [← hsp.split, List.length_append] at hle
  omega

theorem Poised.step (hp : Poised c s) (hs : Step c f e s s') : Poised c s' := by
  cases hs with
  | @resend ok vs now h hlen =>
      refine ⟨Nat.le_trans (length_afterReceive_le ok vs now) hp.batch, hp.buffer, fun rm hrm => ?_⟩
      simp only at hrm
      split at hrm
      · exact (Control.read.inj hrm).symm
      · cases hrm
  | @send ok readMore vs now h hlen =>
      refine ⟨Nat.le_trans (length_afterReceive_le ok vs now) hp.batch, hp.buffer, fun rm hrm => ?_⟩
      simp only at hrm
      split at hrm
      · exact (Control.read.inj hrm).symm
      · cases hrm
  | @readNothing visible failed _ now h hok =>
      obtain ⟨frames, hsp⟩ := scanBuffer_spec c now (afterFread f visible 0 failed h)
      refine ⟨?_, ?_, fresh_leaveReads _⟩
      · rw [leaveReads_handler]
        exact hsp.bound hp.batch
      · rw [leaveReads_handler]
        exact length_read_le hok hp.buffer now
  | @readFull visible n failed _ now h hok =>
      obtain ⟨frames, hsp⟩ := scanBuffer_spec c now (afterFread f visible n failed h)
      refine ⟨?_, ?_, fresh_leaveReads _⟩
      · rw [leaveReads_handler]
        exact hsp.bound hp.batch
      · rw [leaveReads_handler]
        exact length_read_le hok hp.buffer now
  | @readOn visible n failed _ now h hok =>
      obtain ⟨frames, hsp⟩ := scanBuffer_spec c now (afterFread f visible n failed h)
      exact ⟨hsp.bound hp.batch, length_read_le hok hp.buffer now,
        fun rm hrm => hp.fresh rm hrm⟩

theorem Poised.enter (hp : Poised c s) (now : ℤ) : Poised c (enter c now s.2) := by
  obtain ⟨control, h⟩ := s
  have hhead : (handleUncleaned c now h).lines.length ≤ c.maxLineAtOnce ∧
      (handleUncleaned c now h).buffer.length ≤ c.bufferMaxBytes := by
    rcases handleUncleaned_cases c now h with ⟨-, heq⟩ | ⟨-, hroom, -, heq⟩ | ⟨-, heq⟩ <;> rw [heq]
    · exact ⟨hp.batch, hp.buffer⟩
    · refine ⟨?_, Nat.zero_le _⟩
      rw [List.length_append]
      exact hroom
    · exact ⟨hp.batch, hp.buffer⟩
  show Poised c (IOHandler.enter c now h)
  rcases enter_cases c now h with ⟨-, heq⟩ | ⟨-, -, heq⟩ | ⟨-, -, heq⟩ <;> rw [heq]
  · exact ⟨hp.batch, hp.buffer, fun _ hrm => by cases hrm⟩
  · exact ⟨hhead.1, hhead.2, fun _ hrm => (Control.read.inj hrm).symm⟩
  · exact ⟨hhead.1, hhead.2, fun _ hrm => by cases hrm⟩

theorem poised_tick (a : Tick) (u u' : Session) (hp : Poised c (u.control, u.handler))
    (h : tick c f a u = some u') : Poised c (u'.control, u'.handler) := by
  cases a with
  | notify now =>
      obtain ⟨-, -, rfl⟩ := tick_notify h
      exact hp.enter now
  | answer e =>
      obtain ⟨-, hstep, -⟩ := tick_answer h
      exact hp.step hstep

theorem poised_init (c : Conf) (start stored : ℕ) (now : ℤ) :
    Poised c (.returned, init start stored now) where
  batch := Nat.zero_le _
  buffer := Nat.zero_le _
  fresh _ h := by cases h

/-- After any calls of a handler, and in the middle of one. -/
theorem poised_run {start stored : ℕ} {now : ℤ} {as : List Tick} {u : Session}
    (hr : run (tick c f) as (Session.init start stored now) = some u) :
    Poised c (u.control, u.handler) :=
  run_inv (I := fun s : Session => Poised c (s.control, s.handler))
    (fun a s s' => poised_tick a s s') as _ u (poised_init c start stored now) hr

theorem tallied_tick (a : Tick) (u u' : Session) (hT : Tallied u.handler)
    (h : tick c f a u = some u') : Tallied u'.handler := by
  cases a with
  | notify now =>
      obtain ⟨-, -, rfl⟩ := tick_notify h
      exact hT.enter c now
  | answer e =>
      have hT' : Tallied (u'.control, u'.handler).2 := Tallied.step hT (tick_answer_step h)
      exact hT'

theorem tallied_ticks {start stored : ℕ} {now : ℤ} {as : List Tick} {u : Session}
    (hr : run (tick c f) as (Session.init start stored now) = some u) : Tallied u.handler :=
  run_inv (fun a s s' => tallied_tick a s s') as _ u (tallied_init start stored now) hr

/-! ## Nothing is moved or lost

A callback that returns `false` moves nothing, and the next call begins with the
same lines.
-/

theorem Held.trans {h₁ h₂ h₃ : IOHandler} (h₁₂ : Held h₁ h₂) (h₂₃ : Held h₂ h₃) : Held h₁ h₃ := by
  obtain ⟨more, hlines, hcut⟩ := h₁₂.lines
  obtain ⟨more', hlines', hcut'⟩ := h₂₃.lines
  refine ⟨h₂₃.stored.trans h₁₂.stored, more ++ more', ?_, ?_⟩
  · rw [hlines', hlines, List.append_assoc]
  · rw [hcut', hcut, List.append_assoc]

theorem Held.refl (h : IOHandler) : Held h h :=
  ⟨rfl, [], (List.append_nil _).symm, (List.append_nil _).symm⟩

theorem held_read (visible n : ℕ) (failed : Bool) (now : ℤ) (h : IOHandler) :
    Held h (scanBuffer c now (afterFread f visible n failed h)).1 := by
  obtain ⟨frames, hsp⟩ := scanBuffer_spec c now (afterFread f visible n failed h)
  exact ⟨by rw [hsp.same]; rfl, _, hsp.lines_eq, hsp.cut_eq⟩

/-- A step at which the callback fails. -/
theorem held_step (he : Event.Steady size false e) (hs : Step c f e s s') : Held s.2 s'.2 := by
  cases hs with
  | resend | send =>
      obtain rfl := he
      exact ⟨rfl, [], (List.append_nil _).symm, (List.append_nil _).symm⟩
  | readNothing | readFull =>
      rw [leaveReads_handler]
      exact held_read _ _ _ _ _
  | readOn => exact held_read _ _ _ _ _

theorem offeredAgain (c : Conf) (h : IOHandler) : OfferedAgain c h := by
  intro now hopen hlines
  have hle := lines_handleUncleaned c now h
  have hne : (handleUncleaned c now h).lines ≠ [] := by
    intro hnil
    rw [hnil] at hle
    exact hlines (List.prefix_nil.mp hle)
  have henter : enter c now h = (.resend, handleUncleaned c now h) := by
    rcases enter_cases c now h with ⟨hclosed, -⟩ | ⟨-, hnil, -⟩ | ⟨-, -, heq⟩
    · rw [hopen] at hclosed
      cases hclosed
    · exact absurd hnil hne
    · exact heq
  rw [henter]
  exact ⟨rfl, hle⟩

/-! ## When the scan stops

The scan leaves bytes in front of which it stopped only if the batch is full.
-/

/-- The scan stops where the batch is full, in front of a byte. -/
theorem scan_broke (base : ℕ) : ∀ (rest : List Byte) (lines : List Line) (curBufPos : ℕ)
    (cur : List Byte), (cur ≠ [] → lines.length < c.maxLineAtOnce) →
      ((scan c base lines curBufPos cur rest).broke = true ↔
        c.maxLineAtOnce ≤ (scan c base lines curBufPos cur rest).lines.length ∧
          (scan c base lines curBufPos cur rest).curBufPos <
            curBufPos + (cur.length + rest.length)) := by
  intro rest
  induction rest with
  | nil =>
      intro lines curBufPos cur hcur
      refine iff_of_false (by simp [scan]) ?_
      rintro ⟨hfull, hpos⟩
      have hpos : curBufPos < curBufPos + (cur.length + 0) := hpos
      have hroom := hcur (List.ne_nil_of_length_pos (by omega))
      exact Nat.not_le.mpr hroom hfull
  | cons b rest ih =>
      intro lines curBufPos cur hcur
      by_cases hfull : c.maxLineAtOnce ≤ lines.length
      · rw [scan, if_pos hfull]
        refine iff_of_true rfl ⟨hfull, ?_⟩
        show curBufPos < _
        rw [List.length_cons]
        omega
      · have hsum : curBufPos + (cur.length + 1) + (([] : List Byte).length + rest.length)
            = curBufPos + (cur.length + (b :: rest).length) := by
          rw [List.length_cons, List.length_nil]
          omega
        rw [scan, if_neg hfull]
        split
        · rw [← hsum]
          exact ih _ _ [] fun hnil => absurd rfl hnil
        · split
          · rw [← hsum]
            exact ih _ _ [] fun hnil => absurd rfl hnil
          · have hlen : (cur ++ [b]).length + rest.length = cur.length + (b :: rest).length := by
              rw [List.length_append, List.length_singleton, List.length_cons]
              omega
            rw [← hlen]
            exact ih _ _ _ fun _ => Nat.lt_of_not_le hfull

theorem scanBuffer_broke (now : ℤ) : (scanBuffer c now h).2 = true ↔
    c.maxLineAtOnce ≤ (scanBuffer c now h).1.lines.length ∧ (scanBuffer c now h).1.buffer ≠ [] := by
  unfold scanBuffer
  split
  · next hnil => simp [hnil]
  · have hiff := @scan_broke c h.cutPos h.buffer h.lines 0 [] fun hnil => absurd rfl hnil
    rw [List.length_nil, Nat.zero_add, Nat.zero_add] at hiff
    refine hiff.trans (and_congr_right fun _ => ?_)
    show _ ↔ h.buffer.drop (scan c h.cutPos h.lines 0 [] h.buffer).curBufPos ≠ []
    rw [Ne, List.drop_eq_nil_iff, Nat.not_le]

/-! ## The bytes at hand

Whether they fill the batch with bytes left over does not depend on how many of
them are in the buffer by now.
-/

theorem over_zero (bytes : List Byte) : Over c 0 bytes ↔ bytes ≠ [] := by
  unfold Over
  rw [List.take_zero, List.flatten_nil, List.length_nil, List.length_pos_iff]
  exact and_iff_right (Nat.zero_le _)

/-- Where nothing is cut. -/
theorem over_uncut {k : ℕ} {bytes : List Byte} (hu : c.Uncut bytes) :
    Over c k bytes ↔ k = 0 ∧ bytes ≠ [] := by
  unfold Over
  rw [show c.cuts [] bytes = ([], bytes) from hu, List.take_nil, List.flatten_nil]
  exact and_congr Nat.le_zero List.length_pos_iff

/-- Lines that are cut take their place in the batch. -/
theorem over_frames {frames : List (List Byte)} {bytes rest : List Byte} (k : ℕ)
    (hsplit : frames.flatten ++ rest = bytes)
    (hcuts : (c.cuts [] bytes).1 = frames ++ (c.cuts [] rest).1) :
    Over c (frames.length + k) bytes ↔ Over c k rest := by
  unfold Over
  rw [hcuts, ← hsplit, List.take_length_add_append, List.flatten_append]
  simp only [List.length_append]
  exact and_congr (Nat.add_le_add_iff_left) (Nat.add_lt_add_iff_left)

/-- A scan, with bytes to come after it. -/
theorem over_scanned {now : ℤ} {broke : Bool} {frames : List (List Byte)}
    (hsp : BufferScanned c now h h' broke frames) (hbatch : h.lines.length ≤ c.maxLineAtOnce)
    (more : List Byte) : Over c (c.maxLineAtOnce - h.lines.length) (h.buffer ++ more) ↔
      Over c (c.maxLineAtOnce - h'.lines.length) (h'.buffer ++ more) := by
  have hlen : h'.lines.length = h.lines.length + frames.length := by
    rw [hsp.lines_eq, List.length_append, length_layout]
  have hbound := hsp.bound hbatch
  have hk : c.maxLineAtOnce - h.lines.length
      = frames.length + (c.maxLineAtOnce - h'.lines.length) := by
    omega
  rw [hk]
  refine over_frames _ ?_ ?_
  · rw [← List.append_assoc, hsp.split]
  · rw [c.cuts_append, c.cuts_append, hsp.cuts_eq, List.append_assoc]

/-- A full batch, with bytes in the buffer. -/
theorem overflows_of_full (hfull : c.maxLineAtOnce ≤ h.lines.length) (hbuffer : h.buffer ≠ []) :
    Overflows c f size h := by
  unfold Overflows
  rw [Nat.sub_eq_zero_of_le hfull, over_zero]
  intro hnil
  exact hbuffer (List.append_eq_nil_iff.mp hnil).1

/-- The bytes of a file are the same, in the buffer or out of it. -/
theorem window_fread {n : ℕ} {failed : Bool} (hok : FreadOk c f h size n failed) :
    (f.content.drop h.filePos).take n ++ f.window (h.filePos + n) size = f.window h.filePos size := by
  rcases Nat.eq_zero_or_pos n with rfl | hn
  · rw [List.take_zero, Nat.add_zero, List.nil_append]
  · have hle := hok.2.2.1 hn
    have hsum : size - h.filePos = n + (size - (h.filePos + n)) := by omega
    unfold LogFile.window
    rw [hsum, List.take_add, List.drop_drop]

/-- Where there was room in the buffer, a round of reading changes nothing. -/
theorem overflows_read {n : ℕ} {failed : Bool} (hline : c.lineMaxBytes ≤ c.bufferMaxBytes)
    (hok : FreadOk c f h size n failed) (hbatch : h.lines.length ≤ c.maxLineAtOnce)
    (hroom : h.buffer.length < c.bufferMaxBytes) (now : ℤ) :
    Overflows c f size h ↔
      Overflows c f size (scanBuffer c now (afterFread f size n failed h)).1 := by
  obtain ⟨frames, hsp⟩ := scanBuffer_spec c now (afterFread f size n failed h)
  have hscan := over_scanned hsp hbatch (f.window (h.filePos + n) size)
  have hpos : (scanBuffer c now (afterFread f size n failed h)).1.filePos = h.filePos + n := by
    rw [hsp.same]
    rfl
  have hhand : atHand c f size h
      = (afterFread f size n failed h).buffer ++ f.window (h.filePos + n) size := by
    unfold atHand
    rw [if_pos hroom, ← window_fread hok, ← List.append_assoc]
    rfl
  unfold Overflows
  rw [hhand]
  by_cases hleft : (scanBuffer c now (afterFread f size n failed h)).1.buffer.length
      < c.bufferMaxBytes
  · refine hscan.trans ?_
    unfold atHand
    rw [if_pos hleft, hpos]
  · -- the buffer is full of what the scan left, so the batch is full
    have hne : (scanBuffer c now (afterFread f size n failed h)).1.buffer ≠ [] := by
      intro hnil
      rw [hnil] at hleft
      exact hleft (Nat.zero_lt_of_lt hroom)
    have hbroke : (scanBuffer c now (afterFread f size n failed h)).2 = true := by
      by_contra hnot
      have hu := hsp.scanned (by simpa using hnot)
      have hlt := ((uncut_spec hu).2).resolve_left hne
      omega
    have hfull := hsp.full hbroke
    refine iff_of_true (hscan.mpr ?_) (overflows_of_full hfull hne)
    rw [Nat.sub_eq_zero_of_le hfull, over_zero]
    intro hnil
    exact hne (List.append_eq_nil_iff.mp hnil).1

/-- Where there was none, or nothing to read, the scan stops if the bytes fill the
batch and more. -/
theorem overflows_iff_broke {failed : Bool} (hbatch : h.lines.length ≤ c.maxLineAtOnce)
    (hhand : atHand c f size h = h.buffer) (now : ℤ) :
    Overflows c f size h ↔ (scanBuffer c now (afterFread f size 0 failed h)).2 = true := by
  obtain ⟨frames, hsp⟩ := scanBuffer_spec c now (afterFread f size 0 failed h)
  have hscan := over_scanned hsp hbatch []
  rw [List.append_nil, List.append_nil, buffer_afterFread_zero] at hscan
  unfold Overflows
  rw [hhand]
  refine hscan.trans ?_
  rw [scanBuffer_broke]
  cases hbr : (scanBuffer c now (afterFread f size 0 failed h)).2 with
  | true =>
      have hfull := scanBuffer_broke now |>.mp hbr
      rw [Nat.sub_eq_zero_of_le hfull.1, over_zero]
      exact iff_of_true hfull.2 hfull
  | false =>
      rw [over_uncut (hsp.scanned hbr), Nat.sub_eq_zero_iff_le]

/-- Where the buffer is full, `fread` brings nothing. -/
theorem room_pos {n : ℕ} {failed : Bool} (hok : FreadOk c f h size n failed)
    (hbuffer : h.buffer.length ≤ c.bufferMaxBytes) (hn : n ≠ 0) :
    h.buffer.length < c.bufferMaxBytes := by
  have hmax := c.bufferMaxBytes_lt
  have hle := hok.2.1
  unfold room at hle
  omega

/-- A scan that stopped has met too many bytes. -/
theorem overflows_of_broke {n : ℕ} {failed : Bool} (hline : c.lineMaxBytes ≤ c.bufferMaxBytes)
    (hok : FreadOk c f h size n failed) (hp : Poised c (.read false, h)) {now : ℤ}
    (hbroke : (scanBuffer c now (afterFread f size n failed h)).2 = true) :
    Overflows c f size h := by
  by_cases hroom : h.buffer.length < c.bufferMaxBytes
  · obtain ⟨hfull, hne⟩ := (scanBuffer_broke now).mp hbroke
    exact (overflows_read hline hok hp.batch hroom now).mpr (overflows_of_full hfull hne)
  · obtain rfl : n = 0 := by
      by_contra hn
      exact hroom (room_pos hok hp.buffer hn)
    have hhand : atHand c f size h = h.buffer := by
      unfold atHand
      rw [if_neg hroom, List.append_nil]
    exact (overflows_iff_broke hp.batch hhand now).mpr hbroke

/-! ## Without too many bytes

Every step reads a byte or comes nearer to the end of the call.
-/

/-- The bytes that are not read, and the calls to come before the next is. -/
def failingMeasure (size : ℕ) (s : Control × IOHandler) : ℕ :=
  4 * unread size s.2 +
    match s.1 with
    | .resend => 3
    | .send true => 3
    | .read _ => 2
    | .send false => 1
    | .returned => 0

theorem unread_scanned {n : ℕ} {failed : Bool} (hok : FreadOk c f h size n failed) (now : ℤ) :
    unread size (scanBuffer c now (afterFread f size n failed h)).1 + n = unread size h := by
  obtain ⟨-, hunread⟩ := afterFread_owed hok
  obtain ⟨-, hpos⟩ := @owed_scanBuffer c size (afterFread f size n failed h) now
  rw [← hunread]
  unfold unread
  rw [hpos]

/-- One step at which the callback fails. -/
theorem failing_step (hbatch : 1 ≤ c.maxLineAtOnce) (hline : c.lineMaxBytes ≤ c.bufferMaxBytes)
    (hp : Poised c s) (hs : ¬ Spills c f size s) (he : Event.Steady size false e)
    (hstep : Step c f e s s') :
    ¬ Spills c f size s' ∧ failingMeasure size s' < failingMeasure size s := by
  cases hstep with
  | @resend ok vs now h hlen =>
      obtain rfl : ok = false := he
      have hover : ¬ Overflows c f size h := fun h => hs ⟨by simp, by simp, h⟩
      by_cases hsent : pick .unsent h.lines vs = []
      · rw [if_pos hsent]
        exact ⟨fun h => hover h.2.2, Nat.add_lt_add_left (by decide : 2 < 3) _⟩
      · rw [if_neg hsent]
        exact ⟨fun h => h.1 rfl, Nat.add_lt_add_left (by decide : 0 < 3) _⟩
  | @send ok readMore vs now h hlen =>
      obtain rfl : ok = false := he
      cases readMore with
      | false =>
          rw [if_neg fun h => Bool.false_ne_true h.1]
          exact ⟨fun h => h.1 rfl, Nat.add_lt_add_left (by decide : 0 < 1) _⟩
      | true =>
          have hover : ¬ Overflows c f size h := fun h => hs ⟨by simp, by simp, h⟩
          by_cases hsent : pick .unsent h.lines vs = []
          · rw [if_pos ⟨rfl, hsent⟩]
            exact ⟨fun h => hover h.2.2, Nat.add_lt_add_left (by decide : 2 < 3) _⟩
          · rw [if_neg fun h => hsent h.2]
            exact ⟨fun h => h.1 rfl, Nat.add_lt_add_left (by decide : 0 < 3) _⟩
  | @readNothing visible failed readMore now h hok =>
      obtain rfl : visible = size := he
      obtain rfl := hp.fresh readMore rfl
      have hover : ¬ Overflows c f visible h := fun h => hs ⟨by simp, by simp, h⟩
      have hunread := unread_scanned hok now
      -- the scan went to the end, so nothing more is to be read
      have hbroke : (scanBuffer c now (afterFread f visible 0 failed h)).2 = false := by
        by_contra hb
        exact hover (overflows_of_broke hline hok hp (by simpa using hb))
      rw [hbroke, Bool.or_false]
      rcases leaveReads_cases false (scanBuffer c now (afterFread f visible 0 failed h)).1 with
        ⟨-, hmore, -⟩ | ⟨-, -, heq⟩ | ⟨-, heq⟩
      · cases hmore
      · rw [heq]
        unfold failingMeasure
        exact ⟨fun h => h.1 rfl, by simp only; omega⟩
      · rw [heq]
        unfold failingMeasure
        exact ⟨fun h => h.2.1 rfl, by simp only; omega⟩
  | @readFull visible n failed readMore now h hok hn hmax =>
      obtain rfl : visible = size := he
      obtain rfl := hp.fresh readMore rfl
      have hover : ¬ Overflows c f visible h := fun h => hs ⟨by simp, by simp, h⟩
      have hunread := unread_scanned hok now
      have hiff := overflows_read hline hok hp.batch (room_pos hok hp.buffer hn) now
      have hne : (scanBuffer c now (afterFread f visible n failed h)).1.lines ≠ [] :=
        List.ne_nil_of_length_pos (Nat.le_trans hbatch hmax)
      rw [leaveReads_of_lines hne]
      unfold failingMeasure
      refine ⟨fun h => hover (hiff.mpr h.2.2), ?_⟩
      simp only
      omega
  | @readOn visible n failed readMore now h hok hn hmax =>
      obtain rfl : visible = size := he
      obtain rfl := hp.fresh readMore rfl
      have hover : ¬ Overflows c f visible h := fun h => hs ⟨by simp, by simp, h⟩
      have hunread := unread_scanned hok now
      have hiff := overflows_read hline hok hp.batch (room_pos hok hp.buffer hn) now
      refine ⟨fun h => hover (hiff.mpr h.2.2), ?_⟩
      unfold failingMeasure
      simp only
      omega

theorem harmless_of_not_spills (hbatch : 1 ≤ c.maxLineAtOnce)
    (hline : c.lineMaxBytes ≤ c.bufferMaxBytes) (hsize : size ≤ f.content.length)
    (hp : Poised c s) (hT : Tallied s.2) (hs : ¬ Spills c f size s) : Harmless c f size s := by
  refine ends_of_measure (failingMeasure size)
    (I := fun t => Poised c t ∧ Tallied t.2 ∧ Held s.2 t.2 ∧ ¬ Spills c f size t)
    (fun t ht hdone => exists_answer false hsize fun hret => ?_)
    (fun e t t' ht _ he h => ?_) s ⟨hp, hT, .refl _, hs⟩
  · exact hdone ⟨hret, ht.2.2.1, ht.2.1.accounted, offeredAgain c t.2⟩
  · obtain ⟨hp, hT, hheld, hs⟩ := ht
    obtain ⟨hs', hlt⟩ := failing_step hbatch hline hp hs he (step_cases h)
    exact Or.inr ⟨⟨hp.step (step_cases h), Tallied.step hT h,
      hheld.trans (held_step he (step_cases h)), hs'⟩, hlt⟩

/-! ## With too many bytes

There is an answer after which it is no different, as often as one likes.
-/

/-- Where `fread` brings all it can, and that is nothing. -/
theorem atHand_of_min (hmin : min (room c h) (unread size h) = 0) :
    atHand c f size h = h.buffer := by
  unfold atHand
  split
  · next hroom =>
      have hmax := c.bufferMaxBytes_lt
      have hunread : unread size h = 0 := by
        unfold room at hmin
        omega
      have hwindow : f.window h.filePos size = [] := by
        unfold LogFile.window
        rw [show size - h.filePos = 0 from hunread, List.take_zero]
      rw [hwindow, List.append_nil]
  · rw [List.append_nil]

/-- An answer after which there are still too many. -/
theorem spills_step (hbatch : 1 ≤ c.maxLineAtOnce) (hline : c.lineMaxBytes ≤ c.bufferMaxBytes)
    (hsize : size ≤ f.content.length) (hp : Poised c s) (hs : Spills c f size s) :
    ∃ e s', Event.Steady size false e ∧ step c f e s = some s' ∧ Spills c f size s' := by
  obtain ⟨control, h⟩ := s
  obtain ⟨hret, hlast, hover⟩ := hs
  have hlen : (List.replicate h.lines.length Verdict.taken).length = h.lines.length :=
    List.length_replicate
  have hsent := pick_unsent_taken h.lines
  let h' := afterReceive false (List.replicate h.lines.length .taken) 0 h
  have hover' : Overflows c f size h' := hover
  cases control with
  | resend =>
      refine ⟨.receive false (List.replicate h.lines.length .taken) 0, (.read false, h'), rfl, ?_,
        by simp, by simp, hover'⟩
      simp only [step, if_pos hlen, if_pos hsent]
      rfl
  | send readMore =>
      obtain rfl : readMore = true := by
        by_contra hrm
        exact hlast (by simpa using hrm)
      refine ⟨.receive false (List.replicate h.lines.length .taken) 0, (.read false, h'), rfl, ?_,
        by simp, by simp, hover'⟩
      simp only [step, if_pos hlen, if_pos hsent, if_true]
      rfl
  | read readMore =>
      obtain rfl := hp.fresh readMore rfl
      have hok := @freadOk_min c f size h hsize
      generalize hmin : min (room c h) (unread size h) = n at hok
      obtain ⟨s', hs'⟩ := exists_step_of_fread false 0 hok
      refine ⟨.fread size n false 0, s', rfl, hs', ?_⟩
      cases step_cases hs' with
      | readNothing =>
          have hbroke := (@overflows_iff_broke c f size h false hp.batch (atHand_of_min hmin) 0).mp
            hover
          obtain ⟨hfull, hne⟩ := (scanBuffer_broke 0).mp hbroke
          have hlines := List.ne_nil_of_length_pos (Nat.le_trans hbatch hfull)
          rw [hbroke, leaveReads_of_lines hlines]
          exact ⟨by simp, by simp, overflows_of_full hfull hne⟩
      | readFull _ hn hmax =>
          have hiff := overflows_read hline hok hp.batch (room_pos hok hp.buffer hn) 0
          have hlines := List.ne_nil_of_length_pos (Nat.le_trans hbatch hmax)
          rw [leaveReads_of_lines hlines]
          exact ⟨by simp, by simp, hiff.mp hover⟩
      | readOn _ hn =>
          have hiff := overflows_read hline hok hp.batch (room_pos hok hp.buffer hn) 0
          exact ⟨by simp, by simp, hiff.mp hover⟩
  | returned => exact absurd rfl hret

theorem not_harmless_of_spills (hbatch : 1 ≤ c.maxLineAtOnce)
    (hline : c.lineMaxBytes ≤ c.bufferMaxBytes) (hsize : size ≤ f.content.length)
    (hp : Poised c s) (hs : Spills c f size s) : ¬ Harmless c f size s := by
  refine not_ends_of_trap (I := fun t => Poised c t ∧ Spills c f size t) (fun t ht => ?_) ⟨hp, hs⟩
  obtain ⟨hp, hs⟩ := ht
  obtain ⟨e, t', he, hstep, hs'⟩ := spills_step hbatch hline hsize hp hs
  exact ⟨fun hdone => hs.1 hdone.1, e, t', he, hstep, hp.step (step_cases hstep), hs'⟩

/-- **When a failing callback is harmless.**  From any point of any calls of a
handler on, the callback returning `false`: the call returns without moving the
position, with every line that was cut still there to be offered again, if and
only if at that point nothing but the return is to come, or the bytes at hand
do not fill the batch with bytes left over. -/
theorem harmless_iff {start stored : ℕ} {now : ℤ} {as : List Tick} {u : Session}
    (hbatch : 1 ≤ c.maxLineAtOnce) (hline : c.lineMaxBytes ≤ c.bufferMaxBytes)
    (hr : run (tick c f) as (Session.init start stored now) = some u)
    (hsize : size ≤ f.content.length) :
    Harmless c f size (u.control, u.handler) ↔ ¬ Spills c f size (u.control, u.handler) := by
  have hp := poised_run hr
  constructor
  · intro hharmless hspills
    exact not_harmless_of_spills hbatch hline hsize hp hspills hharmless
  · exact harmless_of_not_spills hbatch hline hsize hp (tallied_ticks hr)

theorem one_lt_limit : 1 < 2 ^ 32 := by decide

theorem eight_lt_limit : 8 < 2 ^ 32 := by decide

/-- Batches of one line. -/
def singleConf : Conf :=
  { maxLineAtOnce := 1, lineMaxBytes := 8, bufferMaxBytes := 8, lineDelimiter := 10,
    removeDelimiter := true, maxLineAtOnce_lt := one_lt_limit, lineMaxBytes_lt := eight_lt_limit,
    bufferMaxBytes_lt := eight_lt_limit }

/-- A line, and a byte of the next. -/
def lineAndByte : LogFile := ⟨[97, 10, 98], by decide⟩

/-- Without the byte of the next line the call returns. -/
theorem harmless_iff_line : ∃ u, run (tick singleConf lineAndByte) [.notify 0]
      (Session.init 0 0 0) = some u ∧
    Harmless singleConf lineAndByte 2 (u.control, u.handler) := by
  have hr : run (tick singleConf lineAndByte) [.notify 0] (Session.init 0 0 0) = some _ := rfl
  refine ⟨_, hr, (harmless_iff (by decide) (by decide) hr (by decide)).mpr ?_⟩
  intro hspills
  exact absurd hspills.2.2 (by decide)

/-- With it the call goes round for ever. -/
theorem harmless_fails : ∃ u, run (tick singleConf lineAndByte) [.notify 0]
      (Session.init 0 0 0) = some u ∧
    ¬ Harmless singleConf lineAndByte 3 (u.control, u.handler) := by
  have hr : run (tick singleConf lineAndByte) [.notify 0] (Session.init 0 0 0) = some _ := rfl
  refine ⟨_, hr, not_harmless_of_spills (by decide) (by decide) (by decide) (poised_run hr) ?_⟩
  exact ⟨by decide, by decide, by decide⟩

end Logkafka.IOHandler
