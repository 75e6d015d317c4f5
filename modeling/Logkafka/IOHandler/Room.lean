/-
# `Logkafka.IOHandler.Room` — the room that `fread` is given

`fread` is asked for as many bytes as the buffer has room for, and where it
brings none, `onNotify` takes that for the end of the file.  The buffer is never
longer than it may be (`Poised`), and what a scan to its end leaves is below the
limit of a line (`Limited`).  A scan that stops leaves any number of bytes, but
at a full batch, and after that

    the batch is sent        there is room: the scan has cut a line
    lines are left unsent    nothing is read
    the callback fails       the batch stays full, and `fread` goes on
                             until there is no room any more

In the last case nothing is wrong yet.  When the callback takes the batch after
that, the batch is empty, the buffer is full, and `fread` is asked for nothing;
so it is these answers that are to be kept away (`roomy_iff`).
-/
import Logkafka.IOHandler.Failing

namespace Logkafka.IOHandler

open Framing

variable {c : Conf} {f : LogFile} {h : IOHandler} {s s' : Session} {e : Event}

/-! ## What is to hold -/

/-- The buffer is never too long; what a scan to its end leaves has no delimiter and
is shorter than a line may be; `fread` is without room only at a full batch, so
where the batch is not full it brings bytes if there are any, and none at the end
of the file or on an error. -/
structure Roomy (c : Conf) (f : LogFile) (s : Session) : Prop where
  buffer : s.handler.buffer.length ≤ c.bufferMaxBytes
  filled : ∀ readMore visible n failed, s.control = .read readMore →
    FreadOk c f s.handler visible n failed →
      (afterFread f visible n failed s.handler).buffer.length ≤ c.bufferMaxBytes
  leftover : ∀ readMore visible n failed now, s.control = .read readMore →
    FreadOk c f s.handler visible n failed →
      (scanBuffer c now (afterFread f visible n failed s.handler)).2 = false →
        c.lineDelimiter ∉ (scanBuffer c now (afterFread f visible n failed s.handler)).1.buffer ∧
          (scanBuffer c now (afterFread f visible n failed s.handler)).1.buffer.length
            < c.lineMaxBytes
  room : ∀ readMore, s.control = .read readMore → room c s.handler = 0 →
    c.maxLineAtOnce ≤ s.handler.lines.length
  nothing : ∀ readMore visible failed, s.control = .read readMore →
    s.handler.lines.length < c.maxLineAtOnce → FreadOk c f s.handler visible 0 failed →
      visible ≤ s.handler.filePos ∨ failed = true
  bytes : ∀ readMore visible, s.control = .read readMore →
    s.handler.lines.length < c.maxLineAtOnce → s.handler.filePos < visible →
      visible ≤ f.content.length → ∃ n, 0 < n ∧ FreadOk c f s.handler visible n false

/-- The callback returned `true`. -/
def Received : Tick → Prop
  | .answer (.receive ok _ _) => ok = true
  | _ => True

/-- No answer that leaves nothing unsent comes while the buffer is full, but `false`
at a full batch. -/
def Unclogged (c : Conf) (s : Session) : Tick → Prop
  | .answer (.receive ok verdicts _) =>
      s.handler.buffer.length = c.bufferMaxBytes → pick .unsent s.handler.lines verdicts = [] →
        ok = false ∧ c.maxLineAtOnce ≤ s.handler.lines.length
  | _ => True

instance (c : Conf) (s : Session) (a : Tick) : Decidable (Unclogged c s a) := by
  unfold Unclogged
  split <;> infer_instance

/-- All over a run. -/
def RoomKept (c : Conf) (f : LogFile) (as : List Tick) (s : Session) : Prop :=
  (∀ t, Visits (tick c f) as s t → Roomy c f t) ∧
    ((∀ a ∈ as, Received a) → ∀ t, Visits (tick c f) as s t →
      ∀ readMore, t.control = .read readMore → room c t.handler ≠ 0)

/-! ## Room

How long the buffer can be after a scan, by why the scan ended.
-/

theorem room_eq_zero_iff (hbuffer : h.buffer.length ≤ c.bufferMaxBytes) :
    room c h = 0 ↔ h.buffer.length = c.bufferMaxBytes := by
  have hmax := c.bufferMaxBytes_lt
  unfold room
  omega

/-- What a scan leaves, if it went to the end. -/
theorem length_scanned_lt {now : ℤ} (hline : 1 ≤ c.lineMaxBytes)
    (hbroke : (scanBuffer c now h).2 = false) :
    (scanBuffer c now h).1.buffer.length < c.lineMaxBytes := by
  obtain ⟨frames, hsp⟩ := scanBuffer_spec c now h
  rcases (uncut_spec (hsp.scanned hbroke)).2 with hnil | hlt
  · rw [hnil]
    exact hline
  · exact hlt

/-- What it leaves, if the batch had room for a line: shorter than it may be. -/
theorem length_scanned_lt_buffer {now : ℤ} (hline : 1 ≤ c.lineMaxBytes)
    (hsize : c.lineMaxBytes ≤ c.bufferMaxBytes) (hroom : h.lines.length < c.maxLineAtOnce)
    (hbuffer : h.buffer.length ≤ c.bufferMaxBytes) :
    (scanBuffer c now h).1.buffer.length < c.bufferMaxBytes := by
  cases hbroke : (scanBuffer c now h).2 with
  | false => exact Nat.lt_of_lt_of_le (length_scanned_lt hline hbroke) hsize
  | true =>
      obtain ⟨frames, hsp⟩ := scanBuffer_spec c now h
      have hfull := hsp.full hbroke
      rw [hsp.lines_eq, List.length_append, length_layout] at hfull
      -- a frame was cut, and it is not empty
      cases frames with
      | nil =>
          rw [List.length_nil] at hfull
          omega
      | cons fr frames =>
          have hfr := List.length_pos_iff.mpr (hsp.nonempty fr List.mem_cons_self)
          have hlen := congrArg List.length hsp.split
          rw [List.flatten_cons, List.length_append, List.length_append] at hlen
          omega

/-! ## The invariant

A full buffer comes with a full batch or with lines to be sent, so that `fread`
is not called next.
-/

/-- Where the buffer is full the batch is full, or has lines to be sent. -/
structure Spare (c : Conf) (s : Control × IOHandler) : Prop where
  poised : Poised c s
  read : ∀ readMore, s.1 = .read readMore → s.2.buffer.length = c.bufferMaxBytes →
    c.maxLineAtOnce ≤ s.2.lines.length
  last : s.1 = .send false → s.2.buffer.length ≠ c.bufferMaxBytes
  returned : s.1 = .returned → s.2.buffer.length = c.bufferMaxBytes → s.2.lines ≠ []

/-- After the inner loop: more is read only at a full batch, and no more only if the
buffer is not full. -/
theorem spare_leaveReads {readMore : Bool} (hp : Poised c (leaveReads readMore h))
    (hmore : readMore = true → c.maxLineAtOnce ≤ h.lines.length)
    (hlast : readMore = false → h.buffer.length ≠ c.bufferMaxBytes) :
    Spare c (leaveReads readMore h) := by
  refine ⟨hp, ?_, ?_, ?_⟩
  all_goals rcases leaveReads_cases readMore h with ⟨hnil, hrm, hleave⟩ | ⟨hnil, hrm, hleave⟩ |
    ⟨hlines, hleave⟩ <;> rw [hleave]
  · intro _ _ _
    exact hmore hrm
  · intro _ hread
    cases hread
  · intro _ hread
    cases hread
  · intro hsend
    cases hsend
  · intro hsend
    cases hsend
  · intro hsend
    exact hlast (Control.send.inj hsend)
  · intro hret
    cases hret
  · intro _ hfull
    exact absurd hfull (hlast hrm)
  · intro hret
    cases hret

theorem spare_init (hsize : 1 ≤ c.bufferMaxBytes) (start stored : ℕ) (now : ℤ) :
    Spare c (.returned, init start stored now) where
  poised := poised_init c start stored now
  read _ h := by cases h
  last h := by cases h
  returned _ hfull := by
    have hfull : 0 = c.bufferMaxBytes := hfull
    omega

/-- The head of `onNotify`. -/
theorem Spare.enter (hline : 1 ≤ c.lineMaxBytes) (hsize : c.lineMaxBytes ≤ c.bufferMaxBytes)
    (hp : Spare c (.returned, h)) (now : ℤ) : Spare c (enter c now h) := by
  have hpoised : Poised c (IOHandler.enter c now h) := hp.poised.enter now
  have hkept : (handleUncleaned c now h).buffer.length = c.bufferMaxBytes →
      (handleUncleaned c now h).lines ≠ [] := by
    rcases handleUncleaned_cases c now h with ⟨-, heq⟩ | ⟨-, -, -, heq⟩ | ⟨-, heq⟩ <;> rw [heq]
    · exact hp.returned rfl
    · intro hfull
      have hfull : 0 = c.bufferMaxBytes := hfull
      omega
    · exact hp.returned rfl
  rcases enter_cases c now h with ⟨-, heq⟩ | ⟨-, hnil, heq⟩ | ⟨-, -, heq⟩ <;>
    rw [heq] at hpoised ⊢
  · exact hp
  · exact ⟨hpoised, fun _ _ hfull => absurd hnil (hkept hfull), fun hsend => (by cases hsend),
      fun hret => (by cases hret)⟩
  · exact ⟨hpoised, fun _ hread => (by cases hread), fun hsend => (by cases hsend),
      fun hret => (by cases hret)⟩

/-- One answer, if it is not one of those that are to be kept away. -/
theorem Spare.step {s s' : Control × IOHandler} (hline : 1 ≤ c.lineMaxBytes)
    (hsize : c.lineMaxBytes ≤ c.bufferMaxBytes) (hp : Spare c s)
    (hgood : ∀ ok vs now, e = .receive ok vs now → s.2.buffer.length = c.bufferMaxBytes →
      pick .unsent s.2.lines vs = [] → ok = false ∧ c.maxLineAtOnce ≤ s.2.lines.length)
    (hs : Step c f e s s') : Spare c s' := by
  have hpoised : Poised c s' := hp.poised.step hs
  -- an answer of the callback that leaves something unsent leaves it in the batch
  have hunsent : ∀ {h : IOHandler} {ok : Bool} {vs : List Verdict} {now : ℤ},
      pick .unsent h.lines vs ≠ [] → (afterReceive ok vs now h).lines ≠ [] := by
    intro h ok vs now hsome hnil
    cases ok with
    | true => exact hsome hnil
    | false =>
        have hnil : h.lines = [] := hnil
        rw [hnil] at hsome
        exact hsome rfl
  have hread : ∀ {h : IOHandler} {ok : Bool} {vs : List Verdict} {now : ℤ},
      (h.buffer.length = c.bufferMaxBytes → pick .unsent h.lines vs = [] →
        ok = false ∧ c.maxLineAtOnce ≤ h.lines.length) → pick .unsent h.lines vs = [] →
      h.buffer.length = c.bufferMaxBytes →
        c.maxLineAtOnce ≤ (afterReceive ok vs now h).lines.length := by
    intro h ok vs now hgood hnone hfull
    obtain ⟨rfl, hlines⟩ := hgood hfull hnone
    exact hlines
  cases hs with
  | @resend ok vs now h hlen =>
      by_cases hnone : pick .unsent h.lines vs = []
      · rw [if_pos hnone] at hpoised ⊢
        exact ⟨hpoised, fun _ _ hfull => hread (hgood ok vs now rfl) hnone hfull,
          fun hsend => (by cases hsend), fun hret => (by cases hret)⟩
      · rw [if_neg hnone] at hpoised ⊢
        exact ⟨hpoised, fun _ hread => (by cases hread), fun hsend => (by cases hsend),
          fun _ _ => hunsent hnone⟩
  | @send ok readMore vs now h hlen =>
      by_cases hmore : readMore = true ∧ pick .unsent h.lines vs = []
      · rw [if_pos hmore] at hpoised ⊢
        exact ⟨hpoised, fun _ _ hfull => hread (hgood ok vs now rfl) hmore.2 hfull,
          fun hsend => (by cases hsend), fun hret => (by cases hret)⟩
      · rw [if_neg hmore] at hpoised ⊢
        refine ⟨hpoised, fun _ hread => (by cases hread), fun hsend => (by cases hsend),
          fun _ hfull => ?_⟩
        cases readMore with
        | false => exact absurd hfull (hp.last rfl)
        | true => exact hunsent fun hnone => hmore ⟨rfl, hnone⟩
  | @readNothing visible failed readMore now h hok =>
      obtain rfl := hp.poised.fresh readMore rfl
      obtain ⟨frames, hsp⟩ := scanBuffer_spec c now (afterFread f visible 0 failed h)
      refine spare_leaveReads hpoised (fun hbroke => hsp.full (by simpa using hbroke))
        fun hbroke => ?_
      have hlt := length_scanned_lt hline (by simpa using hbroke)
      omega
  | @readFull visible n failed readMore now h hok hn hmax =>
      exact spare_leaveReads hpoised (fun _ => hmax) fun h => (by cases h)
  | @readOn visible n failed readMore now h hok hn hmax =>
      refine ⟨hpoised, fun _ _ hfull => ?_, fun hsend => (by cases hsend),
        fun hret => (by cases hret)⟩
      have hbroke : (scanBuffer c now (afterFread f visible n failed h)).2 = false := by
        by_contra hb
        have hfull := ((scanBuffer_broke now).mp (by simpa using hb)).1
        omega
      have hlt := length_scanned_lt hline hbroke
      have hfull : (scanBuffer c now (afterFread f visible n failed h)).1.buffer.length
          = c.bufferMaxBytes := hfull
      omega

/-- And then all is as it is to be. -/
theorem roomy_of_spare (hline : 1 ≤ c.lineMaxBytes) (hp : Spare c (s.control, s.handler)) :
    Roomy c f s := by
  have hbuffer : s.handler.buffer.length ≤ c.bufferMaxBytes := hp.poised.buffer
  have hroom : ∀ readMore, s.control = .read readMore → room c s.handler = 0 →
      c.maxLineAtOnce ≤ s.handler.lines.length := fun readMore hread hzero =>
    hp.read readMore hread ((room_eq_zero_iff hbuffer).mp hzero)
  refine ⟨hbuffer, fun _ _ _ _ _ hok => length_afterFread_le hok hbuffer, ?_, hroom, ?_, ?_⟩
  · intro readMore visible n failed now hread hok hbroke
    obtain ⟨frames, hsp⟩ :=
      scanBuffer_spec c now (afterFread f visible n failed s.handler)
    refine ⟨fun hmem => ?_, length_scanned_lt hline hbroke⟩
    have hplain := (uncut_spec (hsp.scanned hbroke)).1 _ hmem
    exact absurd rfl (of_decide_eq_false hplain)
  · intro readMore visible failed hread hlines hok
    rcases hok.2.2.2 rfl with hzero | hend
    · exact absurd (hroom readMore hread hzero) (Nat.not_le.mpr hlines)
    · exact hend
  · intro readMore visible hread hlines hpos hvisible
    have hsome : room c s.handler ≠ 0 := fun hzero =>
      absurd (hroom readMore hread hzero) (Nat.not_le.mpr hlines)
    refine ⟨1, Nat.one_pos, hvisible, Nat.one_le_iff_ne_zero.mpr hsome, fun _ => hpos, ?_⟩
    intro hone
    cases hone

/-! ## Where the callback does not fail

Then the buffer is never full at all.
-/

/-- The buffer is never full, and `fread` is called with a place in the batch. -/
structure Plenty (c : Conf) (s : Control × IOHandler) : Prop where
  buffer : s.2.buffer.length < c.bufferMaxBytes
  batch : ∀ readMore, s.1 = .read readMore → s.2.lines.length < c.maxLineAtOnce

theorem Plenty.enter (hbatch : 1 ≤ c.maxLineAtOnce) (hp : Plenty c (.returned, h)) (now : ℤ) :
    Plenty c (enter c now h) := by
  have hbuffer : (handleUncleaned c now h).buffer.length < c.bufferMaxBytes := by
    rcases handleUncleaned_cases c now h with ⟨-, heq⟩ | ⟨-, -, -, heq⟩ | ⟨-, heq⟩ <;> rw [heq]
    · exact hp.buffer
    · exact Nat.zero_lt_of_lt hp.buffer
    · exact hp.buffer
  rcases enter_cases c now h with ⟨-, heq⟩ | ⟨-, hnil, heq⟩ | ⟨-, -, heq⟩ <;> rw [heq]
  · exact ⟨hp.buffer, fun _ hread => by cases hread⟩
  · refine ⟨hbuffer, fun _ _ => ?_⟩
    show (handleUncleaned c now h).lines.length < _
    rw [hnil]
    exact hbatch
  · exact ⟨hbuffer, fun _ hread => by cases hread⟩

theorem Plenty.step {s s' : Control × IOHandler} (hline : 1 ≤ c.lineMaxBytes)
    (hsize : c.lineMaxBytes ≤ c.bufferMaxBytes) (hbatch : 1 ≤ c.maxLineAtOnce) (hp : Plenty c s)
    (hok : ∀ ok vs now, e = .receive ok vs now → ok = true) (hs : Step c f e s s') :
    Plenty c s' := by
  have hread : ∀ {readMore : Bool} {visible n : ℕ} {failed : Bool} {now : ℤ} {h : IOHandler},
      Plenty c (.read readMore, h) → FreadOk c f h visible n failed →
        (scanBuffer c now (afterFread f visible n failed h)).1.buffer.length
          < c.bufferMaxBytes := by
    intro readMore visible n failed now h hp hfread
    exact length_scanned_lt_buffer hline hsize (hp.batch readMore rfl)
      (length_afterFread_le hfread (Nat.le_of_lt hp.buffer))
  have hleave : ∀ {readMore : Bool} {h : IOHandler}, h.buffer.length < c.bufferMaxBytes →
      Plenty c (leaveReads readMore h) := by
    intro readMore h hlt
    refine ⟨by rw [leaveReads_handler]; exact hlt, fun rm hrm => ?_⟩
    rcases leaveReads_cases readMore h with ⟨hnil, -, heq⟩ | ⟨-, -, heq⟩ | ⟨-, heq⟩
    · rw [heq]
      show h.lines.length < _
      rw [hnil]
      exact hbatch
    · rw [heq] at hrm
      cases hrm
    · rw [heq] at hrm
      cases hrm
  cases hs with
  | @resend ok vs now h hlen =>
      obtain rfl := hok ok vs now rfl
      refine ⟨hp.buffer, fun readMore hrm => ?_⟩
      simp only at hrm
      split at hrm
      · next hnone =>
          show (pick .unsent h.lines vs).length < _
          rw [hnone]
          exact hbatch
      · cases hrm
  | @send ok readMore vs now h hlen =>
      obtain rfl := hok ok vs now rfl
      refine ⟨hp.buffer, fun readMore hrm => ?_⟩
      simp only at hrm
      split at hrm
      · next hmore =>
          show (pick .unsent h.lines vs).length < _
          rw [hmore.2]
          exact hbatch
      · cases hrm
  | readNothing hfread => exact hleave (hread hp hfread)
  | readFull hfread => exact hleave (hread hp hfread)
  | readOn hfread hn hlt => exact ⟨hread hp hfread, fun _ _ => hlt⟩

theorem plenty_tick (hline : 1 ≤ c.lineMaxBytes) (hsize : c.lineMaxBytes ≤ c.bufferMaxBytes)
    (hbatch : 1 ≤ c.maxLineAtOnce) {a : Tick} (ha : Received a)
    (hp : Plenty c (s.control, s.handler)) (h : tick c f a s = some s') :
    Plenty c (s'.control, s'.handler) := by
  cases a with
  | notify now =>
      obtain ⟨hret, -, rfl⟩ := tick_notify h
      rw [hret] at hp
      exact hp.enter hbatch now
  | answer e =>
      obtain ⟨-, hstep, -⟩ := tick_answer h
      refine hp.step hline hsize hbatch ?_ hstep
      rintro ok vs now rfl
      exact ha

theorem plenty_of_visits (hline : 1 ≤ c.lineMaxBytes) (hsize : c.lineMaxBytes ≤ c.bufferMaxBytes)
    (hbatch : 1 ≤ c.maxLineAtOnce) {as : List Tick} {t : Session}
    (hv : Visits (tick c f) as s t) : (∀ a ∈ as, Received a) → Plenty c (s.control, s.handler) →
      Plenty c (t.control, t.handler) := by
  induction hv with
  | here as s => exact fun _ hp => hp
  | later hstep _ ih =>
      intro has hp
      obtain ⟨ha, hrest⟩ := List.forall_mem_cons.mp has
      exact ih hrest (plenty_tick hline hsize hbatch ha hp hstep)

/-! ## The answers that are to be kept away

One of them takes the batch and leaves the buffer as it is, so that `fread` comes
next and has no room.
-/

theorem spare_tick (hline : 1 ≤ c.lineMaxBytes) (hsize : c.lineMaxBytes ≤ c.bufferMaxBytes)
    {a : Tick} (hgood : Unclogged c s a)
    (hp : Spare c (s.control, s.handler)) (h : tick c f a s = some s') :
    Spare c (s'.control, s'.handler) := by
  cases a with
  | notify now =>
      obtain ⟨hret, -, rfl⟩ := tick_notify h
      rw [hret] at hp
      exact hp.enter hline hsize now
  | answer e =>
      obtain ⟨-, hstep, -⟩ := tick_answer h
      refine hp.step hline hsize ?_ hstep
      rintro ok vs now rfl
      exact hgood

/-- Where nothing is left unsent, the loop goes on. -/
theorem read_of_none {s s' : Control × IOHandler} {ok : Bool} {vs : List Verdict} {now : ℤ}
    (hs : Step c f (.receive ok vs now) s s') (hnone : pick .unsent s.2.lines vs = [])
    (hlast : s.1 ≠ .send false) : s' = (.read false, afterReceive ok vs now s.2) := by
  cases hs with
  | resend hlen => rw [if_pos hnone]
  | @send ok readMore vs now h hlen =>
      cases readMore with
      | true => rw [if_pos ⟨rfl, hnone⟩]
      | false => exact absurd rfl hlast

/-- After one of them `fread` has no room, and the batch has. -/
theorem not_roomy_tick (hbatch : 1 ≤ c.maxLineAtOnce) {a : Tick} (hbad : ¬ Unclogged c s a)
    (hp : Spare c (s.control, s.handler)) (h : tick c f a s = some s') : ¬ Roomy c f s' := by
  cases a with
  | notify now => exact absurd trivial hbad
  | answer e =>
      cases e with
      | fread visible n failed now => exact absurd trivial hbad
      | receive ok vs now =>
          obtain ⟨hfull, hbad⟩ := Classical.not_imp.mp hbad
          obtain ⟨hnone, hnot⟩ := Classical.not_imp.mp hbad
          obtain ⟨-, hstep, -⟩ := tick_answer h
          have hplace : (afterReceive ok vs now s.handler).lines.length < c.maxLineAtOnce := by
            cases ok with
            | true =>
                show (pick .unsent s.handler.lines vs).length < _
                rw [hnone]
                exact hbatch
            | false => exact Nat.lt_of_not_le fun hle => hnot ⟨rfl, hle⟩
          have hnext := read_of_none hstep hnone fun hlast => hp.last hlast hfull
          obtain ⟨hcontrol, hhandler⟩ := Prod.mk.inj hnext
          intro hroomy
          have hzero : room c s'.handler = 0 := by
            rw [hhandler]
            exact (room_eq_zero_iff hp.poised.buffer).mpr hfull
          have hle := hroomy.room false hcontrol hzero
          rw [hhandler] at hle
          exact absurd hle (Nat.not_le.mpr hplace)

/-- **When there is room for `fread`.**  In every run of a handler, the sizes being
those a configuration can have: all over the run the buffer is within its size, what
a scan to its end leaves is shorter than a line may be and without a delimiter, and
`fread` is without room only at a full batch (and nowhere, if the callback always
returned `true`), if and only if no answer that leaves nothing unsent comes while
the buffer is full, but `false` at a full batch. -/
theorem roomy_iff {start stored : ℕ} {now : ℤ} {as : List Tick} {u : Session}
    (hline : 1 ≤ c.lineMaxBytes) (hsize : c.lineMaxBytes ≤ c.bufferMaxBytes)
    (hbatch : 1 ≤ c.maxLineAtOnce)
    (hr : run (tick c f) as (Session.init start stored now) = some u) :
    RoomKept c f as (Session.init start stored now) ↔
      Along (tick c f) (Unclogged c) as (Session.init start stored now) := by
  have hinit := spare_init (Nat.le_trans hline hsize) start stored now
  have hiff := visits_iff_along (I := fun s => Spare c (s.control, s.handler)) (P := Roomy c f)
    (fun a s s' hp hgood h => ⟨spare_tick hline hsize hgood hp h,
      roomy_of_spare hline (spare_tick hline hsize hgood hp h)⟩)
    (fun a s s' hp hbad h => not_roomy_tick hbatch hbad hp h) hinit
    (roomy_of_spare hline hinit) hr
  refine (and_iff_left fun has t ht readMore hread => ?_).trans hiff
  have hplenty : Plenty c ((Session.init start stored now).control,
      (Session.init start stored now).handler) :=
    ⟨Nat.lt_of_lt_of_le hline hsize, fun _ hread => by cases hread⟩
  have hlt := (plenty_of_visits hline hsize hbatch ht has hplenty).buffer
  exact fun hzero => Nat.ne_of_lt hlt ((room_eq_zero_iff (Nat.le_of_lt hlt)).mp hzero)

theorem two_lt_limit : 2 < 2 ^ 32 := by decide

/-- Batches of one line, lines of two bytes, and a buffer of two. -/
def narrowConf : Conf :=
  { maxLineAtOnce := 1, lineMaxBytes := 2, bufferMaxBytes := 2, lineDelimiter := 10,
    removeDelimiter := true, maxLineAtOnce_lt := one_lt_limit, lineMaxBytes_lt := two_lt_limit,
    bufferMaxBytes_lt := two_lt_limit }

def fiveBytes : LogFile := ⟨[97, 10, 98, 99, 100], by decide⟩

/-- The callback takes what it is given. -/
def takenAtOnce : List Tick :=
  [.notify 0, .answer (.fread 5 2 false 0), .answer (.receive true [.taken] 0),
    .answer (.fread 5 2 false 0), .answer (.receive true [.taken] 0),
    .answer (.fread 5 1 false 0), .answer (.fread 5 0 false 0)]

theorem roomy_iff_taken : ∃ u,
    run (tick narrowConf fiveBytes) takenAtOnce (Session.init 0 0 0) = some u ∧
      RoomKept narrowConf fiveBytes takenAtOnce (Session.init 0 0 0) := by
  have hr : run (tick narrowConf fiveBytes) takenAtOnce (Session.init 0 0 0) = some _ := rfl
  exact ⟨_, hr, (roomy_iff (by decide) (by decide) (by decide) hr).mpr (by decide +kernel)⟩

/-- It fails once, and then it takes the batch. -/
def takenLater : List Tick :=
  [.notify 0, .answer (.fread 5 2 false 0), .answer (.receive false [.taken] 0),
    .answer (.fread 5 2 false 0), .answer (.receive true [.taken] 0)]

/-- The batch is empty, a byte of the file is left, and `fread` is asked for none. -/
theorem roomy_fails : (1 ≤ narrowConf.lineMaxBytes ∧
      narrowConf.lineMaxBytes ≤ narrowConf.bufferMaxBytes ∧ 1 ≤ narrowConf.maxLineAtOnce) ∧
    ∃ u, run (tick narrowConf fiveBytes) takenLater (Session.init 0 0 0) = some u ∧
      (u.control, u.handler.lines, u.handler.filePos, room narrowConf u.handler)
        = (.read false, [], 4, 0) ∧
      ¬ RoomKept narrowConf fiveBytes takenLater (Session.init 0 0 0) := by
  have hr : run (tick narrowConf fiveBytes) takenLater (Session.init 0 0 0) = some _ := rfl
  refine ⟨by decide, _, hr, rfl, fun hkept => ?_⟩
  have hle := (hkept.1 _ (visits_of_run hr)).room false rfl rfl
  exact absurd hle (by decide)

end Logkafka.IOHandler
