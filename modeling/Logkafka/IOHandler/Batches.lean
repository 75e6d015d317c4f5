/-
# `Logkafka.IOHandler.Batches` — how many lines a batch holds

`queue.buffering.max.messages` is the limit of the producer queue, and the
`batchsize` of an entry is brought down to it before it is used.  On its way to
the loop that keeps it the number changes its type twice:

    atoi             int                compared with (long) of the limit, and clamped
    TailWatcher      unsigned long
    IOHandler        unsigned int       compared with m_lines.size()

A negative number is below the limit at the first comparison, and at the last
one it is 2³² more; the default of an entry that has no `batchsize` meets the
first comparison never.  So the limit holds if and only if neither is the case,
or the limit is that large (`batched_iff`).
-/
import Logkafka.IOHandler.Failing
import Logkafka.IOHandler.Delivery

namespace Logkafka.IOHandler

variable {c : Conf} {f : LogFile} {e : Event}

/-- Every batch handed over so far has a line, and no more than `n` of them; and
so many there are in `m_lines`. -/
structure Batched (n : ℕ) (h : IOHandler) : Prop where
  calls : ∀ k ∈ h.calls, 1 ≤ k.batch.length ∧ k.batch.length ≤ n
  lines : h.lines.length ≤ n

/-- What the entry says of the batch size is a number within the limit, or one that is made so. -/
def BatchFits (queueMax : UInt64) (logItem : Json) : Prop :=
  match logItem.getValue "batchsize" with
  | some text => 0 ≤ (atoi text).toInt ∨ 2 ^ 32 + (atoi text).toInt ≤ queueMax.toNat
  | none => 200 ≤ queueMax.toNat

/-! ## The batch size of an entry

The number on its way from the text of the entry to the limit of the loop.
-/

/-- `(long)` of an `unsigned long`. -/
theorem toInt_toInt64 (q : UInt64) :
    q.toInt64.toInt = if q.toNat < 2 ^ 63 then (q.toNat : ℤ) else q.toNat - 2 ^ 64 := by
  have hint : q.toInt64.toInt = (q.toNat : ℤ).bmod (2 ^ 64) := BitVec.toInt_eq_toNat_bmod _
  have hlt := q.toNat_lt
  rw [hint, Int.bmod_def]
  split <;> split <;> omega

/-- The batch size that a text is read as. -/
theorem readBatchsize_le_iff (queueMax : UInt64) (text : Str) :
    (readBatchsize queueMax text).toUInt32.toNat ≤ queueMax.toNat ↔
      0 ≤ (atoi text).toInt ∨ 2 ^ 32 + (atoi text).toInt ≤ queueMax.toNat := by
  have hlong := toInt_toInt64 queueMax
  have hunsigned := toNat_toUInt32 (atoi text)
  have hge := (atoi text).le_toInt
  have hlt := (atoi text).toInt_lt
  unfold readBatchsize
  split
  · next hclamp =>
      rw [Int64.lt_iff_toInt_lt, Int32.toInt_toInt64] at hclamp
      have hle : queueMax.toUInt32.toInt32.toUInt32.toNat ≤ queueMax.toNat := by
        rw [UInt32.toUInt32_toInt32, UInt64.toNat_toUInt32]
        exact Nat.mod_le _ _
      refine iff_of_true hle ?_
      split at hlong <;> omega
  · next hkept =>
      rw [Int64.lt_iff_toInt_lt, Int32.toInt_toInt64] at hkept
      split at hlong <;> split at hunsigned <;> omega

/-- Whether the limit of the loop is within the limit of the queue. -/
theorem maxLineAtOnce_le_iff (cfg : Config) {queueMax : UInt64} {unset : String → Bool} {P : Str}
    {logItem : Json} {tw : TailWatcher}
    (hitem : readItem queueMax unset P logItem = some tw.conf) :
    (tw.ioConf cfg).maxLineAtOnce ≤ queueMax.toNat ↔ BatchFits queueMax logItem := by
  have hsaid : Setting.Value.int tw.conf.logConf.batchsize
      = Setting.said queueMax unset logItem .batchsize := readItem_setting hitem .batchsize
  show tw.conf.logConf.batchsize.toUInt32.toNat ≤ _ ↔ _
  unfold Setting.said Json.member at hsaid
  unfold BatchFits
  rw [show Setting.name .batchsize = "batchsize" from rfl] at hsaid
  cases hmember : logItem.getValue "batchsize" with
  | none =>
      rw [hmember] at hsaid
      rw [Setting.Value.int.inj hsaid]
      exact Iff.rfl
  | some text =>
      rw [hmember] at hsaid
      rw [Setting.Value.int.inj hsaid]
      exact readBatchsize_le_iff queueMax text

/-! ## Batches are within the size -/

/-- The calls so far. -/
structure Handed (c : Conf) (s : Control × IOHandler) : Prop where
  well : WellAt s
  poised : Poised c s
  calls : ∀ k ∈ s.2.calls, 1 ≤ k.batch.length ∧ k.batch.length ≤ c.maxLineAtOnce

theorem calls_scanBuffer (now : ℤ) (h : IOHandler) :
    (scanBuffer c now h).1.calls = h.calls := by
  obtain ⟨frames, hsp⟩ := scanBuffer_spec c now h
  rw [hsp.same]

theorem Handed.step {s s' : Control × IOHandler} (hh : Handed c s) (hs : step c f e s = some s') :
    Handed c s' := by
  refine ⟨(hh.well.step hs).1, hh.poised.step (step_cases hs), ?_⟩
  have hcall {h : IOHandler} {ok : Bool} {vs : List Verdict} {now : ℤ} (hne : h.lines ≠ [])
      (hmax : h.lines.length ≤ c.maxLineAtOnce)
      (hcalls : ∀ k ∈ h.calls, 1 ≤ k.batch.length ∧ k.batch.length ≤ c.maxLineAtOnce) :
      ∀ k ∈ (afterReceive ok vs now h).calls,
        1 ≤ k.batch.length ∧ k.batch.length ≤ c.maxLineAtOnce := by
    intro k hk
    rcases List.mem_append.mp hk with hk | hk
    · exact hcalls k hk
    · obtain rfl := List.mem_singleton.mp hk
      exact ⟨List.length_pos_iff.mpr hne, hmax⟩
  cases step_cases hs with
  | resend => exact hcall (hh.well.pending (Or.inl rfl)) hh.poised.batch hh.calls
  | send => exact hcall (hh.well.pending (Or.inr ⟨_, rfl⟩)) hh.poised.batch hh.calls
  | readNothing | readFull =>
      rw [leaveReads_handler, calls_scanBuffer]
      exact hh.calls
  | readOn =>
      rw [calls_scanBuffer]
      exact hh.calls

theorem calls_enter (now : ℤ) (h : IOHandler) : (enter c now h).2.calls = h.calls := by
  rw [enter_handler]
  split
  · rcases handleUncleaned_cases c now h with ⟨-, heq⟩ | ⟨-, -, -, heq⟩ | ⟨-, heq⟩ <;> rw [heq]
  · rfl

theorem handed_tick (a : Tick) (u u' : Session) (hh : Handed c (u.control, u.handler))
    (h : tick c f a u = some u') : Handed c (u'.control, u'.handler) := by
  cases a with
  | notify now =>
      obtain ⟨-, -, rfl⟩ := tick_notify h
      refine ⟨wellAt_enter c now u.handler, hh.poised.enter now, ?_⟩
      show ∀ k ∈ (enter c now u.handler).2.calls, _
      rw [calls_enter]
      exact hh.calls
  | answer e => exact hh.step (tick_answer_step h)

theorem handed_init (c : Conf) (start stored : ℕ) (now : ℤ) :
    Handed c (.returned, init start stored now) where
  well := ⟨by simp, by simp⟩
  poised := poised_init c start stored now
  calls k hk := by cases hk

/-- After any calls of a handler, and in the middle of one. -/
theorem batched_run {start stored : ℕ} {now : ℤ} {as : List Tick} {u : Session}
    (hr : run (tick c f) as (Session.init start stored now) = some u) :
    Batched c.maxLineAtOnce u.handler := by
  have hh : Handed c (u.control, u.handler) :=
    run_inv (I := fun s : Session => Handed c (s.control, s.handler))
      (fun a s s' => handed_tick a s s') as _ u (handed_init c start stored now) hr
  exact ⟨hh.calls, hh.poised.batch⟩

/-! ## A buffer of no bytes

`line_max_bytes` and `read_max_bytes` may be zero.  Then nothing is read, and
any limit is kept.
-/

/-- Nothing was cut, and the callback was not called. -/
structure Idle (c : Conf) (s : Control × IOHandler) : Prop where
  handed : Handed c s
  lines : s.2.lines = []
  calls : s.2.calls = []

theorem Idle.buffer {s : Control × IOHandler} (hi : Idle c s) (hbuffer : c.bufferMaxBytes = 0) :
    s.2.buffer = [] :=
  List.length_eq_zero_iff.mp (Nat.le_zero.mp (hbuffer ▸ hi.handed.poised.buffer))

theorem Idle.step {s s' : Control × IOHandler} (hbuffer : c.bufferMaxBytes = 0) (hi : Idle c s)
    (hs : step c f e s = some s') : Idle c s' := by
  have hnil := hi.buffer hbuffer
  have hzero {h : IOHandler} {visible n : ℕ} {failed : Bool} (hb : h.buffer = [])
      (hok : FreadOk c f h visible n failed) : n = 0 := by
    have hle := hok.2.1
    rw [room_of_nil hb, hbuffer] at hle
    exact Nat.le_zero.mp hle
  have hread {h : IOHandler} {visible : ℕ} {failed : Bool} {now : ℤ} (hb : h.buffer = []) :
      (scanBuffer c now (afterFread f visible 0 failed h)).1 = afterFread f visible 0 failed h := by
    have hb : (afterFread f visible 0 failed h).buffer = [] := by
      rw [buffer_afterFread_zero, hb]
    rw [scanBuffer, if_pos hb]
  suffices hkeep : s'.2.lines = [] ∧ s'.2.calls = [] from
    ⟨hi.handed.step hs, hkeep.1, hkeep.2⟩
  cases step_cases hs with
  | resend => exact absurd hi.lines (hi.handed.well.pending (Or.inl rfl))
  | send => exact absurd hi.lines (hi.handed.well.pending (Or.inr ⟨_, rfl⟩))
  | readNothing =>
      rw [leaveReads_handler, hread hnil]
      exact ⟨hi.lines, hi.calls⟩
  | readFull hok hn => exact absurd (hzero hnil hok) hn
  | readOn hok hn => exact absurd (hzero hnil hok) hn

theorem idle_tick (hbuffer : c.bufferMaxBytes = 0) (a : Tick) (u u' : Session)
    (hi : Idle c (u.control, u.handler)) (h : tick c f a u = some u') :
    Idle c (u'.control, u'.handler) := by
  cases a with
  | notify now =>
      have hsame : (enter c now u.handler).2 = u.handler := by
        have hb : u.handler.buffer = [] := hi.buffer hbuffer
        rw [enter_handler, handleUncleaned_of_nil hb, ite_self]
      refine ⟨handed_tick _ u u' hi.handed h, ?_, ?_⟩
      · obtain ⟨-, -, rfl⟩ := tick_notify h
        exact (congrArg IOHandler.lines hsame).trans hi.lines
      · obtain ⟨-, -, rfl⟩ := tick_notify h
        exact (congrArg IOHandler.calls hsame).trans hi.calls
  | answer e => exact hi.step hbuffer (tick_answer_step h)

/-- Without a buffer nothing is ever handed over. -/
theorem batched_of_no_buffer (hbuffer : c.bufferMaxBytes = 0) {start stored : ℕ} {now : ℤ}
    {as : List Tick} {u : Session}
    (hr : run (tick c f) as (Session.init start stored now) = some u) (n : ℕ) :
    Batched n u.handler := by
  have hi : Idle c (u.control, u.handler) :=
    run_inv (I := fun s : Session => Idle c (s.control, s.handler))
      (fun a s s' => idle_tick hbuffer a s s') as _ u ⟨handed_init c start stored now, rfl, rfl⟩ hr
  have hlines : u.handler.lines = [] := hi.lines
  have hcalls : u.handler.calls = [] := hi.calls
  refine ⟨fun k hk => ?_, ?_⟩
  · rw [hcalls] at hk
    cases hk
  · rw [hlines]
    exact Nat.zero_le n

/-! ## A batch may be full

The other way: with a buffer a file of empty lines fills any batch, so that the
limit of the loop is reached.
-/

/-- A file of `n` empty lines. -/
def emptyLines (c : Conf) (n : ℕ) (hn : n < 2 ^ 63) : LogFile where
  content := List.replicate n c.lineDelimiter
  length_lt := by
    rw [List.length_replicate]
    exact hn

/-- One byte of it, read into a batch with room for it. -/
theorem exists_line_read {q : ℕ} (hq : q < 2 ^ 63) (hbuffer : 1 ≤ c.bufferMaxBytes)
    {h : IOHandler} (hnil : h.buffer = []) (hpos : h.filePos < q)
    (hroom : h.lines.length < c.maxLineAtOnce) :
    ∃ s', step c (emptyLines c q hq) (.fread q 1 false 0) (.read false, h) = some s' ∧
      s'.2.lines.length = h.lines.length + 1 ∧
      (h.lines.length + 1 < c.maxLineAtOnce → s'.1 = .read false ∧ s'.2.buffer = [] ∧
        s'.2.filePos = h.filePos + 1) := by
  have hlen : (emptyLines c q hq).content.length = q := List.length_replicate
  have hok : FreadOk c (emptyLines c q hq) h q 1 false :=
    freadOk_one hbuffer hnil (Nat.le_of_eq hlen.symm) hpos
  have hbytes : (afterFread (emptyLines c q hq) q 1 false h).buffer = [c.lineDelimiter] := by
    show h.buffer ++ ((List.replicate q c.lineDelimiter).drop h.filePos).take 1 = _
    rw [hnil, List.drop_replicate, List.take_replicate, Nat.min_eq_left (by omega)]
    rfl
  have hcuts : c.cuts [] (afterFread (emptyLines c q hq) q 1 false h).buffer
      = ([[c.lineDelimiter]], []) := by
    rw [hbytes]
    exact @Framing.cuts_cons_end Byte (fun b => b = c.lineDelimiter) c.lineMaxBytes [] _
      (Or.inl (decide_eq_true rfl)) []
  obtain ⟨hlines, hbuf⟩ := @scanned_one_frame c _ _ 0
    (show (afterFread (emptyLines c q hq) q 1 false h).lines.length < _ from hroom) hcuts
  have hcount : (scanBuffer c 0 (afterFread (emptyLines c q hq) q 1 false h)).1.lines.length
      = h.lines.length + 1 := by
    rw [hlines, List.length_append]
    rfl
  obtain ⟨s', hs'⟩ := exists_step_of_fread false 0 hok
  refine ⟨s', hs', ?_⟩
  cases step_cases hs' with
  | readFull _ _ hmax =>
      rw [leaveReads_handler]
      refine ⟨hcount, fun hmore => ?_⟩
      rw [hcount] at hmax
      exact absurd hmore (Nat.not_lt.mpr hmax)
  | readOn _ _ _ =>
      obtain ⟨frames, hsp⟩ := scanBuffer_spec c 0 (afterFread (emptyLines c q hq) q 1 false h)
      exact ⟨hcount, fun _ => ⟨rfl, hbuf, by rw [hsp.same]; rfl⟩⟩

/-- Read byte by byte, the file brings as many lines into the batch as it has. -/
theorem exists_lines {q : ℕ} (hq : q < 2 ^ 63) (hbuffer : 1 ≤ c.bufferMaxBytes) :
    ∀ n, n ≤ q → n ≤ c.maxLineAtOnce →
      ∃ as u, run (tick c (emptyLines c q hq)) as (Session.init 0 0 0) = some u ∧
        u.handler.lines.length = n ∧ u.clock = 0 ∧
        (n < c.maxLineAtOnce → u.control = .read false ∧ u.handler.buffer = [] ∧
          u.handler.filePos = n) := by
  intro n
  induction n with
  | zero =>
      intro _ _
      refine ⟨[.notify 0], _, rfl, rfl, rfl, fun _ => ⟨rfl, rfl, rfl⟩⟩
  | succ n ih =>
      intro hle hmax
      obtain ⟨as, u, hrun, hlines, hclock, hread⟩ := ih (by omega) (by omega)
      obtain ⟨hcontrol, hnil, hpos⟩ := hread hmax
      obtain ⟨s', hstep, hcount, hmore⟩ := exists_line_read hq hbuffer hnil (by omega)
        (by omega : u.handler.lines.length < c.maxLineAtOnce)
      rw [hlines, hpos] at hmore
      have hanswer : step c (emptyLines c q hq) (.fread q 1 false 0) (u.control, u.handler)
          = some s' := hcontrol ▸ hstep
      obtain ⟨u', htick, hcontrol', hhandler', hclock'⟩ :=
        exists_tick_answer (Int.le_of_eq hclock : u.clock ≤ 0) hanswer
      refine ⟨as ++ [.answer (.fread q 1 false 0)], u', ?_, ?_, hclock', fun hroom => ?_⟩
      · rw [run_append, hrun]
        exact run_cons_eq_some.mpr ⟨u', htick, rfl⟩
      · rw [hhandler', hcount, hlines]
      · rw [hcontrol', hhandler']
        exact hmore hroom

/-- **When no batch exceeds the producer queue.**  For every entry of the log
config that is read, in every state of all runs of a handler made with its
settings: every batch has a line and no more than `queue.buffering.max.messages`
of them, and no more are held, if and only if the `batchsize` of the entry is not
negative, or so little that 2³² more is within the limit; without a `batchsize`,
if and only if the limit is 200 at least.  (Or `read_max_bytes` is 0.) -/
theorem batched_iff (cfg : Config) (queueMax : UInt64) (unset : String → Bool) (P : Str)
    (logItem : Json) (tw : TailWatcher)
    (hitem : readItem queueMax unset P logItem = some tw.conf) :
    (∀ (f : LogFile) (start stored : ℕ) (now : ℤ) (as : List Tick) (u : Session),
        run (tick (tw.ioConf cfg) f) as (Session.init start stored now) = some u →
          Batched queueMax.toNat u.handler) ↔
      BatchFits queueMax logItem ∨ cfg.readMaxBytes.toUInt32 = 0 := by
  have hfits := maxLineAtOnce_le_iff cfg hitem
  have hbuffer : (tw.ioConf cfg).bufferMaxBytes = 0 ↔ cfg.readMaxBytes.toUInt32 = 0 :=
    UInt32.toNat_inj (b := 0)
  rw [← hfits, ← hbuffer]
  constructor
  · intro hall
    by_contra hnot
    obtain ⟨hmax, hsome⟩ := not_or.mp hnot
    have hlt := (tw.ioConf cfg).maxLineAtOnce_lt
    obtain ⟨as, u, hrun, hlines, -⟩ := exists_lines (c := tw.ioConf cfg)
      (by omega : queueMax.toNat + 1 < 2 ^ 63) (by omega) (queueMax.toNat + 1) (Nat.le_refl _)
      (by omega)
    have hle := (hall _ _ _ _ as u hrun).lines
    omega
  · rintro (hle | hnone) f start stored now as u hrun
    · obtain ⟨hcalls, hlines⟩ := batched_run hrun
      refine ⟨fun k hk => ?_, Nat.le_trans hlines hle⟩
      obtain ⟨hpos, hmax⟩ := hcalls k hk
      exact ⟨hpos, Nat.le_trans hmax hle⟩
    · exact batched_of_no_buffer hnone hrun _

/-- The entry of "/a" with the topic "t" and the `batchsize` "2000000000", over a
queue of 100000: the limit is 100000. -/
theorem batched_iff_clamped :
    (batchWatcher (ascii "2000000000")).conf.logConf.batchsize = 100000 ∧
    ∀ (f : LogFile) (start stored : ℕ) (now : ℤ) (as : List Tick) (u : Session),
      run (tick ((batchWatcher (ascii "2000000000")).ioConf ⟨10000, 1048576, 2097152, 10⟩) f) as
        (Session.init start stored now) = some u → Batched 100000 u.handler :=
  ⟨by decide +kernel, (batched_iff ⟨10000, 1048576, 2097152, 10⟩ 100000 (fun _ => true) [47, 97]
    (.object [(ascii "topic", .string [116]), (ascii "batchsize", .string (ascii "2000000000"))])
    (batchWatcher (ascii "2000000000")) rfl).mpr (Or.inl (Or.inl (by decide +kernel)))⟩

/-- The same entry with the `batchsize` "-1" is accepted, and batches of more than
100000 lines are held. -/
theorem batched_fails :
    readItem 100000 (fun _ => true) [47, 97] (.object [(ascii "topic", .string [116]),
        (ascii "batchsize", .string (ascii "-1"))]) = some (batchWatcher (ascii "-1")).conf ∧
      (batchWatcher (ascii "-1")).conf.isLegal = true ∧
      ∃ (f : LogFile) (as : List Tick) (u : Session),
        run (tick ((batchWatcher (ascii "-1")).ioConf ⟨10000, 1048576, 2097152, 10⟩) f) as
          (Session.init 0 0 0) = some u ∧ 100000 < u.handler.lines.length := by
  refine ⟨rfl, rfl, ?_⟩
  obtain ⟨as, u, hrun, hlines, -⟩ := exists_lines
    (c := (batchWatcher (ascii "-1")).ioConf ⟨10000, 1048576, 2097152, 10⟩)
    (by decide : 100001 < 2 ^ 63) (by decide) 100001 (Nat.le_refl _) (by decide +kernel)
  exact ⟨_, as, u, hrun, by omega⟩

end Logkafka.IOHandler
