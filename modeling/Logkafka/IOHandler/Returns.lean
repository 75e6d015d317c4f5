/-
# `Logkafka.IOHandler.Returns` — whether `onNotify` comes to an end

The `do .. while (read_more)` of `onNotify` goes round again when the batch is
full.  If the callback takes the batch, at least one line is gone in each round,
and the bytes of a file that does not grow and the lines of the batch together
get fewer:

    left to cut + lines of the batch, left to read

With a `batchsize` of 0 the batch is full before it has a line: nothing is ever
cut, and the loop goes round for as long as there is a byte in the buffer.
-/
import Logkafka.Ends
import Logkafka.LogConfig
import Logkafka.IOHandler.Session
import Logkafka.TailWatcher.Basic

namespace Logkafka.IOHandler

variable {c : Conf} {f : LogFile} {size : ℕ} {h : IOHandler} {s s' : Control × IOHandler}
  {e : Event}

/-- The file has `size` bytes and does not grow, and the callback returns `true`. -/
def Event.Calm (size : ℕ) : Event → Prop
  | .fread visible _ _ _ => visible = size
  | .receive ok _ _ => ok = true

/-- The file has `size` bytes and does not grow, and the callback returns `ok`. -/
def Event.Steady (size : ℕ) (ok : Bool) : Event → Prop
  | .fread visible _ _ _ => visible = size
  | .receive ok' _ _ => ok' = ok

theorem Event.Steady.calm (he : Event.Steady size true e) : Event.Calm size e := by
  cases e with
  | fread => exact he
  | receive => exact he

/-- The call returns, whatever it is answered. -/
def Returns (c : Conf) (f : LogFile) (size : ℕ) : Control × IOHandler → Prop :=
  Ends (step c f) (Event.Calm size) fun s => s.1 = .returned

/-! ## The measure

Of the bytes that are not cut and the lines that are not sent first, and then of
the bytes that are not read.
-/

def unread (size : ℕ) (h : IOHandler) : ℕ := size - h.filePos

/-- The bytes that are not cut and the lines that are not sent. -/
def owed (size : ℕ) (h : IOHandler) : ℕ := unread size h + h.buffer.length + h.lines.length

def Control.phase : Control → ℕ
  | .resend => 3
  | .read _ => 2
  | .send _ => 1
  | .returned => 0

def measure (size : ℕ) (s : Control × IOHandler) : ℕ :=
  4 * (owed size s.2 + unread size s.2) + s.1.phase

theorem length_flatten_ge {frames : List (List Byte)} (hne : ∀ fr ∈ frames, fr ≠ []) :
    frames.length ≤ frames.flatten.length := by
  induction frames with
  | nil => exact Nat.le_refl _
  | cons fr frames ih =>
      have hpos : 0 < fr.length := List.length_pos_iff.mpr (hne fr List.mem_cons_self)
      have hrest := ih fun x hx => hne x (List.mem_cons_of_mem _ hx)
      rw [List.flatten_cons, List.length_append, List.length_cons]
      omega

/-- A line that is cut is made of bytes that were not. -/
theorem owed_scanBuffer (now : ℤ) : owed size (scanBuffer c now h).1 ≤ owed size h ∧
    (scanBuffer c now h).1.filePos = h.filePos := by
  obtain ⟨frames, hsp⟩ := scanBuffer_spec c now h
  have hpos : (scanBuffer c now h).1.filePos = h.filePos := by rw [hsp.same]
  refine ⟨?_, hpos⟩
  have hframes := length_flatten_ge hsp.nonempty
  have hsplit := congrArg List.length hsp.split
  rw [List.length_append] at hsplit
  unfold owed unread
  rw [hpos, hsp.lines_eq, List.length_append, length_layout]
  omega

theorem afterFread_owed {n : ℕ} {failed : Bool} (hok : FreadOk c f h size n failed) :
    owed size (afterFread f size n failed h) = owed size h ∧
      unread size (afterFread f size n failed h) + n = unread size h := by
  have hlength := length_chunk hok
  obtain ⟨hsize, -, hpos, -⟩ := hok
  have hunread : size - (h.filePos + n) + n = size - h.filePos := by
    by_cases hn : 0 < n
    · have := hpos hn
      omega
    · omega
  constructor
  · show size - (h.filePos + n) + (h.buffer ++ _).length + h.lines.length = _
    rw [List.length_append, hlength]
    unfold owed unread
    omega
  · exact hunread

/-! ## A batch with room for a line

A round of the loop cuts a line or reads a byte, and a batch that is taken whole
leaves no lines.
-/

/-- What holds at the calls of `onNotify`. -/
def Orderly (s : Control × IOHandler) : Prop :=
  match s.1 with
  | .resend => s.2.lines ≠ []
  | .read readMore => readMore = false
  | .send _ => s.2.lines ≠ []
  | .returned => True

theorem orderly_enter (now : ℤ) : Orderly (enter c now h) := by
  rcases enter_cases c now h with ⟨-, heq⟩ | ⟨-, -, heq⟩ | ⟨-, hlines, heq⟩ <;> rw [heq]
  · trivial
  · exact (rfl : false = false)
  · exact hlines

/-- The end of a round, where the batch is not full without a line. -/
theorem leaveReads_lt (readMore : Bool) (hmore : readMore = true → h.lines ≠ []) :
    (leaveReads readMore h).1 = .returned ∨
      Orderly (leaveReads readMore h) ∧ measure size (leaveReads readMore h) <
        measure size (.read false, h) := by
  rcases leaveReads_cases readMore h with ⟨hnil, hread, -⟩ | ⟨-, -, heq⟩ | ⟨hlines, heq⟩
  · exact absurd hnil (hmore hread)
  · rw [heq]
    exact Or.inl rfl
  · rw [heq]
    exact Or.inr ⟨hlines, Nat.lt_succ_self _⟩

/-- Bytes that were read and scanned. -/
theorem measure_scanned {n : ℕ} {failed : Bool} (hok : FreadOk c f h size n failed) (now : ℤ) :
    measure size (.read false, (scanBuffer c now (afterFread f size n failed h)).1) + n ≤
      measure size (.read false, h) := by
  obtain ⟨howed, hunread⟩ := afterFread_owed hok
  obtain ⟨hscan, hpos⟩ := @owed_scanBuffer c size (afterFread f size n failed h) now
  have hunread' : unread size (scanBuffer c now (afterFread f size n failed h)).1 + n =
      unread size h := by
    rw [← hunread]
    unfold unread
    rw [hpos]
  unfold measure
  simp only
  omega

/-- The callback took the whole batch. -/
theorem measure_received {vs : List Verdict} {now : ℤ} (hlines : h.lines ≠ [])
    (hsent : pick .unsent h.lines vs = []) :
    measure size (.read false, afterReceive true vs now h) < measure size (.send true, h) := by
  have hpos : 0 < h.lines.length := List.length_pos_iff.mpr hlines
  have howed : owed size (afterReceive true vs now h) + h.lines.length = owed size h := by
    show _ + (pick .unsent h.lines vs).length + h.lines.length = _
    rw [hsent]
    rfl
  show 4 * (owed size (afterReceive true vs now h) + unread size h) + 2 <
    4 * (owed size h + unread size h) + 1
  omega

theorem step_lt (hroom : c.maxLineAtOnce ≠ 0) (hs : Orderly s) (he : e.Calm size)
    (hstep : step c f e s = some s') :
    s'.1 = .returned ∨ Orderly s' ∧ measure size s' < measure size s := by
  have hfull {h : IOHandler} (hmax : c.maxLineAtOnce ≤ h.lines.length) : h.lines ≠ [] := by
    intro hnil
    rw [hnil] at hmax
    exact hroom (Nat.le_zero.mp hmax)
  cases step_cases hstep with
  | @resend ok vs now h hlen =>
      obtain rfl : ok = true := he
      by_cases hsent : pick .unsent h.lines vs = []
      · rw [if_pos hsent]
        have hlt := @measure_received size h vs now hs hsent
        refine Or.inr ⟨(rfl : false = false), Nat.lt_trans hlt ?_⟩
        exact Nat.add_lt_add_left (by decide : Control.phase (.send true) < Control.phase .resend) _
      · exact Or.inl (if_neg hsent)
  | @send ok readMore vs now h hlen =>
      obtain rfl : ok = true := he
      by_cases hagain : readMore = true ∧ pick .unsent h.lines vs = []
      · rw [if_pos hagain]
        exact Or.inr ⟨(rfl : false = false), @measure_received size h vs now hs hagain.2⟩
      · exact Or.inl (if_neg hagain)
  | @readNothing visible failed readMore now h hok =>
      obtain rfl : visible = size := he
      obtain rfl : readMore = false := hs
      obtain ⟨frames, hsp⟩ := scanBuffer_spec c now (afterFread f visible 0 failed h)
      have hle := measure_scanned hok now
      rcases @leaveReads_lt visible _ (scanBuffer c now (afterFread f visible 0 failed h)).2
        fun hbroke => hfull (hsp.full hbroke) with hret | ⟨hord, hlt⟩
      · exact Or.inl hret
      · exact Or.inr ⟨hord, Nat.lt_of_lt_of_le hlt hle⟩
  | @readFull visible n failed readMore now h hok hn hmax =>
      obtain rfl : visible = size := he
      obtain rfl : readMore = false := hs
      have hle := measure_scanned hok now
      rcases @leaveReads_lt visible _ true fun _ => hfull hmax with hret | ⟨hord, hlt⟩
      · exact Or.inl hret
      · exact Or.inr ⟨hord, Nat.lt_of_lt_of_le hlt (Nat.le_of_add_right_le hle)⟩
  | @readOn visible n failed readMore now h hok hn hmax =>
      obtain rfl : visible = size := he
      obtain rfl : readMore = false := hs
      have hle := measure_scanned hok now
      exact Or.inr ⟨(rfl : false = false), by omega⟩

/-! ## The environment

There always is an answer, so a call that cannot go on for ever comes to an end.
-/

/-- `fread` of as much as there is. -/
theorem freadOk_min (hsize : size ≤ f.content.length) :
    FreadOk c f h size (min (room c h) (unread size h)) false := by
  unfold unread
  refine ⟨hsize, Nat.min_le_left _ _, fun hpos => ?_, fun hzero => ?_⟩
  · omega
  · rcases Nat.min_eq_zero_iff.mp hzero with hroom | hread
    · exact Or.inl hroom
    · exact Or.inr (Or.inl (by omega))

/-- One byte, where there is room and a byte to be read. -/
theorem freadOk_one {visible : ℕ} (hbuffer : 1 ≤ c.bufferMaxBytes) (hnil : h.buffer = [])
    (hvisible : visible ≤ f.content.length) (hpos : h.filePos < visible) :
    FreadOk c f h visible 1 false := by
  refine ⟨hvisible, ?_, fun _ => hpos, ?_⟩
  · rw [room_of_nil hnil]
    exact hbuffer
  · intro hone
    cases hone

theorem exists_step_of_fread {visible n : ℕ} {failed : Bool} (readMore : Bool) (now : ℤ)
    (hok : FreadOk c f h visible n failed) :
    ∃ s', step c f (.fread visible n failed now) (.read readMore, h) = some s' := by
  simp only [step, if_pos hok]
  split
  · exact ⟨_, rfl⟩
  · split
    · exact ⟨_, rfl⟩
    · exact ⟨_, rfl⟩

/-- It always has an answer. -/
theorem exists_answer (ok : Bool) (hsize : size ≤ f.content.length) (hs : s.1 ≠ .returned) :
    ∃ e s', Event.Steady size ok e ∧ step c f e s = some s' := by
  obtain ⟨control, h⟩ := s
  have hlen : (List.replicate h.lines.length Verdict.taken).length = h.lines.length :=
    List.length_replicate
  cases control with
  | resend =>
      refine ⟨.receive ok (List.replicate h.lines.length .taken) 0, ?_⟩
      simp only [step, if_pos hlen]
      split
      · exact ⟨_, rfl, rfl⟩
      · exact ⟨_, rfl, rfl⟩
  | send readMore =>
      refine ⟨.receive ok (List.replicate h.lines.length .taken) 0, ?_⟩
      simp only [step, if_pos hlen]
      exact ⟨_, rfl, rfl⟩
  | read readMore =>
      obtain ⟨s', hs'⟩ := exists_step_of_fread readMore 0 (freadOk_min hsize)
      exact ⟨.fread size _ false 0, s', rfl, hs'⟩
  | returned => exact absurd rfl hs

theorem exists_calm (hsize : size ≤ f.content.length) (hs : s.1 ≠ .returned) :
    ∃ e s', Event.Calm size e ∧ step c f e s = some s' := by
  obtain ⟨e, s', he, hstep⟩ := exists_answer true hsize hs
  exact ⟨e, s', he.calm, hstep⟩

theorem returns_of_room (hroom : c.maxLineAtOnce ≠ 0) (hsize : size ≤ f.content.length)
    (hs : Orderly s) : Returns c f size s :=
  ends_of_measure (measure size) (fun _ _ hret => exists_calm hsize hret)
    (fun _ _ _ hs _ he h => step_lt hroom hs he h) s hs

/-! ## A batch without room

The scan stops in front of the first byte, `read_more` is set, and the same comes
again.
-/

/-- Nothing is cut. -/
theorem scanBuffer_full (hzero : c.maxLineAtOnce = 0) (now : ℤ) (hbuffer : h.buffer ≠ []) :
    (scanBuffer c now h).2 = true ∧ (scanBuffer c now h).1.lines = h.lines ∧
      (scanBuffer c now h).1.buffer = h.buffer := by
  obtain ⟨b, rest, hb⟩ := List.exists_cons_of_ne_nil hbuffer
  have hscan : scan c h.cutPos h.lines 0 [] h.buffer = ⟨h.lines, 0, true⟩ := by
    rw [hb, scan, if_pos (hzero ▸ Nat.zero_le _)]
  unfold scanBuffer
  rw [if_neg hbuffer, hscan]
  exact ⟨rfl, rfl, rfl⟩

theorem lines_enter (hzero : c.maxLineAtOnce = 0) (now : ℤ) :
    (enter c now h).2.lines = h.lines ∧ (enter c now h).2.buffer = h.buffer ∧
      (enter c now h).2.filePos = h.filePos := by
  have hflush : flushes c now h = false := by simp [flushes, hzero]
  rw [enter_handler]
  split
  · rw [handleUncleaned_of_not_flushes hflush]
    exact ⟨rfl, rfl, rfl⟩
  · exact ⟨rfl, rfl, rfl⟩

theorem no_lines_step (hzero : c.maxLineAtOnce = 0) (hs : s.2.lines = [])
    (h : Step c f e s s') : s'.2.lines = [] := by
  have hreceive {ok : Bool} {vs : List Verdict} {now : ℤ} {h : IOHandler} (hlines : h.lines = []) :
      (afterReceive ok vs now h).lines = [] := by
    cases ok with
    | false => exact hlines
    | true =>
        show pick .unsent h.lines vs = []
        rw [hlines]
        rfl
  have hscan {now : ℤ} {h : IOHandler} (hlines : h.lines = []) :
      (scanBuffer c now h).1.lines = [] := by
    obtain ⟨frames, hsp⟩ := scanBuffer_spec c now h
    have hbound := hsp.bound (by rw [hlines]; exact Nat.zero_le _)
    rw [hzero] at hbound
    exact List.length_eq_zero_iff.mp (Nat.le_zero.mp hbound)
  cases h with
  | resend | send => exact hreceive hs
  | readNothing | readFull =>
      rw [leaveReads_handler]
      exact hscan hs
  | readOn => exact hscan hs

theorem no_lines_tick (hzero : c.maxLineAtOnce = 0) (a : Tick) (u u' : Session)
    (hu : u.handler.lines = []) (h : tick c f a u = some u') : u'.handler.lines = [] := by
  cases a with
  | notify now =>
      obtain ⟨-, -, rfl⟩ := tick_notify h
      exact (lines_enter hzero now).1.trans hu
  | answer e =>
      obtain ⟨-, hstep, -⟩ := tick_answer h
      have hlines : (u'.control, u'.handler).2.lines = [] := no_lines_step hzero hu hstep
      exact hlines

/-- The loop goes round: a byte is in the buffer, or will be. -/
def Caught (c : Conf) (size : ℕ) (s : Control × IOHandler) : Prop :=
  s.1 = .read false ∧ s.2.lines = [] ∧
    (s.2.buffer ≠ [] ∨ s.2.filePos < size ∧ 0 < c.bufferMaxBytes)

/-- `fread` can bring the first byte. -/
theorem exists_fread (hsize : size ≤ f.content.length)
    (hbytes : h.buffer ≠ [] ∨ h.filePos < size ∧ 0 < c.bufferMaxBytes) :
    ∃ n, FreadOk c f h size n false ∧ (afterFread f size n false h).buffer ≠ [] := by
  refine ⟨_, freadOk_min hsize, fun hnil => ?_⟩
  obtain ⟨hold, hnew⟩ := List.append_eq_nil_iff.mp hnil
  rcases hbytes with hbuffer | ⟨hpos, hmax⟩
  · exact hbuffer hold
  · have hroom : room c h = c.bufferMaxBytes := room_of_nil hold
    have hlength := congrArg List.length hnew
    rw [List.length_take, List.length_drop, List.length_nil, hroom] at hlength
    unfold unread at hlength
    omega

theorem caught_step (hzero : c.maxLineAtOnce = 0) (hsize : size ≤ f.content.length)
    (hs : Caught c size s) :
    ∃ e s', Event.Calm size e ∧ step c f e s = some s' ∧ Caught c size s' := by
  obtain ⟨control, h⟩ := s
  obtain ⟨hread, hlines, hbytes⟩ := hs
  obtain rfl : control = .read false := hread
  obtain ⟨n, hok, hbuffer⟩ := exists_fread hsize hbytes
  obtain ⟨hbroke, hlines', hbuffer'⟩ := scanBuffer_full hzero 0 hbuffer
  have hcaught (b : Bool) (hb : b = true) :
      Caught c size (leaveReads b (scanBuffer c 0 (afterFread f size n false h)).1) := by
    have hnil := hlines'.trans hlines
    rw [leaveReads_of_nil hnil, hb]
    exact ⟨rfl, hnil, Or.inl (hbuffer'.symm ▸ hbuffer)⟩
  refine ⟨.fread size n false 0, ?_⟩
  simp only [step, if_pos hok]
  split
  · exact ⟨_, rfl, rfl, hcaught _ hbroke⟩
  · rw [if_pos (hzero ▸ Nat.zero_le _)]
    exact ⟨_, rfl, rfl, hcaught true rfl⟩

/-- Nothing is there to read. -/
theorem returns_of_empty (hsize : size ≤ f.content.length) (hlines : h.lines = [])
    (hbuffer : h.buffer = []) (hnothing : size ≤ h.filePos ∨ c.bufferMaxBytes = 0) :
    Returns c f size (.read false, h) := by
  refine .later (exists_calm hsize (by simp)) fun e s' he hstep => .here ?_
  have hzero {n : ℕ} {failed : Bool} (hok : FreadOk c f h size n failed) : n = 0 := by
    obtain ⟨-, hroom, hpos, -⟩ := hok
    by_contra hn
    rcases hnothing with hend | hmax
    · have := hpos (Nat.pos_of_ne_zero hn)
      omega
    · rw [room_of_nil hbuffer, hmax] at hroom
      exact hn (Nat.le_zero.mp hroom)
  cases step_cases hstep with
  | @readNothing visible failed _ now _ hok =>
      have hbuffer₁ : (afterFread f visible 0 failed h).buffer = [] := by
        rw [buffer_afterFread_zero, hbuffer]
      rw [scanBuffer, if_pos hbuffer₁]
      have hnil : (afterFread f visible 0 failed h).lines = [] := hlines
      rw [leaveReads_of_nil hnil]
      rfl
  | @readFull visible n failed _ _ _ hok hn =>
      obtain rfl : visible = size := he
      exact absurd (hzero hok) hn
  | @readOn visible n failed _ _ _ hok hn =>
      obtain rfl : visible = size := he
      exact absurd (hzero hok) hn

theorem returns_enter_iff (hzero : c.maxLineAtOnce = 0) (hsize : size ≤ f.content.length)
    (hlines : h.lines = []) (now : ℤ) : Returns c f size (enter c now h) ↔
      h.fileOpen = false ∨ h.buffer = [] ∧ (size ≤ h.filePos ∨ c.bufferMaxBytes = 0) := by
  obtain ⟨hlines', hbuffer', hpos'⟩ := @lines_enter c h hzero now
  by_cases hopen : h.fileOpen = true
  · have hread : (enter c now h).1 = .read false := by
      rcases enter_cases c now h with ⟨hclosed, -⟩ | ⟨-, -, heq⟩ | ⟨-, hsome, heq⟩
      · rw [hopen] at hclosed
        cases hclosed
      · rw [heq]
      · rw [heq] at hlines'
        exact absurd (hlines'.trans hlines) hsome
    have henter : enter c now h = (.read false, (enter c now h).2) := Prod.ext hread rfl
    constructor
    · intro hreturns
      right
      by_contra hnot
      refine not_ends_of_trap (I := Caught c size) (fun s hs => ⟨?_, caught_step hzero hsize hs⟩)
        ⟨hread, hlines'.trans hlines, ?_⟩ hreturns
      · rw [hs.1]
        simp
      · rw [hbuffer', hpos']
        by_cases hb : h.buffer = []
        · have hmore := not_and.mp hnot hb
          exact Or.inr ⟨by omega, by omega⟩
        · exact Or.inl hb
    · rintro (hclosed | ⟨hbuffer, hnothing⟩)
      · rw [hopen] at hclosed
        cases hclosed
      · rw [henter]
        exact returns_of_empty hsize (hlines'.trans hlines) (hbuffer'.trans hbuffer)
          (hpos'.symm ▸ hnothing)
  · have hclosed : h.fileOpen = false := by simpa using hopen
    refine iff_of_true (.here ?_) (Or.inl hclosed)
    rcases enter_cases c now h with ⟨-, heq⟩ | ⟨ho, -⟩ | ⟨ho, -⟩
    · rw [heq]
    · exact absurd ho hopen
    · exact absurd ho hopen

/-- **Whether `onNotify` comes to an end.**  For every entry of the log config
that is read, in every state of a handler made with its settings, a call on a
file of `size` bytes that does not grow returns whatever the callback leaves
unsent, if and only if the `batchsize` of the entry is not 0, or there is
nothing to read. -/
theorem onNotify_returns_iff (cfg : Config) (queueMax : UInt64) (unset : String → Bool) (P : Str)
    (logItem : Json) (tw : TailWatcher) (f : LogFile) (start stored : ℕ) (now₀ : ℤ)
    (ticks : List Tick) (u : Session) (now : ℤ) (size : ℕ)
    (hitem : readItem queueMax unset P logItem = some tw.conf)
    (hrun : run (tick (tw.ioConf cfg) f) ticks (Session.init start stored now₀) = some u)
    (hsize : size ≤ f.content.length) :
    Returns (tw.ioConf cfg) f size (enter (tw.ioConf cfg) now u.handler) ↔
      Setting.said queueMax unset logItem .batchsize ≠ .int 0 ∨ u.handler.fileOpen = false ∨
        u.handler.buffer = [] ∧ (size ≤ u.handler.filePos ∨ cfg.readMaxBytes.toUInt32 = 0) := by
  have hsaid : Setting.said queueMax unset logItem .batchsize
      = .int tw.conf.logConf.batchsize := (readItem_setting hitem .batchsize).symm
  rw [hsaid]
  by_cases hbatch : tw.conf.logConf.batchsize = 0
  · have hzero : (tw.ioConf cfg).maxLineAtOnce = 0 := by
      show tw.conf.logConf.batchsize.toUInt32.toNat = 0
      rw [hbatch]
      rfl
    have hlines : u.handler.lines = [] :=
      run_inv (fun a v v' hv h => no_lines_tick hzero a v v' hv h) ticks _ u rfl hrun
    have hmax : (tw.ioConf cfg).bufferMaxBytes = 0 ↔ cfg.readMaxBytes.toUInt32 = 0 :=
      UInt32.toNat_inj (b := 0)
    rw [returns_enter_iff hzero hsize hlines, hmax, hbatch]
    exact (or_iff_right fun h => h rfl).symm
  · have hroom : (tw.ioConf cfg).maxLineAtOnce ≠ 0 := by
      intro hzero
      have hzero : tw.conf.logConf.batchsize.toUInt32 = 0 := UInt32.toNat_inj.mp hzero
      exact hbatch (congrArg Int32.ofUInt32 hzero)
    refine iff_of_true (returns_of_room hroom hsize (orderly_enter now)) (Or.inl fun h => ?_)
    exact hbatch (Setting.Value.int.inj h)

/-- A watcher made with the entry of "/a", whose `batchsize` is `text`. -/
def batchWatcher (text : Str) : TailWatcher :=
  TailWatcher.init [] [] ⟨⟨[], []⟩, 0⟩
    ((readItem 100000 (fun _ => true) [47, 97] (.object [(ascii "topic", .string [116]),
      (ascii "batchsize", .string text)])).getD ⟨true, LogConf.new, KafkaTopicConf.new,
        FilterConf.new⟩)

/-- A file of one line. -/
def oneLine : LogFile := ⟨[97, 10], by decide⟩

/-- The file of one line, for the `batchsize` "7". -/
theorem onNotify_returns_iff_seven :
    Returns ((batchWatcher [55]).ioConf ⟨10000, 1048576, 2097152, 10⟩) oneLine 2
      (enter ((batchWatcher [55]).ioConf ⟨10000, 1048576, 2097152, 10⟩) 0 (IOHandler.init 0 0 0)) :=
  (onNotify_returns_iff ⟨10000, 1048576, 2097152, 10⟩ 100000 (fun _ => true) [47, 97]
    (.object [(ascii "topic", .string [116]), (ascii "batchsize", .string [55])])
    (batchWatcher [55]) oneLine 0 0 0 [] (Session.init 0 0 0) 0 2 rfl rfl (by decide)).mpr
    (Or.inl (by decide))

/-- The entry with the `batchsize` "0" is accepted, and the call does not return. -/
theorem onNotify_returns_fails :
    readItem 100000 (fun _ => true) [47, 97] (.object [(ascii "topic", .string [116]),
        (ascii "batchsize", .string [48])]) = some (batchWatcher [48]).conf ∧
      (batchWatcher [48]).conf.isLegal = true ∧
      ¬ Returns ((batchWatcher [48]).ioConf ⟨10000, 1048576, 2097152, 10⟩) oneLine 2
        (enter ((batchWatcher [48]).ioConf ⟨10000, 1048576, 2097152, 10⟩) 0
          (IOHandler.init 0 0 0)) := by
  refine ⟨rfl, rfl, fun h => ?_⟩
  have hzero : ((batchWatcher [48]).ioConf ⟨10000, 1048576, 2097152, 10⟩).maxLineAtOnce = 0 := rfl
  rcases (returns_enter_iff hzero (by decide) rfl 0).mp h with hclosed | ⟨-, hpos | hmax⟩
  · cases hclosed
  · exact absurd hpos (by decide)
  · exact absurd hmax (by decide)

end Logkafka.IOHandler
