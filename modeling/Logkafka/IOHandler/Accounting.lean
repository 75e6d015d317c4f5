/-
# `Logkafka.IOHandler.Accounting` — every line cut is in one place

`Tallied` is the invariant of a handler at every control point: the lines cut
so far are, each once, the lines the output took, the lines the filter dropped
and the lines in `m_lines`; and they start at different offsets, all before
the first byte of the buffer.

    Tallied.step, Tallied.enter     one step keeps it, from any control point
    tallied_run                     so every state of every call has it

No hypothesis on the answers is needed.  A callback that returns `false` takes
and drops nothing, and its batch stays in `m_lines`.
-/
import Logkafka.IOHandler.Step

namespace Logkafka

/-! ## Verdicts

The callback gives a verdict on each line of a batch.  Over all calls the lines
are sorted by them, and those without a verdict are in `m_lines`.
-/

/-- With a verdict for each line, a batch is its three parts. -/
theorem pick_perm : ∀ {ls : List Line} {vs : List Verdict}, vs.length = ls.length →
    ls.Perm (pick .taken ls vs ++ pick .dropped ls vs ++ pick .unsent ls vs)
  | [], [], _ => .refl _
  | [], _ :: _, h => by simp at h
  | _ :: _, [], h => by simp at h
  | l :: ls, v :: vs, h => by
      have hlen : vs.length = ls.length := by simpa using h
      have ih := pick_perm hlen
      cases v with
      | taken => simpa [pick] using ih
      | dropped =>
          simp only [pick, reduceCtorEq, if_false, if_true]
          refine (ih.cons l).trans ?_
          simp only [List.append_assoc, List.cons_append]
          exact List.perm_middle.symm
      | unsent =>
          simp only [pick, reduceCtorEq, if_false, if_true]
          exact (ih.cons l).trans List.perm_middle.symm

theorem pick_nil_iff {v : Verdict} : ∀ {ls : List Line} {vs : List Verdict},
    vs.length = ls.length → (pick v ls vs = [] ↔ v ∉ vs)
  | [], [], _ => by simp [pick]
  | [], _ :: _, h => by simp at h
  | _ :: _, [], h => by simp at h
  | l :: ls, w :: vs, h => by
      have hlen : vs.length = ls.length := by simpa using h
      have ih : pick v ls vs = [] ↔ v ∉ vs := pick_nil_iff hlen
      by_cases hw : w = v
      · simp [pick, hw]
      · simp [pick, hw, ih, Ne.symm hw]

/-- Where every line is taken, none is left unsent. -/
theorem pick_unsent_taken (ls : List Line) :
    pick .unsent ls (List.replicate ls.length .taken) = [] := by
  rw [pick_nil_iff List.length_replicate]
  intro hmem
  cases List.eq_of_mem_replicate hmem

namespace IOHandler

/-- The lines the output has taken. -/
def accepted (h : IOHandler) : List Line := h.calls.flatMap Call.accepted

/-- The lines the filter has dropped. -/
def filtered (h : IOHandler) : List Line := h.calls.flatMap Call.filtered

/-- Every line cut is in one place, and lines start at different places. -/
structure Tallied (h : IOHandler) : Prop where
  bufferLe : h.buffer.length ≤ h.filePos
  ordered : h.cut.Pairwise fun l l' => l.start < l'.start
  below : ∀ l ∈ h.cut, l.start < h.cutPos
  account : h.cut.Perm (h.accepted ++ h.filtered ++ h.lines)

theorem tallied_init (start stored : ℕ) (now : ℤ) : Tallied (init start stored now) where
  bufferLe := Nat.zero_le _
  ordered := List.Pairwise.nil
  below := by simp [init]
  account := by simp [init, accepted, filtered]

/-! ## One step keeps the account

Reading and scanning cut new lines, which start at or after the first byte of
the buffer; an answer moves lines from `m_lines` to the taken and the dropped.
-/

/-- `fread` brings as many bytes as it says. -/
theorem length_chunk {c : Conf} {f : LogFile} {h : IOHandler} {visible n : ℕ} {failed : Bool}
    (hok : FreadOk c f h visible n failed) : ((f.content.drop h.filePos).take n).length = n := by
  obtain ⟨hvis, -, hpos, -⟩ := hok
  rw [List.length_take, List.length_drop]
  rcases Nat.eq_zero_or_pos n with rfl | hn
  · exact Nat.zero_min _
  · have := hpos hn
    omega

/-- What `fread` brought stands behind what there was. -/
theorem length_afterFread {c : Conf} {f : LogFile} {h : IOHandler} {visible n : ℕ} {failed : Bool}
    (hok : FreadOk c f h visible n failed) :
    (afterFread f visible n failed h).buffer.length = h.buffer.length + n := by
  show (h.buffer ++ (f.content.drop h.filePos).take n).length = _
  rw [List.length_append, length_chunk hok]

theorem buffer_afterFread_zero (f : LogFile) (visible : ℕ) (failed : Bool) (h : IOHandler) :
    (afterFread f visible 0 failed h).buffer = h.buffer := by
  show h.buffer ++ (f.content.drop h.filePos).take 0 = h.buffer
  rw [List.take_zero, List.append_nil]

theorem cutPos_afterFread {c : Conf} {f : LogFile} {h : IOHandler} {visible n : ℕ} {failed : Bool}
    (hok : FreadOk c f h visible n failed) (hle : h.buffer.length ≤ h.filePos) :
    (afterFread f visible n failed h).cutPos = h.cutPos := by
  show h.filePos + n - (afterFread f visible n failed h).buffer.length
    = h.filePos - h.buffer.length
  rw [length_afterFread hok]
  omega

theorem Tallied.afterFread {c : Conf} {f : LogFile} {h : IOHandler} {visible n : ℕ} {failed : Bool}
    (hT : Tallied h) (hok : FreadOk c f h visible n failed) :
    Tallied (afterFread f visible n failed h) where
  bufferLe := by
    rw [length_afterFread hok]
    exact Nat.add_le_add_right hT.bufferLe n
  ordered := hT.ordered
  below := by
    rw [cutPos_afterFread hok hT.bufferLe]
    exact hT.below
  account := hT.account

theorem BufferScanned.cutPos {c : Conf} {now : ℤ} {h h' : IOHandler} {broke : Bool}
    {frames : List (List Byte)} (hs : BufferScanned c now h h' broke frames)
    (hle : h.buffer.length ≤ h.filePos) : h'.cutPos = h.cutPos + frames.flatten.length := by
  have hpos : h'.filePos = h.filePos := by rw [hs.same]
  have hlen := congrArg List.length hs.split
  rw [List.length_append] at hlen
  show h'.filePos - h'.buffer.length = h.filePos - h.buffer.length + _
  omega

theorem BufferScanned.tallied {c : Conf} {now : ℤ} {h h' : IOHandler} {broke : Bool}
    {frames : List (List Byte)} (hs : BufferScanned c now h h' broke frames) (hT : Tallied h) :
    Tallied h' := by
  have hpos : h'.filePos = h.filePos := by rw [hs.same]
  have hcalls : h'.calls = h.calls := by rw [hs.same]
  have hlen := congrArg List.length hs.split
  have hle := hT.bufferLe
  obtain ⟨hord, hin⟩ := @layout_starts c h.cutPos frames hs.nonempty
  rw [List.length_append] at hlen
  constructor
  · omega
  · rw [hs.cut_eq]
    refine List.pairwise_append.mpr ⟨hT.ordered, hord, fun l hl l' hl' => ?_⟩
    exact Nat.lt_of_lt_of_le (hT.below l hl) (hin l' hl').1
  · intro l hl
    rw [hs.cutPos hle]
    rw [hs.cut_eq] at hl
    rcases List.mem_append.mp hl with hl | hl
    · exact Nat.lt_of_lt_of_le (hT.below l hl) (Nat.le_add_right _ _)
    · exact (hin l hl).2
  · rw [accepted, filtered, hcalls, hs.cut_eq, hs.lines_eq, ← List.append_assoc]
    exact hT.account.append_right _

theorem Tallied.scanBuffer {h : IOHandler} (hT : Tallied h) (c : Conf) (now : ℤ) :
    Tallied (scanBuffer c now h).1 := by
  obtain ⟨frames, hs⟩ := scanBuffer_spec c now h
  exact hs.tallied hT

theorem Tallied.afterReceive {h : IOHandler} (hT : Tallied h) {vs : List Verdict}
    (hlen : vs.length = h.lines.length) (ok : Bool) (now : ℤ) :
    Tallied (afterReceive ok vs now h) where
  bufferLe := hT.bufferLe
  ordered := hT.ordered
  below := hT.below
  account := by
    have hacc := hT.account
    cases ok with
    | false => simpa [IOHandler.afterReceive, accepted, filtered, Call.accepted, Call.filtered]
        using hacc
    | true =>
        show h.cut.Perm (((h.calls ++ [_]).flatMap Call.accepted
          ++ (h.calls ++ [_]).flatMap Call.filtered) ++ pick .unsent h.lines vs)
        simp only [List.flatMap_append, List.flatMap_cons, List.flatMap_nil, List.append_nil,
          Call.accepted, Call.filtered, if_true]
        -- the batch splits into its three parts, which are then moved into place
        refine hacc.trans (((pick_perm hlen).append_left _).trans ?_)
        show (h.accepted ++ h.filtered ++ _).Perm (h.accepted ++ _ ++ (h.filtered ++ _) ++ _)
        simp only [List.append_assoc]
        refine List.Perm.append_left _ ?_
        rw [← List.append_assoc, ← List.append_assoc h.filtered]
        refine (List.perm_append_comm.append_right _).trans ?_
        simp [List.append_assoc]

theorem Tallied.handleUncleaned {h : IOHandler} (hT : Tallied h) (c : Conf) (now : ℤ) :
    Tallied (handleUncleaned c now h) := by
  have hle := hT.bufferLe
  rcases handleUncleaned_cases c now h with ⟨-, heq⟩ | ⟨hb, -, -, heq⟩ | ⟨-, heq⟩ <;> rw [heq]
  · exact hT
  · -- the whole buffer becomes one line, which starts where the buffer does
    have hpos : 0 < h.buffer.length := List.length_pos_iff.mpr hb
    have hcut : h.cutPos < h.filePos := by
      show h.filePos - h.buffer.length < h.filePos
      omega
    constructor
    · exact Nat.zero_le _
    · refine List.pairwise_append.mpr ⟨hT.ordered, List.pairwise_singleton _ _, ?_⟩
      intro l hl l' hl'
      obtain rfl := List.mem_singleton.mp hl'
      exact hT.below l hl
    · intro l hl
      show l.start < h.filePos
      rcases List.mem_append.mp hl with hl | hl
      · exact Nat.lt_trans (hT.below l hl) hcut
      · obtain rfl := List.mem_singleton.mp hl
        exact hcut
    · show (h.cut ++ [_]).Perm (h.accepted ++ h.filtered ++ (h.lines ++ [_]))
      rw [← List.append_assoc]
      exact hT.account.append_right _
  · exact ⟨hle, hT.ordered, hT.below, hT.account⟩

theorem enter_handler (c : Conf) (now : ℤ) (h : IOHandler) :
    (enter c now h).2 = if h.fileOpen then handleUncleaned c now h else h := by
  rcases enter_cases c now h with ⟨hopen, heq⟩ | ⟨hopen, -, heq⟩ | ⟨hopen, -, heq⟩
  · rw [heq, hopen]
    rfl
  · rw [heq, hopen]
    rfl
  · rw [heq, hopen]
    rfl

theorem Tallied.enter {h : IOHandler} (hT : Tallied h) (c : Conf) (now : ℤ) :
    Tallied (enter c now h).2 := by
  rw [enter_handler]
  split
  · exact hT.handleUncleaned c now
  · exact hT

@[simp] theorem leaveReads_handler (readMore : Bool) (h : IOHandler) :
    (leaveReads readMore h).2 = h := by
  unfold leaveReads
  split <;> rfl

theorem Tallied.step {c : Conf} {f : LogFile} {e : Event} {s s' : Control × IOHandler}
    (hT : Tallied s.2) (hs : step c f e s = some s') : Tallied s'.2 := by
  cases step_cases hs with
  | resend hlen => exact hT.afterReceive hlen _ _
  | readNothing hok =>
      rw [leaveReads_handler]
      exact (hT.afterFread hok).scanBuffer c _
  | readFull hok =>
      rw [leaveReads_handler]
      exact (hT.afterFread hok).scanBuffer c _
  | readOn hok => exact (hT.afterFread hok).scanBuffer c _
  | send hlen => exact hT.afterReceive hlen _ _

/-! ## Whole runs

From one step to a call, and from a call to any number of them.  What a call
cuts it does not take back, and a first resend that leaves lines unsent ends it.
-/

/-- One call of `onNotify`: the clock at its head and the answers it gets. -/
abbrev Notification := ℤ × List Event

/-- A call as a step of a run of calls. -/
def notify (c : Conf) (f : LogFile) (k : Notification) (h : IOHandler) : Option IOHandler :=
  onNotify c f k.1 k.2 h

theorem onNotify_eq_some {c : Conf} {f : LogFile} {now : ℤ} {es : List Event} {h h' : IOHandler} :
    onNotify c f now es h = some h' ↔
      run (IOHandler.step c f) es (IOHandler.enter c now h) = some (.returned, h') := by
  simp only [onNotify, Option.bind_eq_some_iff]
  constructor
  · rintro ⟨⟨ctl, h''⟩, hr, hret⟩
    split at hret
    · next hc =>
        obtain rfl := Option.some.inj hret
        have hc : ctl = .returned := hc
        rw [hr, hc]
    · cases hret
  · intro hr
    exact ⟨_, hr, rfl⟩

/-- In every state of a call the account is right. -/
theorem Tallied.partialCall {c : Conf} {f : LogFile} {now : ℤ} {es : List Event} {h : IOHandler}
    {s : Control × IOHandler} (hT : Tallied h)
    (hr : run (IOHandler.step c f) es (IOHandler.enter c now h) = some s) : Tallied s.2 :=
  run_inv (I := fun s => Tallied s.2) (fun _ _ _ hI hs => hI.step hs) es _ s (hT.enter c now) hr

theorem Tallied.onNotify {c : Conf} {f : LogFile} {now : ℤ} {es : List Event} {h h' : IOHandler}
    (hT : Tallied h) (hr : onNotify c f now es h = some h') : Tallied h' :=
  hT.partialCall (onNotify_eq_some.mp hr)

theorem tallied_run {c : Conf} {f : LogFile} {start stored : ℕ} {t : ℤ} {ks : List Notification}
    {h : IOHandler} (hr : run (notify c f) ks (init start stored t) = some h) : Tallied h :=
  run_inv (fun _ _ _ hI hs => hI.onNotify hs) ks _ h (tallied_init start stored t) hr

/-- The account as it reads from outside: the lines cut are, each once, the
lines taken, the lines dropped and the lines still held. -/
def Accounted (h : IOHandler) : Prop :=
  h.cut.Perm (h.accepted ++ h.filtered ++ h.lines) ∧
    (h.accepted ++ h.filtered ++ h.lines).Nodup

theorem Tallied.accounted {h : IOHandler} (hT : Tallied h) : Accounted h := by
  have hnodup : h.cut.Nodup := hT.ordered.imp fun hlt heq => by
    rw [heq] at hlt
    exact Nat.lt_irrefl _ hlt
  exact ⟨hT.account, hT.account.nodup_iff.mp hnodup⟩

/-- No step takes a line back: what was cut stays cut. -/
theorem step_cut_grows {c : Conf} {f : LogFile} {e : Event} {s s' : Control × IOHandler}
    (hs : IOHandler.step c f e s = some s') : s.2.cut <+: s'.2.cut := by
  have hscan : ∀ (now : ℤ) (h : IOHandler), h.cut <+: (IOHandler.scanBuffer c now h).1.cut := by
    intro now h
    obtain ⟨frames, hsp⟩ := scanBuffer_spec c now h
    exact hsp.cut_eq ▸ List.prefix_append _ _
  cases step_cases hs with
  | resend => exact List.prefix_refl _
  | readNothing => rw [leaveReads_handler]; exact hscan _ (IOHandler.afterFread _ _ _ _ _)
  | readFull => rw [leaveReads_handler]; exact hscan _ (IOHandler.afterFread _ _ _ _ _)
  | readOn => exact hscan _ (IOHandler.afterFread _ _ _ _ _)
  | send => exact List.prefix_refl _

theorem enter_cut_grows (c : Conf) (now : ℤ) (h : IOHandler) :
    h.cut <+: (IOHandler.enter c now h).2.cut := by
  rw [enter_handler]
  split
  · rcases handleUncleaned_cases c now h with ⟨-, heq⟩ | ⟨-, -, -, heq⟩ | ⟨-, heq⟩
    · rw [heq]
    · rw [heq]
      exact List.prefix_append _ _
    · rw [heq]
  · exact List.prefix_refl _

/-- A call neither opens nor closes the file. -/
theorem step_fileOpen {c : Conf} {f : LogFile} {e : Event} {s s' : Control × IOHandler}
    (hs : IOHandler.step c f e s = some s') : s'.2.fileOpen = s.2.fileOpen := by
  cases step_cases hs with
  | resend => rfl
  | readNothing =>
      rw [leaveReads_handler]
      exact scanBuffer_fileOpen c _ _
  | readFull =>
      rw [leaveReads_handler]
      exact scanBuffer_fileOpen c _ _
  | readOn => exact scanBuffer_fileOpen c _ _
  | send => rfl

theorem handleUncleaned_fileOpen (c : Conf) (now : ℤ) (h : IOHandler) :
    (IOHandler.handleUncleaned c now h).fileOpen = h.fileOpen := by
  rcases handleUncleaned_cases c now h with ⟨-, heq⟩ | ⟨-, -, -, heq⟩ | ⟨-, heq⟩ <;> rw [heq]

theorem onNotify_fileOpen {c : Conf} {f : LogFile} {now : ℤ} {es : List Event} {h h' : IOHandler}
    (hr : IOHandler.onNotify c f now es h = some h') : h'.fileOpen = h.fileOpen := by
  have hent : (IOHandler.enter c now h).2.fileOpen = h.fileOpen := by
    rw [enter_handler]
    split
    · exact handleUncleaned_fileOpen c now h
    · rfl
  exact run_inv (I := fun s : Control × IOHandler => s.2.fileOpen = h.fileOpen)
    (fun _ _ _ hI hs => (step_fileOpen hs).trans hI) es _ _ hent (onNotify_eq_some.mp hr)

/-- A first resend that leaves lines unsent ends the call: nothing is read and
nothing is cut after it. -/
theorem resend_unsent_returns {c : Conf} {f : LogFile} {ok : Bool} {vs : List Verdict} {now : ℤ}
    {es : List Event} {h : IOHandler} {s : Control × IOHandler}
    (hr : run (IOHandler.step c f) (.receive ok vs now :: es) (.resend, h) = some s)
    (hun : pick .unsent h.lines vs ≠ []) :
    es = [] ∧ s = (.returned, IOHandler.afterReceive ok vs now h) := by
  obtain ⟨s', hs, hr⟩ := run_cons_eq_some.mp hr
  obtain rfl : s' = (.returned, IOHandler.afterReceive ok vs now h) := by
    cases step_cases hs with
    | resend => rw [if_neg hun]
  cases es with
  | nil => exact ⟨rfl, by simpa using hr.symm⟩
  | cons e es => cases e <;> simp [run_cons, IOHandler.step] at hr

/-- Before a first resend no more is cut than the buffer, if it is flushed. -/
theorem cut_enter_of_resend {c : Conf} {now : ℤ} {h : IOHandler}
    (hres : (IOHandler.enter c now h).1 = .resend) :
    (IOHandler.enter c now h).2.cut
      = if flushes c now h then h.cut ++ [⟨h.cutPos, h.buffer⟩] else h.cut := by
  have hopen : h.fileOpen = true := by
    rcases enter_cases c now h with ⟨-, heq⟩ | ⟨hopen, -⟩ | ⟨hopen, -⟩
    · rw [heq] at hres
      cases hres
    · exact hopen
    · exact hopen
  rw [enter_handler, if_pos hopen, IOHandler.handleUncleaned]
  by_cases hnil : h.buffer = []
  · have hflush : flushes c now h = false := by simp [flushes, hnil]
    rw [if_pos hnil, hflush]
    rfl
  · rw [if_neg hnil]
    split <;> rfl

/-- **No loss and no duplication under back-pressure.**  After any calls, and
in every state of the next one, the lines cut so far are, each once, the lines
the output took, the lines the filter dropped and the lines in `m_lines`; what
was cut stays cut; and when the first resend of a call leaves lines unsent the
call returns, and has read nothing and cut nothing, but for the buffer that it
flushed as a line of its own before the resend. -/
theorem lines_accounted {c : Conf} {f : LogFile} {start stored : ℕ} {t : ℤ}
    {ks : List Notification} {h : IOHandler}
    (hr : run (notify c f) ks (init start stored t) = some h) :
    Accounted h ∧
      ∀ (now : ℤ) (es : List Event) (ctl : Control) (h' : IOHandler),
        run (IOHandler.step c f) es (IOHandler.enter c now h) = some (ctl, h') →
          Accounted h' ∧ h.cut <+: h'.cut ∧
          ∀ (ok : Bool) (vs : List Verdict) (t' : ℤ) (es' : List Event),
            es = .receive ok vs t' :: es' → (IOHandler.enter c now h).1 = .resend →
            pick .unsent (IOHandler.enter c now h).2.lines vs ≠ [] →
              es' = [] ∧ ctl = .returned ∧ h'.filePos = h.filePos ∧
                h'.cut = if flushes c now h then h.cut ++ [⟨h.cutPos, h.buffer⟩] else h.cut := by
  have hT := tallied_run hr
  refine ⟨hT.accounted, fun now es ctl h' hmid => ⟨(hT.partialCall hmid).accounted, ?_, ?_⟩⟩
  · refine run_inv (I := fun s => h.cut <+: s.2.cut) ?_ es _ _ (enter_cut_grows c now h) hmid
    exact fun _ _ _ hI hs => hI.trans (step_cut_grows hs)
  · rintro ok vs t' es' rfl hres hun
    have hent : IOHandler.enter c now h = (.resend, (IOHandler.enter c now h).2) :=
      Prod.ext hres rfl
    rw [hent] at hmid
    obtain ⟨rfl, hs⟩ := resend_unsent_returns hmid hun
    obtain ⟨rfl, rfl⟩ := Prod.mk.inj hs
    refine ⟨rfl, rfl, ?_, cut_enter_of_resend hres⟩
    show (IOHandler.enter c now h).2.filePos = h.filePos
    rw [enter_handler]
    split
    · rcases handleUncleaned_cases c now h with ⟨-, heq⟩ | ⟨-, -, -, heq⟩ | ⟨-, heq⟩ <;> rw [heq]
    · rfl

/-- Batches of two, lines of at most eight bytes, newline removed. -/
def smallConf : Conf :=
  { maxLineAtOnce := 2, lineMaxBytes := 8, bufferMaxBytes := 16, lineDelimiter := 10,
    removeDelimiter := true, maxLineAtOnce_lt := by decide, lineMaxBytes_lt := by decide,
    bufferMaxBytes_lt := by decide }

/-- Three lines and the beginning of a fourth. -/
def smallFile : LogFile := ⟨[97, 10, 98, 10, 99, 10, 100], by decide⟩

/-- The handler after a batch of two of which the second line came back. -/
def heldBack : IOHandler :=
  { fileOpen := true, filePos := 7, buffer := [99, 10, 100], bufferLastSegment := false,
    lines := [⟨2, [98]⟩], lastIoTime := 6, lastBufferStuckTime := 5, stored := 4,
    cut := [⟨0, [97]⟩, ⟨2, [98]⟩],
    calls := [⟨[⟨0, [97]⟩, ⟨2, [98]⟩], true, [.taken, .unsent]⟩], seen := 7 }

theorem lines_accounted_heldBack :
    Accounted heldBack ∧
      ∀ (ctl : Control) (h' : IOHandler),
        run (IOHandler.step smallConf smallFile) [.receive true [.unsent] 9]
          (IOHandler.enter smallConf 9 heldBack) = some (ctl, h') →
          ctl = .returned ∧ Accounted h' := by
  have hr : run (notify smallConf smallFile)
      [(5, [.fread 7 7 false 5, .receive true [.taken, .unsent] 6])] (init 0 0 0)
        = some heldBack := by
    decide
  have h := lines_accounted hr
  refine ⟨h.1, fun _ _ hmid => ?_⟩
  have hm := h.2 9 _ _ _ hmid
  exact ⟨(hm.2.2 true [.unsent] 9 [] rfl (by decide) (by decide)).2.1, hm.1⟩

/-- A line and the beginning of another. -/
def stuckFile : LogFile := ⟨[97, 10, 120, 121, 122], by decide⟩

/-- The buffer is flushed although the line before it stays unsent. -/
theorem lines_accounted_fails :
    ¬ ∀ (c : Conf) (f : LogFile) (start stored : ℕ) (t : ℤ) (ks : List Notification)
        (h h' : IOHandler) (now : ℤ) (vs : List Verdict) (t' : ℤ), 1 ≤ c.maxLineAtOnce →
      (∀ k ∈ ks, ∀ a ∈ answers k.2, a.1 = true) →
      run (notify c f) ks (init start stored t) = some h →
      IOHandler.onNotify c f now [.receive true vs t'] h = some h' →
      (IOHandler.enter c now h).1 = .resend →
      pick .unsent (IOHandler.enter c now h).2.lines vs ≠ [] → h'.cut = h.cut := by
  intro hcut
  have hbad := hcut smallConf stuckFile 0 0 0
    [(5, [.fread 5 5 false 5, .fread 5 0 false 5, .receive true [.unsent] 6])] _ _ 20
    [.unsent, .taken] 21 (by decide) (by simp [answers]) rfl rfl rfl (by decide)
  exact absurd hbad (by decide)

end IOHandler

end Logkafka
