/-
# `Logkafka.IOHandler.Basic` — the reading loop of one log file

`IOHandler::onNotify` (io_handler.cc) reads an open log file in chunks, cuts
the chunks into lines, hands the lines over in batches through a receive
callback and stores the position reached in the position entry.

The function talks to its environment at three places: two calls of the
receive callback and one `fread`.  Between two of these calls it is plain
sequential code, so it is given here as a machine whose control points are the
calls it waits for:

    resend     `(*m_receive_func)(.., m_lines, unsent_lines)`, lines of an earlier call
    read       `fread(m_buffer + m_buffer_len, 1, m_buffer_max_bytes - m_buffer_len, m_file)`
    send       `(*m_receive_func)(.., m_lines, unsent_lines)`, after the inner loop
    returned   the call is over

`enter` is the code from the head of the function to its first call, `step`
the code from one call to the next.  `read` and `send` carry the local
variable `read_more`.  A call of `onNotify` is then a list of the answers the
environment gave, all of them used; nothing bounds their number, so a call
that does not return is a call with no such list.

Four fields of `IOHandler` are not members of the class.  `stored` is the
position `m_position_entry` holds; `cut`, `calls` and `seen` record what
happened (the lines cut so far, the batches handed over with their answers,
the file size the last `fread` met) and no branch reads them.  Likewise a
`Line` carries the file offset of its first byte, which the class does not
keep.
-/
import Logkafka.Run
import Logkafka.Tools
import Mathlib.Data.Int.Basic
import Mathlib.Tactic.Common

namespace Logkafka

/-- The contents of a log file: every byte it has or is going to have. -/
structure LogFile where
  content : List Byte
  /-- `off_t` can address every byte. -/
  length_lt : content.length < 2 ^ 63

/-- A line of `m_lines`, with the offset of the byte it starts at. -/
structure Line where
  start : ℕ
  text : List Byte
deriving DecidableEq

/-- What became of one line of a batch. -/
inductive Verdict
  /-- the output took it -/
  | taken
  /-- the filter dropped it -/
  | dropped
  /-- it came back in `unsent_lines` -/
  | unsent
deriving DecidableEq

/-- The lines of a batch with a given verdict, in their order. -/
def pick (v : Verdict) : List Line → List Verdict → List Line
  | l :: ls, w :: ws => if w = v then l :: pick v ls ws else pick v ls ws
  | _, _ => []

/-- One call of the receive callback: the batch, the return value and what
became of each line. -/
structure Call where
  batch : List Line
  ok : Bool
  verdicts : List Verdict
deriving DecidableEq

/-- The lines the output took in a call; a call that returned `false` counts
for nothing. -/
def Call.accepted (k : Call) : List Line :=
  if k.ok then pick .taken k.batch k.verdicts else []

/-- The lines the filter dropped in a call. -/
def Call.filtered (k : Call) : List Line :=
  if k.ok then pick .dropped k.batch k.verdicts else []

/-- The lines a call handed over for good. -/
def Call.delivered (k : Call) : List Line :=
  if k.ok then k.batch else []

namespace IOHandler

/-- The parameters of `IOHandler::init`; all three sizes are `unsigned int`. -/
structure Conf where
  maxLineAtOnce : ℕ
  lineMaxBytes : ℕ
  bufferMaxBytes : ℕ
  lineDelimiter : Byte
  removeDelimiter : Bool
  maxLineAtOnce_lt : maxLineAtOnce < 2 ^ 32
  lineMaxBytes_lt : lineMaxBytes < 2 ^ 32
  bufferMaxBytes_lt : bufferMaxBytes < 2 ^ 32

/-- `m_buffer_stuck_max_ms`, set by `IOHandler::init`. -/
def bufferStuckMaxMs : ℕ := 10000

end IOHandler

/-- An `IOHandler` object, the position it stores and the record of its run. -/
structure IOHandler where
  /-- `NULL != m_file` -/
  fileOpen : Bool
  /-- `ftell(m_file)` -/
  filePos : ℕ
  /-- the first `m_buffer_len` bytes of `m_buffer` -/
  buffer : List Byte
  bufferLastSegment : Bool
  lines : List Line
  lastIoTime : ℤ
  lastBufferStuckTime : ℤ
  stored : ℕ
  cut : List Line
  calls : List Call
  seen : ℕ
deriving DecidableEq

namespace IOHandler

/-- The handler `IOHandler::init` makes of a file that stands at offset
`start`, with the position `stored` in its entry. -/
def init (start stored : ℕ) (now : ℤ) : IOHandler :=
  { fileOpen := true, filePos := start, buffer := [], bufferLastSegment := false,
    lines := [], lastIoTime := now, lastBufferStuckTime := 0,
    stored := stored, cut := [], calls := [], seen := start }

/-- `getFilePos()` -/
def getFilePos (h : IOHandler) : ℕ :=
  if h.fileOpen then h.filePos else 0

/-- The offset of the first byte of `m_buffer`: what was cut ends here. -/
def cutPos (h : IOHandler) : ℕ := h.filePos - h.buffer.length

/-- `(cur_tv.tv_sec - last.tv_sec) * 1000UL`: the product is unsigned. -/
def elapsedMs (cur last : ℤ) : ℕ := ((cur - last) * 1000 % 2 ^ 64).toNat

/-- `isBufferStuck()` -/
def isBufferStuck (now : ℤ) (h : IOHandler) : Bool :=
  elapsedMs now h.lastBufferStuckTime > bufferStuckMaxMs

/-! ## The scanning loop

The loop over the buffer cuts lines until the buffer or the batch is done, and
moves what is left over to the head.
-/

/-- What the `for` loop over the buffer leaves behind. -/
structure Scan where
  /-- `m_lines` -/
  lines : List Line
  /-- `cur_buf_pos` -/
  curBufPos : ℕ
  /-- the loop was left by `break` -/
  broke : Bool
deriving DecidableEq

/-- The `for` loop.  `cur` is `m_buffer[cur_buf_pos, i)`, the list argument is
`m_buffer[i, m_buffer_len)`, and `base` the file offset of `m_buffer[0]`. -/
def scan (c : Conf) (base : ℕ) (lines : List Line) (curBufPos : ℕ) (cur : List Byte) :
    List Byte → Scan
  | [] => ⟨lines, curBufPos, false⟩
  | b :: rest =>
      if c.maxLineAtOnce ≤ lines.length then
        ⟨lines, curBufPos, true⟩
      else if b = c.lineDelimiter then
        scan c base
          (lines ++ [⟨base + curBufPos, if c.removeDelimiter then cur else cur ++ [b]⟩])
          (curBufPos + (cur.length + 1)) [] rest
      else if c.lineMaxBytes ≤ cur.length + 1 then
        scan c base (lines ++ [⟨base + curBufPos, cur ++ [b]⟩])
          (curBufPos + (cur.length + 1)) [] rest
      else
        scan c base lines curBufPos (cur ++ [b]) rest

/-- The block `if (0 != ioh->m_buffer_len)` of the inner loop: scan the buffer
and move what is left to its head.  The Boolean is `read_more`, as the scan
sets it. -/
def scanBuffer (c : Conf) (now : ℤ) (h : IOHandler) : IOHandler × Bool :=
  if h.buffer = [] then (h, false)
  else
    let r := scan c h.cutPos h.lines 0 [] h.buffer
    let left := h.buffer.drop r.curBufPos
    ({ h with
        lines := r.lines
        cut := h.cut ++ r.lines.drop h.lines.length
        buffer := left
        bufferLastSegment := !r.broke
        lastBufferStuckTime := if left = [] then h.lastBufferStuckTime else now },
     r.broke)

/-! ## The environment

What can come back from the three calls, and what the code does with it before
it looks at anything else.
-/

/-- One answer of the environment, with the clock at that moment. -/
inductive Event
  /-- `fread` of a file of which `visible` bytes exist returned `n` bytes;
  `failed` when `ferror` is set -/
  | fread (visible n : ℕ) (failed : Bool) (now : ℤ)
  /-- the receive callback returned `ok` -/
  | receive (ok : Bool) (verdicts : List Verdict) (now : ℤ)
deriving DecidableEq

/-- The answers of the receive callback among the events of a call, in order. -/
def answers : List Event → List (Bool × List Verdict)
  | [] => []
  | .receive ok vs _ :: es => (ok, vs) :: answers es
  | .fread _ _ _ _ :: es => answers es

theorem answers_receive (ok : Bool) (vs : List Verdict) (t : ℤ) (es : List Event) :
    answers (.receive ok vs t :: es) = (ok, vs) :: answers es := rfl

theorem answers_fread (visible n : ℕ) (failed : Bool) (t : ℤ) (es : List Event) :
    answers (.fread visible n failed t :: es) = answers es := rfl

/-- A condition on the answers of the callback, as one on events. -/
def Event.Answers (P : Bool × List Verdict → Prop) : Event → Prop
  | .receive ok vs _ => P (ok, vs)
  | .fread _ _ _ _ => True

theorem forall_answers {P : Bool × List Verdict → Prop} :
    ∀ {es : List Event}, (∀ a ∈ answers es, P a) → ∀ e ∈ es, e.Answers P
  | [], _, _, he => absurd he List.not_mem_nil
  | .fread _ _ _ _ :: es, h, e, he => by
      have h : ∀ a ∈ answers es, P a := h
      rcases List.mem_cons.mp he with rfl | he
      · trivial
      · exact forall_answers h e he
  | .receive _ _ _ :: _, h, e, he => by
      rcases List.mem_cons.mp he with rfl | he
      · exact h _ List.mem_cons_self
      · exact forall_answers (fun a ha => h a (List.mem_cons_of_mem _ ha)) e he

/-- `m_buffer_max_bytes - m_buffer_len`, a `size_t`. -/
def room (c : Conf) (h : IOHandler) : ℕ :=
  (c.bufferMaxBytes + 2 ^ 64 - h.buffer.length) % 2 ^ 64

/-- What `fread` may return: at most what there is room for and what the file
has, and nothing only at the end of the file, without room, or on an error.
The end-of-file indicator of the stream is not kept: an `fread` that returns
nothing because the indicator is still set is one that finds nothing new. -/
def FreadOk (c : Conf) (f : LogFile) (h : IOHandler) (visible n : ℕ) (failed : Bool) : Prop :=
  visible ≤ f.content.length ∧ n ≤ room c h ∧ (0 < n → h.filePos + n ≤ visible) ∧
    (n = 0 → room c h = 0 ∨ visible ≤ h.filePos ∨ failed)

instance (c : Conf) (f : LogFile) (h : IOHandler) (visible n : ℕ) (failed : Bool) :
    Decidable (FreadOk c f h visible n failed) := by
  unfold FreadOk; infer_instance

/-- The handler after `fread` returned `n` bytes. -/
def afterFread (f : LogFile) (visible n : ℕ) (failed : Bool) (h : IOHandler) : IOHandler :=
  { h with
      filePos := h.filePos + n
      buffer := h.buffer ++ (f.content.drop h.filePos).take n
      seen := if failed then h.filePos else visible }

/-- The handler after the receive callback answered: on success the position
is stored and the unsent lines are kept. -/
def afterReceive (ok : Bool) (verdicts : List Verdict) (now : ℤ) (h : IOHandler) : IOHandler :=
  { h with
      lastIoTime := now
      calls := h.calls ++ [⟨h.lines, ok, verdicts⟩]
      stored := if ok then h.getFilePos - h.buffer.length else h.stored
      lines := if ok then pick .unsent h.lines verdicts else h.lines }

/-! ## onNotify -/

/-- Where `onNotify` waits for its environment. -/
inductive Control
  | resend
  | read (readMore : Bool)
  | send (readMore : Bool)
  | returned
deriving DecidableEq

/-- The condition under which a call flushes the buffer as a line of its own. -/
def flushes (c : Conf) (now : ℤ) (h : IOHandler) : Bool :=
  h.buffer ≠ [] && h.lines.length < c.maxLineAtOnce &&
    (isBufferStuck now h && h.bufferLastSegment)

/-- "handle last uncleaned buffer" -/
def handleUncleaned (c : Conf) (now : ℤ) (h : IOHandler) : IOHandler :=
  if h.buffer = [] then h
  else if flushes c now h then
    { h with
        lastIoTime := now
        lines := h.lines ++ [⟨h.cutPos, h.buffer⟩]
        cut := h.cut ++ [⟨h.cutPos, h.buffer⟩]
        buffer := [] }
  else { h with lastIoTime := now }

/-- `onNotify` from its head to its first call. -/
def enter (c : Conf) (now : ℤ) (h : IOHandler) : Control × IOHandler :=
  if h.fileOpen then
    let h := handleUncleaned c now h
    if h.lines = [] then (.read false, h) else (.resend, h)
  else (.returned, h)

/-- The end of the inner loop: send what there is, or go on with the
`do .. while (read_more)`. -/
def leaveReads (readMore : Bool) (h : IOHandler) : Control × IOHandler :=
  if h.lines = [] then (if readMore then .read false else .returned, h)
  else (.send readMore, h)

/-- `onNotify` from one call to the next. -/
def step (c : Conf) (f : LogFile) : Event → Control × IOHandler → Option (Control × IOHandler)
  | .receive ok verdicts now, (.resend, h) =>
      if verdicts.length = h.lines.length then
        let h' := afterReceive ok verdicts now h
        -- unsent lines found, we have to return
        if pick .unsent h.lines verdicts = [] then some (.read false, h') else some (.returned, h')
      else none
  | .fread visible n failed now, (.read readMore, h) =>
      if FreadOk c f h visible n failed then
        let (h', broke) := scanBuffer c now (afterFread f visible n failed h)
        let readMore := readMore || broke
        if n = 0 then some (leaveReads readMore h')
        else if c.maxLineAtOnce ≤ h'.lines.length then some (leaveReads true h')
        else some (.read readMore, h')
      else none
  | .receive ok verdicts now, (.send readMore, h) =>
      if verdicts.length = h.lines.length then
        let h' := afterReceive ok verdicts now h
        -- unsent lines found, read no more
        let readMore := if pick .unsent h.lines verdicts = [] then readMore else false
        some (if readMore then .read false else .returned, h')
      else none
  | _, _ => none

/-- The call with the answers `es`, all of them used, when it has returned. -/
def onNotify (c : Conf) (f : LogFile) (now : ℤ) (es : List Event) (h : IOHandler) :
    Option IOHandler :=
  (run (step c f) es (enter c now h)).bind fun s =>
    if s.1 = .returned then some s.2 else none

/-- `close()` -/
def close (h : IOHandler) : IOHandler := { h with fileOpen := false }

end IOHandler

end Logkafka
