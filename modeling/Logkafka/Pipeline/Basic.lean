/-
# `Logkafka.Pipeline.Basic` — from the file to the queue of librdkafka

The receive callback of a watcher's handler is `Manager::receiveLines`: the
filter takes lines out of the batch, `Producer::send` makes a message of each
other line, and those for which librdkafka has no room come back as strings,
which are the `m_lines` of the next call.

    m_lines  →  filter  →  createMessages  →  rd_kafka_produce_batch
       ↑                                               │
       └───── unsent_messages ── "queue full" ─────────┘

In the handler's own model the callback gives a verdict on each line.  Here the
verdicts are what filter and librdkafka make of the line (`verdicts`), and a
`Pipeline` has besides the handlers of a file the strings themselves, the heap that
the messages are made on, and what librdkafka took.
-/
import Logkafka.FilterRegex
import Logkafka.IOHandler.Order
import Logkafka.IOHandler.Pieces
import Logkafka.Producer

namespace Logkafka

open Memory Producer IOHandler

/-! ## The callback -/

/-- What a watcher's settings put behind the handler: the filter, if there is
one, and the key of the messages. -/
structure Outlet where
  filter : Option Pcre2Code
  key : Str

/-- What came of a call of the callback. -/
structure Received where
  ok : Bool
  /-- `unsent_lines` -/
  unsent : List Str
  /-- the messages librdkafka took -/
  produced : List Str
  /-- the error of each message -/
  errs : List RespErr
  heap : Heap Byte

/-- What librdkafka reads of the messages it took. -/
def takenMessages (heap : Heap Byte) : List (Rkmessage × RespErr) → Option (List Str)
  | [] => some []
  | (m, err) :: rest =>
      if err = .noError then
        (load heap m.payload m.len).bind fun msg => (takenMessages heap rest).map (msg :: ·)
      else takenMessages heap rest

namespace Outlet

/-- The filter leaves the line. -/
def keeps (o : Outlet) (line : Str) : Bool :=
  match o.filter with
  | none => true
  | some re => ¬ FilterRegex.Dropped re line

/-- `OutputKafka::output`; `none` where memory is read that is not there. -/
def output (o : Outlet) (batch : ProduceBatch) (lines : List Str) (heap : Heap Byte) :
    Option Received :=
  let created := createMessages o.key 0 lines heap
  let errs := batch.errs created.1 created.2
  (sendMessages batch lines [] o.key heap).bind fun sent =>
    (takenMessages created.2 (created.1.zip errs)).map fun produced =>
      ⟨sent.1, sent.2.1, produced, errs, sent.2.2⟩

/-- `Manager::receiveLines`, with what goes on behind it. -/
def receive (o : Outlet) (batch : ProduceBatch) (lines : List Str) (heap : Heap Byte) :
    Option Received :=
  let validLines := if o.filter.isSome then (FilterRegex.filter o.filter lines).2 else lines
  if validLines = [] then some ⟨true, [], [], [], heap⟩ else o.output batch validLines heap

/-- The verdicts on the lines of a batch, where librdkafka gave the errors `errs`
for those the filter left.  A message that it refused for another reason than a
full queue does not come back. -/
def verdicts (o : Outlet) : List Line → List RespErr → List Verdict
  | [], _ => []
  | l :: ls, errs =>
      if o.keeps l.text then
        (if errs.head? = some .queueFull then .unsent else .taken) :: verdicts o ls errs.tail
      else .dropped :: verdicts o ls errs

end Outlet

namespace Outlet

variable {o : Outlet} {batch : ProduceBatch} {lines : List Str} {heap : Heap Byte} {r : Received}
  {ls : List Line} {errs : List RespErr}

/-! ## What the callback does with text

The same in the words of the handler's model: which lines go, which are taken and
which come back.
-/

theorem filter_lines (o : Outlet) (lines : List Str) :
    (if o.filter.isSome then (FilterRegex.filter o.filter lines).2 else lines)
      = lines.filter o.keeps := by
  unfold keeps
  cases o.filter with
  | none => simp
  | some re =>
      rw [Option.isSome_some, if_pos rfl, FilterRegex.filter_eq]

/-- The callback as the model of the filter has it. -/
theorem receiveLines_of_receive (h : o.receive batch lines heap = some r) :
    Manager.receiveLines o.filter (some fun valid =>
      ((o.output batch valid heap).map fun r => (r.ok, r.unsent)).getD (false, [])) lines
        = (r.ok, r.unsent) := by
  unfold receive at h
  unfold Manager.receiveLines
  dsimp only at h ⊢
  rw [filter_lines] at h ⊢
  split at h
  · next hnil =>
      obtain rfl := Option.some.inj h
      exact if_pos hnil
  · next hnil => rw [if_neg hnil, h]; rfl

theorem takenMessages_eq {key : Str} {messages : List Str} {ms : List Rkmessage}
    (hcopied : List.Forall₂ (Copied key heap) messages ms)
    (hwhole : ∀ message ∈ messages, 0 ∉ message.dropLast) (errs : List RespErr) :
    takenMessages heap (ms.zip errs) = some (withErr .noError messages errs) := by
  induction hcopied generalizing errs with
  | nil => rfl
  | cons hm _ ih =>
      obtain ⟨hfirst, hrest⟩ := List.forall_mem_cons.mp hwhole
      cases errs with
      | nil => simp [takenMessages]
      | cons e errs =>
          rw [List.zip_cons_cons, takenMessages, withErr_cons, ih hrest]
          split
          · rw [(load_strndup_iff hm).mpr hfirst]
            rfl
          · rfl

/-- The call keeps to the heap, and the strings are those of the lines. -/
theorem exists_receive (o : Outlet) (batch : ProduceBatch) (heap : Heap Byte)
    (hwhole : ∀ line ∈ lines, 0 ∉ line.dropLast) :
    ∃ r, o.receive batch lines heap = some r ∧ r.ok = true ∧
      r.errs.length = (lines.filter o.keeps).length ∧
      r.unsent = withErr .queueFull (lines.filter o.keeps) r.errs ∧
      r.produced = withErr .noError (lines.filter o.keeps) r.errs := by
  unfold receive
  rw [filter_lines]
  dsimp only
  split
  · next hnil =>
      rw [hnil]
      exact ⟨_, rfl, rfl, rfl, rfl, rfl⟩
  · have hwhole : ∀ line ∈ lines.filter o.keeps, 0 ∉ line.dropLast := fun line hline =>
      hwhole line (List.mem_of_mem_filter hline)
    obtain ⟨-, heap', hsend⟩ := @faithful_of_whole o.key _ batch [] heap hwhole
    have hcopied := (createMessages_spec o.key (lines.filter o.keeps) 0 heap).2
    unfold output
    dsimp only at hsend ⊢
    rw [hsend, Option.bind_some, takenMessages_eq hcopied hwhole]
    refine ⟨_, rfl, rfl, ?_, rfl, rfl⟩
    rw [batch.length_errs, hcopied.length_eq]

theorem receive_spec (hwhole : ∀ line ∈ lines, 0 ∉ line.dropLast)
    (h : o.receive batch lines heap = some r) :
    r.ok = true ∧ r.errs.length = (lines.filter o.keeps).length ∧
      r.unsent = withErr .queueFull (lines.filter o.keeps) r.errs ∧
      r.produced = withErr .noError (lines.filter o.keeps) r.errs := by
  obtain ⟨r', hr', hspec⟩ := exists_receive o batch heap hwhole
  obtain rfl : r' = r := Option.some.inj (hr'.symm.trans h)
  exact hspec

/-! ## The verdicts

Of each line one of the three, so that the lists of the callback are picked out of
the batch.
-/

/-- The lines of a batch that go to librdkafka. -/
def kept (o : Outlet) (ls : List Line) : List Line := ls.filter fun l => o.keeps l.text

theorem kept_text (o : Outlet) (ls : List Line) :
    (o.kept ls).map Line.text = (ls.map Line.text).filter o.keeps := by
  rw [List.filter_map]
  rfl

theorem kept_append (o : Outlet) (ls ls' : List Line) :
    o.kept (ls ++ ls') = o.kept ls ++ o.kept ls' := List.filter_append ..

theorem length_verdicts (o : Outlet) (ls : List Line) (errs : List RespErr) :
    (o.verdicts ls errs).length = ls.length := by
  induction ls generalizing errs with
  | nil => rfl
  | cons l ls ih =>
      unfold verdicts
      split <;> rw [List.length_cons, ih, List.length_cons]

/-- What comes back, what is taken, and what the filter drops. -/
theorem pick_verdicts (hlen : errs.length = (o.kept ls).length) :
    pick .unsent ls (o.verdicts ls errs) = withErr .queueFull (o.kept ls) errs ∧
      (withErr .noError (o.kept ls) errs).Sublist (pick .taken ls (o.verdicts ls errs)) ∧
      (∀ l ∈ pick .taken ls (o.verdicts ls errs), o.keeps l.text = true) ∧
      pick .dropped ls (o.verdicts ls errs) = ls.filter fun l => !o.keeps l.text := by
  induction ls generalizing errs with
  | nil =>
      obtain rfl := List.length_eq_zero_iff.mp hlen
      simp [pick, kept]
  | cons l ls ih =>
      by_cases hkeep : o.keeps l.text = true
      · have hkept : o.kept (l :: ls) = l :: o.kept ls := List.filter_cons_of_pos hkeep
        rw [hkept] at hlen ⊢
        cases errs with
        | nil => cases hlen
        | cons e errs =>
            obtain ⟨hunsent, htaken, hkeeps, hdropped⟩ := @ih errs (Nat.succ.inj hlen)
            rw [withErr_cons, withErr_cons, verdicts, if_pos hkeep,
              List.filter_cons_of_neg (by simp [hkeep])]
            cases e with
            | queueFull => exact ⟨congrArg (l :: ·) hunsent, htaken, hkeeps, hdropped⟩
            | noError =>
                exact ⟨hunsent, htaken.cons_cons l, List.forall_mem_cons.mpr ⟨hkeep, hkeeps⟩,
                  hdropped⟩
            | other =>
                exact ⟨hunsent, htaken.cons l, List.forall_mem_cons.mpr ⟨hkeep, hkeeps⟩, hdropped⟩
      · have hkept : o.kept (l :: ls) = o.kept ls := List.filter_cons_of_neg hkeep
        rw [hkept] at hlen ⊢
        obtain ⟨hunsent, htaken, hkeeps, hdropped⟩ := ih hlen
        rw [verdicts, if_neg hkeep, List.filter_cons_of_pos (by simpa using hkeep)]
        exact ⟨hunsent, htaken, hkeeps, congrArg (l :: ·) hdropped⟩

end Outlet

/-! ## Lines and their places

A line is a piece of the file with its place, and its text is what the file has
there.
-/

/-- The text of a line is what the file has there. -/
def Line.InFile (f : LogFile) (l : Line) : Prop :=
  f.window l.start (l.start + l.text.length) = l.text

theorem LogFile.window_middle {f : LogFile} {a b : ℕ} {xs ys zs : List Byte}
    (h : f.window a b = xs ++ (ys ++ zs)) :
    f.window (a + xs.length) (a + xs.length + ys.length) = ys := by
  have hdrop : (f.content.drop (a + xs.length)).take (b - a - xs.length) = ys ++ zs := by
    rw [← List.drop_drop, ← List.drop_take]
    show (f.window a b).drop xs.length = _
    rw [h, List.drop_left]
  have hle : ys.length ≤ b - a - xs.length := by
    have hlen := congrArg List.length hdrop
    rw [List.length_take, List.length_append] at hlen
    omega
  rw [LogFile.window, Nat.add_sub_cancel_left, ← Nat.min_eq_left hle, ← List.take_take, hdrop,
    List.take_left]

namespace IOHandler

variable {c : Conf} {f : LogFile} {h : IOHandler} {start : ℕ} {stuck : List Line}
  {ps : List (List Byte × Bool)} {l : Line}

theorem strip_cases (c : Conf) (fr : List Byte) :
    strip c fr = fr ∨ strip c fr ++ [c.lineDelimiter] = fr := by
  unfold strip
  split
  · next h => exact Or.inr (List.dropLast_append_getLast? _ h.2)
  · exact Or.inl rfl

theorem mem_lay {q : Line × Bool} {pos : ℕ} (h : q ∈ lay c pos ps) : ∃ pre p post,
    ps = pre ++ p :: post ∧ q = (⟨pos + (bytes pre).length, strip c p.1⟩, p.2) := by
  induction ps generalizing pos with
  | nil => cases h
  | cons p ps ih =>
      rcases List.mem_cons.mp h with rfl | h
      · exact ⟨[], p, ps, rfl, rfl⟩
      · obtain ⟨pre, p', post, rfl, rfl⟩ := ih h
        refine ⟨p :: pre, p', post, rfl, ?_⟩
        rw [bytes_cons, List.length_append, Nat.add_assoc]

/-- A line that was cut is where it says, and has the delimiter at its end only. -/
theorem Pieced.line (hP : Pieced c f start h stuck ps) (hl : l ∈ h.cut) :
    l.InFile f ∧ c.lineDelimiter ∉ l.text.dropLast := by
  rw [hP.cut_eq] at hl
  obtain ⟨q, hq, rfl⟩ := List.mem_map.mp hl
  obtain ⟨pre, p, post, hps, rfl⟩ := mem_lay hq
  have hp := (hP.pieces p (by simp [hps])).not_mem_dropLast
  have hread := hP.read
  rw [hps, bytes_append, bytes_cons] at hread
  rcases strip_cases c p.1 with hsame | hrest
  · rw [hsame]
    exact ⟨LogFile.window_middle (by simpa using hread), hp⟩
  · rw [← hrest] at hread hp
    rw [List.dropLast_concat] at hp
    exact ⟨LogFile.window_middle (by simpa using hread), fun h => hp (List.mem_of_mem_dropLast h)⟩

/-- A tick cuts pieces. -/
theorem Pieced.tick {a : Tick} {s s' : Session} (hP : Pieced c f start s.handler stuck ps)
    (hl : Limited c s.handler) (hs : tick c f a s = some s') :
    ∃ stuck' ps', Pieced c f start s'.handler stuck' ps' := by
  cases a with
  | notify now =>
      obtain ⟨-, -, rfl⟩ := tick_notify hs
      exact ⟨_, hP.enter hl rfl⟩
  | answer e =>
      obtain ⟨-, hstep, -⟩ := tick_answer hs
      exact ⟨stuck, hP.step hstep⟩

/-! ## What the handler does between two calls of the callback

It cuts lines and adds them to `m_lines`; that is all that the pipeline sees of
it.
-/

/-- Lines are added to `m_lines`, and nothing is sent or stored. -/
structure Gathers (h h' : IOHandler) : Prop where
  lines : h.lines <+: h'.lines
  calls : h'.calls = h.calls
  stored : h'.stored = h.stored

theorem gathers_read (c : Conf) (f : LogFile) (visible n : ℕ) (failed : Bool) (now : ℤ)
    (h : IOHandler) : Gathers h (scanBuffer c now (afterFread f visible n failed h)).1 := by
  obtain ⟨frames, hs⟩ := scanBuffer_spec c now (afterFread f visible n failed h)
  refine ⟨?_, by rw [hs.same]; rfl, by rw [hs.same]; rfl⟩
  rw [hs.lines_eq]
  exact List.prefix_append _ _

theorem gathers_notify {now : ℤ} {s s' : Session}
    (hs : IOHandler.tick c f (.notify now) s = some s') : Gathers s.handler s'.handler := by
  obtain ⟨-, -, rfl⟩ := tick_notify hs
  show Gathers s.handler (enter c now s.handler).2
  rw [enter_handler]
  split
  · have hlines := lines_handleUncleaned c now s.handler
    rcases handleUncleaned_cases c now s.handler with ⟨-, heq⟩ | ⟨-, -, -, heq⟩ | ⟨-, heq⟩ <;>
      rw [heq] at hlines ⊢ <;> exact ⟨hlines, rfl, rfl⟩
  · exact ⟨List.prefix_refl _, rfl, rfl⟩

theorem gathers_step {visible n : ℕ} {failed : Bool} {now : ℤ} {r r' : Control × IOHandler}
    (hs : Step c f (.fread visible n failed now) r r') : Gathers r.2 r'.2 := by
  cases hs with
  | readNothing _ =>
      rw [leaveReads_handler]
      exact gathers_read c f _ _ _ _ _
  | readFull _ _ _ =>
      rw [leaveReads_handler]
      exact gathers_read c f _ _ _ _ _
  | readOn _ _ _ => exact gathers_read c f _ _ _ _ _

theorem gathers_fread {visible n : ℕ} {failed : Bool} {now : ℤ} {s s' : Session}
    (hs : IOHandler.tick c f (.answer (.fread visible n failed now)) s = some s') :
    Gathers s.handler s'.handler :=
  gathers_step (tick_answer hs).2.1

/-- The handler stands before a call of the callback. -/
def Session.Waiting (s : Session) : Prop :=
  s.control = .resend ∨ ∃ readMore, s.control = .send readMore

theorem receive_step {ok : Bool} {vs : List Verdict} {now : ℤ} {r r' : Control × IOHandler}
    (hs : Step c f (.receive ok vs now) r r') :
    vs.length = r.2.lines.length ∧ r'.2 = afterReceive ok vs now r.2 := by
  cases hs with
  | resend hlen => exact ⟨hlen, rfl⟩
  | send hlen => exact ⟨hlen, rfl⟩

theorem exists_receive_tick {vs : List Verdict} {now : ℤ} {s : Session} (hw : s.Waiting)
    (hlen : vs.length = s.handler.lines.length) (hclock : s.clock ≤ now) (ok : Bool) :
    ∃ s', IOHandler.tick c f (.answer (.receive ok vs now)) s = some s' := by
  have hstep : ∃ r, step c f (.receive ok vs now) (s.control, s.handler) = some r := by
    rcases hw with hctl | ⟨readMore, hctl⟩
    · rw [hctl, step, if_pos hlen]
      split
      · exact ⟨_, rfl⟩
      · exact ⟨_, rfl⟩
    · rw [hctl, step, if_pos hlen]
      exact ⟨_, rfl⟩
  obtain ⟨r, hr⟩ := hstep
  obtain ⟨s', hs', -⟩ := exists_tick_answer (e := .receive ok vs now) hclock hr
  exact ⟨s', hs'⟩

end IOHandler

/-! ## The pipeline

Handler, strings, heap and queue together, and what a step of the whole can be.
-/

/-- The handlers of a file, with what is behind them. -/
structure Pipeline where
  handlers : Handlers
  /-- `m_lines`, as strings -/
  strings : List Str
  heap : Heap Byte
  /-- the messages librdkafka took, in the order in which it took them -/
  produced : List Str

inductive Happening
  /-- `onNotify` is called -/
  | notify (now : ℤ)
  /-- `fread` returns -/
  | fread (visible n : ℕ) (failed : Bool) (now : ℤ)
  /-- the callback is called, and librdkafka answers with `batch` -/
  | send (batch : ProduceBatch) (now : ℤ)
  /-- the process is gone, and the next one makes a handler of the same file -/
  | restart (now : ℤ)

namespace Pipeline

def init (start : ℕ) (now : ℤ) : Pipeline := ⟨Handlers.init start now, [], [], []⟩

abbrev handler (p : Pipeline) : IOHandler := p.handlers.session.handler

/-- The strings of the lines that were added. -/
def grown (p : Pipeline) (s : Handlers) : Pipeline :=
  { p with
    handlers := s
    strings := p.strings ++ (s.session.handler.lines.drop p.handler.lines.length).map Line.text }

/-- One step of the pipeline; `none` also where memory is read that is not there. -/
def step (c : Conf) (f : LogFile) (o : Outlet) : Happening → Pipeline → Option Pipeline
  | .notify now, p => (incident c f (.tick (.notify now)) p.handlers).map p.grown
  | .fread visible n failed now, p =>
      (incident c f (.tick (.answer (.fread visible n failed now))) p.handlers).map p.grown
  | .send batch now, p =>
      (o.receive batch p.strings p.heap).bind fun r =>
        (incident c f
          (.tick (.answer (.receive r.ok (o.verdicts p.handler.lines r.errs) now))) p.handlers).map
            fun s => ⟨s, if r.ok then r.unsent else p.strings, r.heap, p.produced ++ r.produced⟩
  | .restart now, p =>
      (incident c f (.restart now) p.handlers).map fun s => ⟨s, [], [], p.produced⟩

variable {c : Conf} {f : LogFile} {o : Outlet} {p p' : Pipeline}

/-- What a step can be. -/
inductive Stepped (c : Conf) (f : LogFile) (o : Outlet) (p : Pipeline) : Happening → Pipeline → Prop
  | notify {now : ℤ} {s : Handlers} :
      incident c f (.tick (.notify now)) p.handlers = some s →
      Stepped c f o p (.notify now) (p.grown s)
  | fread {visible n : ℕ} {failed : Bool} {now : ℤ} {s : Handlers} :
      incident c f (.tick (.answer (.fread visible n failed now))) p.handlers = some s →
      Stepped c f o p (.fread visible n failed now) (p.grown s)
  | send {batch : ProduceBatch} {now : ℤ} {r : Received} {s : Handlers} :
      o.receive batch p.strings p.heap = some r →
      incident c f (.tick (.answer (.receive r.ok (o.verdicts p.handler.lines r.errs) now)))
        p.handlers = some s →
      Stepped c f o p (.send batch now)
        ⟨s, if r.ok then r.unsent else p.strings, r.heap, p.produced ++ r.produced⟩
  | restart {now : ℤ} {s : Handlers} :
      incident c f (.restart now) p.handlers = some s →
      Stepped c f o p (.restart now) ⟨s, [], [], p.produced⟩

theorem step_cases {e : Happening} (hs : step c f o e p = some p') : Stepped c f o p e p' := by
  cases e with
  | notify now =>
      obtain ⟨s, hinc, rfl⟩ := Option.map_eq_some_iff.mp hs
      exact .notify hinc
  | fread visible n failed now =>
      obtain ⟨s, hinc, rfl⟩ := Option.map_eq_some_iff.mp hs
      exact .fread hinc
  | send batch now =>
      obtain ⟨r, hreceive, hs⟩ := Option.bind_eq_some_iff.mp hs
      obtain ⟨s, hinc, rfl⟩ := Option.map_eq_some_iff.mp hs
      exact .send hreceive hinc
  | restart now =>
      obtain rfl := Option.some.inj hs
      exact .restart rfl

end Pipeline

end Logkafka
