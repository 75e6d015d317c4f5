/-
# `Logkafka.Pipeline.Once` — the messages are lines of the file, and none comes twice

`Sound` is what every step of a pipeline keeps: the strings are those of the
handler's lines, and each message that librdkafka took is the text of a line of
its own, in the place of the file where the line says it is.

    m_lines       strings.map = lines.map text      so no string is confused
    produced      sent.map text, `sent` taken       so no line is sent twice

What can go wrong on the way is the copy that `strndup` makes: it ends at the
first zero byte.  In a file of text (`Text`) every line is copied whole.
-/
import Logkafka.Pipeline.Basic

namespace Logkafka.Pipeline

open Memory Producer IOHandler

variable {c : Conf} {f : LogFile} {o : Outlet} {p p' : Pipeline}

/-- No zero byte but those that end lines. -/
def Text (c : Conf) (f : LogFile) : Prop := c.lineDelimiter = 0 ∨ 0 ∉ f.content

/-- What every pipeline keeps. -/
structure Sound (c : Conf) (f : LogFile) (o : Outlet) (p : Pipeline) : Prop where
  placed : Placed p.handlers.past p.handler
  limited : Limited c p.handler
  pieced : ∃ start stuck ps, Pieced c f start p.handler stuck ps
  strings : p.strings = p.handler.lines.map Line.text
  sent : ∃ sent : List Line, p.produced = sent.map Line.text ∧ sent.Sublist p.handlers.taken ∧
    ∀ l ∈ sent, l.InFile f ∧ o.keeps l.text = true

theorem sound_init (c : Conf) (f : LogFile) (o : Outlet) (start : ℕ) (now : ℤ) :
    Sound c f o (init start now) where
  placed := placed_handlers_init start now
  limited := limited_init c start start now
  pieced := ⟨start, [], [], pieced_init c f start start now⟩
  strings := rfl
  sent := ⟨[], rfl, List.nil_sublist _, by simp⟩

/-- A line of text has no zero byte before its last one. -/
theorem Sound.whole (hS : Sound c f o p) (htext : Text c f) {l : Line} (hl : l ∈ p.handler.lines) :
    l.InFile f ∧ 0 ∉ l.text.dropLast := by
  obtain ⟨start, stuck, ps, hP⟩ := hS.pieced
  obtain ⟨hfile, hdelimiter⟩ := hP.line (hS.placed.lines_cut hl)
  refine ⟨hfile, ?_⟩
  rcases htext with hzero | hzero
  · rwa [hzero] at hdelimiter
  · intro hmem
    have hwin : (0 : Byte) ∈ f.window l.start (l.start + l.text.length) := by
      rw [hfile]
      exact List.mem_of_mem_dropLast hmem
    exact hzero (List.mem_of_mem_drop (List.mem_of_mem_take hwin))

theorem Sound.wholeStrings (hS : Sound c f o p) (htext : Text c f) :
    ∀ line ∈ p.strings, 0 ∉ line.dropLast := by
  intro line hline
  rw [hS.strings] at hline
  obtain ⟨l, hl, rfl⟩ := List.mem_map.mp hline
  exact (hS.whole htext hl).2

theorem taken_of_gathers {s : Handlers} (hpast : s.past = p.handlers.past)
    (hgathers : Gathers p.handler s.session.handler) : s.taken = p.handlers.taken := by
  rw [Handlers.taken, Handlers.taken, hpast, accepted, accepted, hgathers.calls]

/-- Reading and flushing: strings come to strings. -/
theorem Sound.grown (hS : Sound c f o p) (hlimit : 1 ≤ c.lineMaxBytes) {a : Tick} {s : Handlers}
    (hinc : incident c f (.tick a) p.handlers = some s)
    (hgathers : Gathers p.handler s.session.handler) : Sound c f o (p.grown s) := by
  obtain ⟨htick, hpast⟩ := incident_tick hinc
  obtain ⟨start, stuck, ps, hP⟩ := hS.pieced
  obtain ⟨sent, hproduced, hsub, hsent⟩ := hS.sent
  refine {
    placed := placed_incident hS.placed hinc
    limited := limited_tick hlimit a _ _ hS.limited htick
    pieced := ⟨start, hP.tick hS.limited htick⟩
    strings := ?_
    sent := ⟨sent, hproduced, taken_of_gathers hpast hgathers ▸ hsub, hsent⟩ }
  obtain ⟨more, hmore⟩ := hgathers.lines
  show p.strings ++ (s.session.handler.lines.drop _).map Line.text
    = s.session.handler.lines.map Line.text
  rw [← hmore, List.drop_left, List.map_append, hS.strings]

/-- The callback moves the stored position behind all that was cut. -/
theorem stored_afterReceive {h : IOHandler} (hopen : h.fileOpen = true) (vs : List Verdict)
    (now : ℤ) : (afterReceive true vs now h).stored = h.cutPos := by
  show h.getFilePos - h.buffer.length = h.filePos - h.buffer.length
  rw [getFilePos, if_pos hopen]

/-- What the callback leaves of the lines: those librdkafka took, and those that
came back. -/
structure Answered (o : Outlet) (p : Pipeline) (r : Received) (s : Handlers) : Prop where
  ok : r.ok = true
  length_errs : r.errs.length = (o.kept p.handler.lines).length
  unsent_eq : r.unsent = (withErr .queueFull (o.kept p.handler.lines) r.errs).map Line.text
  produced_eq : r.produced = (withErr .noError (o.kept p.handler.lines) r.errs).map Line.text
  lines_eq : s.session.handler.lines = withErr .queueFull (o.kept p.handler.lines) r.errs
  cutPos_eq : s.session.handler.cutPos = p.handler.cutPos
  stored_eq : s.session.handler.stored = p.handler.cutPos
  taken : s.taken
    = p.handlers.taken ++ pick .taken p.handler.lines (o.verdicts p.handler.lines r.errs)
  took : (withErr .noError (o.kept p.handler.lines) r.errs).Sublist
    (pick .taken p.handler.lines (o.verdicts p.handler.lines r.errs))
  keeps : ∀ l ∈ pick .taken p.handler.lines (o.verdicts p.handler.lines r.errs),
    o.keeps l.text = true

theorem Sound.answered (hS : Sound c f o p) (htext : Text c f) {batch : ProduceBatch} {now : ℤ}
    {r : Received} {s : Handlers} (hr : o.receive batch p.strings p.heap = some r)
    (hinc : incident c f (.tick (.answer (.receive r.ok (o.verdicts p.handler.lines r.errs) now)))
      p.handlers = some s) : Answered o p r s := by
  obtain ⟨htick, hpast⟩ := incident_tick hinc
  obtain ⟨-, hhandler⟩ := receive_step (tick_answer htick).2.1
  have hhandler : s.session.handler
      = afterReceive r.ok (o.verdicts p.handler.lines r.errs) now p.handler := hhandler
  obtain ⟨hok, hlen, hunsent, hnew⟩ := Outlet.receive_spec (hS.wholeStrings htext) hr
  rw [hS.strings, ← o.kept_text, List.length_map] at hlen
  rw [hS.strings, ← o.kept_text, withErr_map] at hunsent hnew
  obtain ⟨hpick, htook, hkeeps, -⟩ := Outlet.pick_verdicts hlen
  rw [hok] at hhandler
  refine ⟨hok, hlen, hunsent, hnew, ?_, ?_, ?_, ?_, htook, hkeeps⟩
  · rw [hhandler, ← hpick]
    rfl
  · rw [hhandler]
    rfl
  · rw [hhandler, stored_afterReceive hS.placed.fileOpen]
  · rw [Handlers.taken, hhandler, accepted_afterReceive, hpast, if_pos rfl, Handlers.taken,
      List.append_assoc]

theorem Sound.send (hS : Sound c f o p) (hlimit : 1 ≤ c.lineMaxBytes) (htext : Text c f)
    {batch : ProduceBatch} {now : ℤ} {r : Received} {s : Handlers}
    (hr : o.receive batch p.strings p.heap = some r)
    (hinc : incident c f (.tick (.answer (.receive r.ok (o.verdicts p.handler.lines r.errs) now)))
      p.handlers = some s) :
    Sound c f o ⟨s, if r.ok then r.unsent else p.strings, r.heap, p.produced ++ r.produced⟩ := by
  obtain ⟨htick, -⟩ := incident_tick hinc
  obtain ⟨start, stuck, ps, hP⟩ := hS.pieced
  obtain ⟨sent, hproduced, hsub, hsent⟩ := hS.sent
  have ha := hS.answered htext hr hinc
  refine {
    placed := placed_incident hS.placed hinc
    limited := limited_tick hlimit _ _ _ hS.limited htick
    pieced := ⟨start, hP.tick hS.limited htick⟩
    strings := ?_
    sent := ⟨sent ++ withErr .noError (o.kept p.handler.lines) r.errs, ?_,
      ha.taken ▸ hsub.append ha.took, fun l hl => ?_⟩ }
  · show (if r.ok then r.unsent else p.strings) = s.session.handler.lines.map Line.text
    rw [ha.ok, if_pos rfl, ha.unsent_eq, ha.lines_eq]
  · show p.produced ++ r.produced = _
    rw [hproduced, ha.produced_eq, List.map_append]
  · rcases List.mem_append.mp hl with hl | hl
    · exact hsent l hl
    · have htook := ha.took.subset hl
      exact ⟨(hS.whole htext (mem_of_mem_pick htook)).1, ha.keeps l htook⟩

theorem Sound.restart (hS : Sound c f o p) {now : ℤ} {s : Handlers}
    (hinc : incident c f (.restart now) p.handlers = some s) :
    Sound c f o ⟨s, [], [], p.produced⟩ := by
  have hplaced := placed_incident hS.placed hinc
  obtain rfl := Option.some.inj hinc
  obtain ⟨sent, hproduced, hsub, hsent⟩ := hS.sent
  refine {
    placed := hplaced
    limited := limited_init c _ _ now
    pieced := ⟨_, _, _, pieced_init c f _ _ now⟩
    strings := rfl
    sent := ⟨sent, hproduced, ?_, hsent⟩ }
  show sent.Sublist (p.handlers.taken ++ [])
  rwa [List.append_nil]

theorem Sound.step (hlimit : 1 ≤ c.lineMaxBytes) (htext : Text c f) {e : Happening}
    (hS : Sound c f o p) (hs : step c f o e p = some p') : Sound c f o p' := by
  cases step_cases hs with
  | notify hinc => exact hS.grown hlimit hinc (gathers_notify (incident_tick hinc).1)
  | fread hinc => exact hS.grown hlimit hinc (gathers_fread (incident_tick hinc).1)
  | send hr hinc => exact hS.send hlimit htext hr hinc
  | restart hinc => exact hS.restart hinc

/-- Whatever librdkafka answers, the call is over and read nothing that is not there. -/
theorem Sound.exists_send (hS : Sound c f o p) (htext : Text c f) (batch : ProduceBatch) {now : ℤ}
    (hw : p.handlers.session.Waiting) (hclock : p.handlers.session.clock ≤ now) :
    ∃ p', Pipeline.step c f o (.send batch now) p = some p' := by
  obtain ⟨r, hr, -⟩ := Outlet.exists_receive o batch p.heap (hS.wholeStrings htext)
  obtain ⟨s, hs⟩ := exists_receive_tick (c := c) (f := f) hw
    (o.length_verdicts p.handler.lines r.errs) hclock r.ok
  have hinc : incident c f
      (.tick (.answer (.receive r.ok (o.verdicts p.handler.lines r.errs) now))) p.handlers
        = some { p.handlers with session := s } := by
    rw [incident, hs]
    rfl
  rw [Pipeline.step, hr, Option.bind_some, hinc]
  exact ⟨_, rfl⟩

theorem sound_run (hlimit : 1 ≤ c.lineMaxBytes) (htext : Text c f) {start : ℕ} {now : ℤ}
    {es : List Happening} (hr : run (step c f o) es (init start now) = some p) : Sound c f o p :=
  run_inv (I := Sound c f o) (fun _ _ _ hS hs => hS.step hlimit htext hs) es _ p
    (sound_init c f o start now) hr

/-- **The messages are lines of the file, each once.**  In a file of text, over any
number of handlers, each ended at any moment, and whatever librdkafka answers: the
messages it took are the texts of lines the filter keeps, each in its place in the
file, no two of which share a byte, and all of them over at the stored position;
`m_lines` are the lines the handler counts on; and a callback never reads memory
that is not there. -/
theorem produced_once (hlimit : 1 ≤ c.lineMaxBytes) (htext : Text c f) {start : ℕ} {now : ℤ}
    {es : List Happening} (hr : run (step c f o) es (init start now) = some p) :
    (∃ sent : List Line, p.produced = sent.map Line.text ∧ sent.Pairwise Line.Disjoint ∧
      ∀ l ∈ sent, l.InFile f ∧ o.keeps l.text = true ∧ l.OverBy p.handler.stored) ∧
    p.strings = p.handler.lines.map Line.text ∧
    (p.handlers.session.Waiting → ∀ batch later, p.handlers.session.clock ≤ later →
      ∃ p', step c f o (.send batch later) p = some p') := by
  have hS := sound_run hlimit htext hr
  obtain ⟨sent, hproduced, hsub, hsent⟩ := hS.sent
  refine ⟨⟨sent, hproduced, List.Pairwise.sublist hsub hS.placed.apart, fun l hl => ?_⟩, hS.strings,
    fun hw batch _ hclock => hS.exists_send htext batch hw hclock⟩
  exact ⟨(hsent l hl).1, (hsent l hl).2, hS.placed.takenOver l (hsub.subset hl)⟩

/-- librdkafka with room for one message. -/
def oneFree : ProduceBatch where
  errs ms _ := ms.mapIdx fun i _ => if i = 0 then .noError else .queueFull
  heap _ heap := heap
  length_errs _ _ := List.length_mapIdx
  untouched _ _ _ _ _ := rfl

/-- Lines with a "b" are dropped. -/
def noB : Outlet := ⟨some (.ofPred (98 ∈ ·) 0), [107]⟩

/-- Of the first two lines one is sent and one dropped; the process is gone with the
third in its hands, which the next handler reads again, and sends when there is room. -/
def goneAndFull : List Happening :=
  [.notify 1, .fread 7 7 false 1, .send oneFree 2, .fread 7 0 false 2, .restart 3, .notify 4,
    .fread 7 3 false 4, .fread 7 0 false 4, .send fullQueue 5, .notify 6, .send oneFree 6]

theorem produced_once_gone : ∃ p,
    run (step smallConf smallFile noB) goneAndFull (init 0 0) = some p ∧
      p.produced = [[97], [99]] ∧
      ∃ sent : List Line, p.produced = sent.map Line.text ∧ sent.Pairwise Line.Disjoint := by
  obtain ⟨p, hr, hproduced⟩ : ∃ p, run (step smallConf smallFile noB) goneAndFull (init 0 0)
      = some p ∧ p.produced = [[97], [99]] := ⟨_, rfl, by decide⟩
  obtain ⟨⟨sent, hsent, hapart, -⟩, -⟩ := produced_once (by decide) (Or.inr (by decide)) hr
  exact ⟨p, hr, hproduced, sent, hsent, hapart⟩

end Logkafka.Pipeline
