/-
# `Logkafka.Pipeline.Exact` — when every line of the file comes out

What a pipeline is for: what librdkafka took, with what is still in hand, are the
lines that the one-pass splitter makes of the file, less those the filter drops
(`AllSent`).  Behind it stands a picture of the file:

    start ──── done ──── stored ──── fresh ──── cutPos ── buffer ── ftell
            sent, back              held

`done` are the frames up to the stored position; their lines were sent, or dropped,
or came back for want of room.  `fresh` are the frames cut since, whose lines wait
behind those that came back.  Two steps break it, and no other (`all_sent_iff`):

    an error that is not "queue full"    the line is over, and was not sent
    a restart with lines that came back  they are stored as done, and gone

The order is that of the file when librdkafka takes from the front
(`sent_in_order`).  In all of this nothing is flushed: a line that is flushed is
cut where the splitter does not.
-/
import Logkafka.Pipeline.Once

namespace Logkafka

open Memory Producer IOHandler

/-- A window and the one behind it. -/
theorem LogFile.window_trans {f : LogFile} {a b c : ℕ} (hab : a ≤ b) (hbc : b ≤ c) :
    f.window a c = f.window a b ++ f.window b c := by
  have happ := f.window_append hab (c - b)
  rwa [Nat.add_sub_cancel' hbc] at happ

namespace IOHandler

variable {c : Conf} {f : LogFile} {h h' : IOHandler} {frames : List (List Byte)}

/-! ## What is cut between two calls of the callback

What was cut is what the splitter makes of the bytes it was cut from, and the
rest is in the buffer.
-/

theorem cuts_piece {fr : List Byte} (hp : Piece c (fr, false)) : c.cuts [] fr = ([fr], []) := by
  cases hp with
  | @ended w hw =>
      show Framing.cuts _ _ [] (w ++ [c.lineDelimiter]) = _
      rw [Framing.cuts_append_of_uncut hw, Framing.cuts_cons_end (Or.inl (by simp))]
      rfl
  | @full w b hw hb hlong =>
      show Framing.cuts _ _ [] (w ++ [b]) = _
      rw [Framing.cuts_append_of_uncut hw, Framing.cuts_cons_end (Or.inr hlong)]
      rfl

/-- The splitter finds the pieces again. -/
theorem cuts_pieces (hframes : ∀ fr ∈ frames, Piece c (fr, false)) :
    c.cuts [] frames.flatten = (frames, []) := by
  induction frames with
  | nil => rfl
  | cons fr frames ih =>
      obtain ⟨hfr, hframes⟩ := List.forall_mem_cons.mp hframes
      rw [List.flatten_cons, c.cuts_append, cuts_piece hfr, ih hframes]
      rfl

/-- What is in the buffer is what the file has there. -/
theorem Pieced.buffer {start : ℕ} {stuck : List Line} {ps : List (List Byte × Bool)}
    (hP : Pieced c f start h stuck ps) : f.window h.cutPos h.filePos = h.buffer := by
  have hend : start + (bytes ps).length + h.buffer.length = h.filePos := by
    rw [← hP.cutPos_eq]
    exact Nat.sub_add_cancel hP.bufferLe
  have hwin := @LogFile.window_middle f start h.filePos (bytes ps) h.buffer []
    (by rw [List.append_nil, hP.read])
  rwa [hend, ← hP.cutPos_eq] at hwin

/-- `frames` were cut from `cutPos` on. -/
structure CutOff (c : Conf) (f : LogFile) (h h' : IOHandler) (frames : List (List Byte)) :
    Prop where
  lines_eq : h'.lines = h.lines ++ layout c h.cutPos frames
  cutPos_eq : h'.cutPos = h.cutPos + frames.flatten.length
  pieces : ∀ fr ∈ frames, Piece c (fr, false)
  window : f.window h.cutPos h'.cutPos = frames.flatten

theorem cutOff_nil (hlines : h'.lines = h.lines) (hpos : h'.cutPos = h.cutPos) :
    CutOff c f h h' [] where
  lines_eq := by rw [hlines, layout, List.append_nil]
  cutPos_eq := hpos
  pieces := by simp
  window := hpos ▸ f.window_self _

/-- One round of the inner loop. -/
theorem cutOff_read (hbuffer : f.window h.cutPos h.filePos = h.buffer)
    (hle : h.buffer.length ≤ h.filePos) {visible n : ℕ} {failed : Bool}
    (hok : FreadOk c f h visible n failed) (now : ℤ) :
    ∃ frames, CutOff c f h (scanBuffer c now (afterFread f visible n failed h)).1 frames := by
  obtain ⟨frames, hs⟩ := scanBuffer_spec c now (afterFread f visible n failed h)
  have hpos := cutPos_afterFread hok hle
  have hle' : (afterFread f visible n failed h).buffer.length
      ≤ (afterFread f visible n failed h).filePos := by
    rw [length_afterFread hok]
    exact Nat.add_le_add_right hle n
  have hcut := hs.cutPos hle'
  rw [hpos] at hcut
  refine ⟨frames, ?_, hcut, fun fr hfr => hs.piece hfr, ?_⟩
  · have hlines := hs.lines_eq
    rwa [hpos] at hlines
  · -- the buffer and the chunk, of which the frames are the head
    have hwin : f.window h.cutPos (h.filePos + n)
        = frames.flatten ++ (scanBuffer c now (afterFread f visible n failed h)).1.buffer := by
      have hcutLe : h.cutPos ≤ h.filePos := Nat.sub_le _ _
      rw [f.window_append hcutLe, hbuffer]
      exact hs.split.symm
    rw [hcut]
    exact f.window_prefix hwin

theorem cutOff_step {visible n : ℕ} {failed : Bool} {now : ℤ} {r r' : Control × IOHandler}
    (hbuffer : f.window r.2.cutPos r.2.filePos = r.2.buffer)
    (hle : r.2.buffer.length ≤ r.2.filePos) (hs : Step c f (.fread visible n failed now) r r') :
    ∃ frames, CutOff c f r.2 r'.2 frames := by
  cases hs with
  | readNothing hok =>
      rw [leaveReads_handler]
      exact cutOff_read hbuffer hle hok _
  | readFull hok =>
      rw [leaveReads_handler]
      exact cutOff_read hbuffer hle hok _
  | readOn hok => exact cutOff_read hbuffer hle hok _

/-- A call that begins without a flush. -/
theorem cutOff_notify {now : ℤ} {s s' : Session} (hflush : flushes c now s.handler = false)
    (hs : IOHandler.tick c f (.notify now) s = some s') : CutOff c f s.handler s'.handler [] := by
  obtain ⟨-, -, rfl⟩ := tick_notify hs
  show CutOff c f s.handler (enter c now s.handler).2 []
  rw [enter_handler]
  split
  · rw [handleUncleaned_of_not_flushes hflush]
    exact cutOff_nil rfl rfl
  · exact cutOff_nil rfl rfl

end IOHandler

namespace Pipeline

variable {c : Conf} {f : LogFile} {o : Outlet} {p p' : Pipeline} {start : ℕ}

/-! ## The law, and what breaks it

The property, the two steps that break it, and the picture that shows it.
-/

/-- What librdkafka took, and what is in hand and will be kept, are the lines the
filter keeps of those cut so far, each as often. -/
def AllSent (c : Conf) (f : LogFile) (o : Outlet) (start : ℕ) (p : Pipeline) : Prop :=
  (p.produced ++ p.strings.filter o.keeps).Perm
    ((reference c (f.window start p.handler.cutPos)).filter o.keeps)

/-- The call does not begin with a flush. -/
def Unflushed (c : Conf) (p : Pipeline) : Happening → Prop
  | .notify now => flushes c now p.handler = false
  | _ => True

/-- No message is refused but for a full queue, and no restart happens with lines
in hand that came back. -/
def Careful (o : Outlet) (p : Pipeline) : Happening → Prop
  | .send batch _ => ∀ r ∈ o.receive batch p.strings p.heap, .other ∉ r.errs
  | .restart _ => ∀ l ∈ p.handler.lines, p.handler.stored ≤ l.start
  | _ => True

instance (p : Pipeline) : DecidablePred (Unflushed c p)
  | .notify _ => inferInstanceAs (Decidable (_ = false))
  | .fread _ _ _ _ => isTrue trivial
  | .send _ _ => isTrue trivial
  | .restart _ => isTrue trivial

instance (p : Pipeline) : DecidablePred (Careful o p)
  | .notify _ => isTrue trivial
  | .fread _ _ _ _ => isTrue trivial
  | .send _ _ => inferInstanceAs (Decidable (∀ r ∈ o.receive _ _ _, _ ∉ r.errs))
  | .restart _ => inferInstanceAs (Decidable (∀ l ∈ p.handler.lines, _))

/-- The picture of the file. -/
structure Drawn (c : Conf) (f : LogFile) (o : Outlet) (start : ℕ) (p : Pipeline)
    (done fresh : List (List Byte)) (sent back : List Line) : Prop where
  sound : Sound c f o p
  pieces : ∀ fr ∈ done ++ fresh, Piece c (fr, false)
  stored_eq : p.handler.stored = start + done.flatten.length
  cutPos_eq : p.handler.cutPos = p.handler.stored + fresh.flatten.length
  window : f.window start p.handler.cutPos = (done ++ fresh).flatten
  lines_eq : p.handler.lines = back ++ layout c p.handler.stored fresh
  produced_eq : p.produced = sent.map Line.text
  taken : sent.Sublist p.handlers.taken
  account : (sent ++ back).Perm (o.kept (layout c start done))

variable {done fresh : List (List Byte)} {sent back : List Line}

theorem drawn_init (c : Conf) (f : LogFile) (o : Outlet) (start : ℕ) (now : ℤ) :
    Drawn c f o start (init start now) [] [] [] [] where
  sound := sound_init c f o start now
  pieces := by simp
  stored_eq := rfl
  cutPos_eq := rfl
  window := f.window_self start
  lines_eq := rfl
  produced_eq := rfl
  taken := List.nil_sublist _
  account := .refl _

theorem Drawn.ne_nil (hD : Drawn c f o start p done fresh sent back) :
    ∀ fr ∈ done ++ fresh, fr ≠ [] :=
  fun fr hfr => (hD.pieces fr hfr).ne_nil

/-- The lines that came back passed the filter, and are stored as done. -/
theorem Drawn.mem_back (hD : Drawn c f o start p done fresh sent back) {l : Line} (hl : l ∈ back) :
    o.keeps l.text = true ∧ l.start < p.handler.stored := by
  have hmem := List.mem_filter.mp (hD.account.subset (List.mem_append_right sent hl))
  obtain ⟨-, hin⟩ := @layout_places c start done fun fr hfr =>
    hD.ne_nil fr (List.mem_append_left _ hfr)
  exact ⟨hmem.2, hD.stored_eq ▸ (hin l hmem.1).2.1⟩

theorem Drawn.kept_back (hD : Drawn c f o start p done fresh sent back) : o.kept back = back :=
  List.filter_eq_self.mpr fun _ hl => (hD.mem_back hl).1

/-- What was sent and what is held are all the lines that are kept. -/
theorem Drawn.kept_perm (hD : Drawn c f o start p done fresh sent back) :
    (sent ++ o.kept p.handler.lines).Perm (o.kept (layout c start (done ++ fresh))) := by
  have hkept : o.kept p.handler.lines = back ++ o.kept (layout c p.handler.stored fresh) := by
    rw [hD.lines_eq, o.kept_append, hD.kept_back]
  rw [hkept, layout_append, ← hD.stored_eq, o.kept_append, ← List.append_assoc]
  exact hD.account.append_right _

theorem Drawn.reference_eq (hD : Drawn c f o start p done fresh sent back) :
    (reference c (f.window start p.handler.cutPos)).filter o.keeps
      = (o.kept (layout c start (done ++ fresh))).map Line.text := by
  rw [hD.window, reference, cuts_pieces hD.pieces, o.kept_text, layout_text]

theorem Drawn.strings_eq (hD : Drawn c f o start p done fresh sent back) :
    p.strings.filter o.keeps = (o.kept p.handler.lines).map Line.text := by
  rw [hD.sound.strings, o.kept_text]

theorem Drawn.allSent (hD : Drawn c f o start p done fresh sent back) : AllSent c f o start p := by
  unfold AllSent
  rw [hD.reference_eq, hD.strings_eq, hD.produced_eq, ← List.map_append]
  exact hD.kept_perm.map _

/-! ## What a step does to the picture

Frames move from one part of the picture to the next; the two harmful steps take
a line out of it.
-/

/-- Frames that are cut are fresh. -/
theorem Drawn.grown (hD : Drawn c f o start p done fresh sent back) {s : Handlers}
    (hsound : Sound c f o (p.grown s)) (hpast : s.past = p.handlers.past)
    (hgathers : Gathers p.handler s.session.handler)
    {frames : List (List Byte)} (hcut : CutOff c f p.handler s.session.handler frames) :
    Drawn c f o start (p.grown s) done (fresh ++ frames) sent back := by
  have hstored : (p.grown s).handler.stored = p.handler.stored := hgathers.stored
  have hcutPos : (p.grown s).handler.cutPos = p.handler.cutPos + frames.flatten.length :=
    hcut.cutPos_eq
  refine {
    sound := hsound
    pieces := ?_
    stored_eq := hstored.trans hD.stored_eq
    cutPos_eq := ?_
    window := ?_
    lines_eq := ?_
    produced_eq := hD.produced_eq
    taken := taken_of_gathers hpast hgathers ▸ hD.taken
    account := hD.account }
  · intro fr hfr
    rw [← List.append_assoc] at hfr
    rcases List.mem_append.mp hfr with hfr | hfr
    · exact hD.pieces fr hfr
    · exact hcut.pieces fr hfr
  · rw [hcutPos, hstored, hD.cutPos_eq, List.flatten_append, List.length_append, Nat.add_assoc]
  · have hstart : start ≤ p.handler.cutPos := by
      rw [hD.cutPos_eq, hD.stored_eq, Nat.add_assoc]
      exact Nat.le_add_right _ _
    have hle : p.handler.cutPos ≤ s.session.handler.cutPos := hcutPos ▸ Nat.le_add_right _ _
    show f.window start s.session.handler.cutPos = _
    rw [LogFile.window_trans hstart hle, hD.window, hcut.window, ← List.flatten_append,
      List.append_assoc]
  · show s.session.handler.lines = _
    rw [hcut.lines_eq, hstored, hD.lines_eq, layout_append, ← hD.cutPos_eq, List.append_assoc]

/-- All that was cut is done then, if every message was taken or came back. -/
theorem Drawn.send (hD : Drawn c f o start p done fresh sent back) {r : Received} {s : Handlers}
    {strings : List Str} (ha : Answered o p r s) (hother : .other ∉ r.errs)
    (hsound : Sound c f o ⟨s, strings, r.heap, p.produced ++ r.produced⟩) :
    Drawn c f o start ⟨s, strings, r.heap, p.produced ++ r.produced⟩ (done ++ fresh) []
      (sent ++ withErr .noError (o.kept p.handler.lines) r.errs)
      (withErr .queueFull (o.kept p.handler.lines) r.errs) := by
  refine {
    sound := hsound
    pieces := by simpa using hD.pieces
    stored_eq := ?_
    cutPos_eq := ha.cutPos_eq.trans ha.stored_eq.symm
    window := ?_
    lines_eq := ha.lines_eq.trans (List.append_nil _).symm
    produced_eq := by rw [hD.produced_eq, ha.produced_eq, List.map_append]
    taken := ha.taken ▸ hD.taken.append ha.took
    account := ?_ }
  · show s.session.handler.stored = _
    rw [ha.stored_eq, hD.cutPos_eq, hD.stored_eq, List.flatten_append, List.length_append,
      Nat.add_assoc]
  · show f.window start s.session.handler.cutPos = _
    rw [ha.cutPos_eq, hD.window, List.append_nil]
  · have hparts := withErr_perm ha.length_errs
    rw [(withErr_eq_nil_iff ha.length_errs).mpr hother, List.append_nil] at hparts
    rw [List.append_assoc]
    exact (hparts.symm.append_left sent).trans hD.kept_perm

/-- Otherwise a line is missing. -/
theorem Drawn.not_allSent_send (hD : Drawn c f o start p done fresh sent back) {r : Received}
    {s : Handlers} {strings : List Str} (ha : Answered o p r s) (hother : .other ∈ r.errs)
    (hsound : Sound c f o ⟨s, strings, r.heap, p.produced ++ r.produced⟩) :
    ¬ AllSent c f o start ⟨s, strings, r.heap, p.produced ++ r.produced⟩ := by
  intro hall
  have hcount : ((p.produced ++ r.produced) ++ strings.filter o.keeps).length
      = ((reference c (f.window start s.session.handler.cutPos)).filter o.keeps).length :=
    hall.length_eq
  have hheld : (strings.filter o.keeps).length
      ≤ (withErr .queueFull (o.kept p.handler.lines) r.errs).length := by
    have hstrings : strings = s.session.handler.lines.map Line.text := hsound.strings
    refine Nat.le_trans (List.length_filter_le _ _) ?_
    rw [hstrings, ha.lines_eq, List.length_map]
  have hparts := (withErr_perm ha.length_errs).length_eq
  have hlost : withErr .other (o.kept p.handler.lines) r.errs ≠ [] := fun hnil =>
    (withErr_eq_nil_iff ha.length_errs).mp hnil hother
  have hpos := List.length_pos_iff.mpr hlost
  have hkept := hD.kept_perm.length_eq
  rw [ha.cutPos_eq, hD.reference_eq, hD.produced_eq, ha.produced_eq] at hcount
  simp only [List.length_append, List.length_map] at hcount hparts hkept
  omega

/-- What is done is what the splitter makes of the file up to the stored position. -/
theorem Drawn.window_stored (hD : Drawn c f o start p done fresh sent back) :
    f.window start p.handler.stored = done.flatten := by
  have hwin := hD.window
  rw [List.flatten_append] at hwin
  rw [hD.stored_eq]
  exact f.window_prefix hwin

/-- A restart forgets what is fresh. -/
theorem Drawn.restart (hD : Drawn c f o start p done fresh sent []) {now : ℤ} {s : Handlers}
    (hinc : incident c f (.restart now) p.handlers = some s)
    (hsound : Sound c f o ⟨s, [], [], p.produced⟩) :
    Drawn c f o start ⟨s, [], [], p.produced⟩ done [] sent [] := by
  obtain rfl := Option.some.inj hinc
  refine {
    sound := hsound
    pieces := fun fr hfr => hD.pieces fr (List.mem_append_left _ (by simpa using hfr))
    stored_eq := hD.stored_eq
    cutPos_eq := rfl
    window := ?_
    lines_eq := rfl
    produced_eq := hD.produced_eq
    taken := by simpa [Handlers.taken, Session.init, IOHandler.init, accepted] using hD.taken
    account := hD.account }
  show f.window start p.handler.stored = _
  rw [hD.window_stored, List.append_nil]

/-- And what came back, which is never read again. -/
theorem Drawn.not_allSent_restart (hD : Drawn c f o start p done fresh sent back)
    (hback : back ≠ []) {now : ℤ} {s : Handlers}
    (hinc : incident c f (.restart now) p.handlers = some s) :
    ¬ AllSent c f o start ⟨s, [], [], p.produced⟩ := by
  obtain rfl := Option.some.inj hinc
  intro hall
  have hcount : (p.produced ++ [].filter o.keeps).length
      = ((reference c (f.window start p.handler.stored)).filter o.keeps).length := hall.length_eq
  have hdone : ∀ fr ∈ done, Piece c (fr, false) := fun fr hfr =>
    hD.pieces fr (List.mem_append_left _ hfr)
  have haccount := hD.account.length_eq
  have hpos := List.length_pos_iff.mpr hback
  rw [hD.window_stored, reference, cuts_pieces hdone, ← layout_text c start, ← o.kept_text,
    hD.produced_eq] at hcount
  simp only [List.filter_nil, List.append_nil, List.length_append, List.length_map]
    at hcount haccount
  omega

/-! ## Whole runs

The picture is kept up to the first harmful step, which no later one mends.
-/

/-- The lines that came back are those before the stored position. -/
theorem Drawn.back_eq_nil_iff (hD : Drawn c f o start p done fresh sent back) :
    back = [] ↔ ∀ l ∈ p.handler.lines, p.handler.stored ≤ l.start := by
  constructor
  · rintro rfl l hl
    obtain ⟨-, hin⟩ := @layout_places c p.handler.stored fresh fun fr hfr =>
      hD.ne_nil fr (List.mem_append_right _ hfr)
    rw [hD.lines_eq, List.nil_append] at hl
    exact (hin l hl).1
  · intro hall
    refine List.eq_nil_iff_forall_not_mem.mpr fun l hl => ?_
    have hle := hall l (hD.lines_eq ▸ List.mem_append_left _ hl)
    exact Nat.not_le_of_lt (hD.mem_back hl).2 hle

theorem Drawn.step (hlimit : 1 ≤ c.lineMaxBytes) (htext : Text c f) {e : Happening}
    (hD : Drawn c f o start p done fresh sent back) (hquiet : Unflushed c p e)
    (hcareful : Careful o p e) (hs : Pipeline.step c f o e p = some p') :
    ∃ done fresh sent back, Drawn c f o start p' done fresh sent back := by
  have hsound := hD.sound.step hlimit htext hs
  obtain ⟨_, _, _, hP⟩ := hD.sound.pieced
  cases step_cases hs with
  | notify hinc =>
      obtain ⟨htick, hpast⟩ := incident_tick hinc
      exact ⟨_, _, _, _, hD.grown hsound hpast (gathers_notify htick) (cutOff_notify hquiet htick)⟩
  | fread hinc =>
      obtain ⟨htick, hpast⟩ := incident_tick hinc
      obtain ⟨frames, hcut⟩ := cutOff_step hP.buffer hP.bufferLe (tick_answer htick).2.1
      exact ⟨_, _, _, _, hD.grown hsound hpast (gathers_fread htick) hcut⟩
  | send hr hinc =>
      exact ⟨_, _, _, _, hD.send (hD.sound.answered htext hr hinc) (hcareful _ hr) hsound⟩
  | restart hinc =>
      obtain rfl := hD.back_eq_nil_iff.mpr hcareful
      exact ⟨_, _, _, _, hD.restart hinc hsound⟩

theorem Drawn.not_allSent_step (hlimit : 1 ≤ c.lineMaxBytes) (htext : Text c f) {e : Happening}
    (hD : Drawn c f o start p done fresh sent back) (hcareful : ¬ Careful o p e)
    (hs : Pipeline.step c f o e p = some p') : ¬ AllSent c f o start p' := by
  have hsound := hD.sound.step hlimit htext hs
  cases step_cases hs with
  | notify _ => exact absurd trivial hcareful
  | fread _ => exact absurd trivial hcareful
  | @send batch now r s hr hinc =>
      have hother : .other ∈ r.errs := by
        by_contra hno
        refine hcareful fun r' hr' => ?_
        obtain rfl : r = r' := Option.some.inj (hr.symm.trans hr')
        exact hno
      exact hD.not_allSent_send (hD.sound.answered htext hr hinc) hother hsound
  | restart hinc =>
      exact hD.not_allSent_restart (fun hnil => hcareful (hD.back_eq_nil_iff.mp hnil)) hinc

/-- **When every line comes out.**  In every run over a file of text in which no call
begins with a flush: what librdkafka took and what is in hand are at every moment,
each as often, the lines the splitter makes of the file that the filter keeps, if and
only if librdkafka never refused a message but for a full queue, and no restart came
while lines were held that had come back. -/
theorem all_sent_iff (hlimit : 1 ≤ c.lineMaxBytes) (htext : Text c f) {now : ℤ}
    {es : List Happening} (hr : run (step c f o) es (init start now) = some p)
    (hquiet : Along (step c f o) (Unflushed c) es (init start now)) :
    (∀ u, Visits (step c f o) es (init start now) u → AllSent c f o start u) ↔
      Along (step c f o) (Careful o) es (init start now) := by
  have hinit := drawn_init c f o start now
  refine visits_iff_along_under
    (I := fun u => ∃ done fresh sent back, Drawn c f o start u done fresh sent back)
    ?_ ?_ ⟨_, _, _, _, hinit⟩ hinit.allSent hquiet hr
  · rintro e u u' ⟨_, _, _, _, hD⟩ hq hc hs
    obtain ⟨_, _, _, _, hD'⟩ := hD.step hlimit htext hq hc hs
    exact ⟨⟨_, _, _, _, hD'⟩, hD'.allSent⟩
  · rintro e u u' ⟨_, _, _, _, hD⟩ - hc hs
    exact hD.not_allSent_step hlimit htext hc hs

/-- The process is gone with a line in its hands that was read since the last send:
the next handler reads it again. -/
theorem all_sent_iff_gone : ∃ p,
    run (step smallConf smallFile noB) goneAndFull (init 0 0) = some p ∧
      AllSent smallConf smallFile noB 0 p := by
  obtain ⟨p, hr⟩ : ∃ p, run (step smallConf smallFile noB) goneAndFull (init 0 0) = some p :=
    ⟨_, rfl⟩
  exact ⟨p, hr, (all_sent_iff (by decide) (Or.inr (by decide)) hr (by decide)).mpr (by decide) p
    (visits_of_run hr)⟩

/-! ## The order

The same picture with lists in place of bags.
-/

/-- Behind a message there was no room for, there is none for any other. -/
def FrontFirst (errs : List RespErr) : Prop :=
  errs.Pairwise fun e e' => e = .queueFull → e' = .queueFull

instance : DecidablePred FrontFirst := fun _ => by unfold FrontFirst; infer_instance

/-- A step that does no harm. -/
def Orderly (c : Conf) (o : Outlet) (p : Pipeline) : Happening → Prop
  | .notify now => flushes c now p.handler = false
  | .send batch _ => ∀ r ∈ o.receive batch p.strings p.heap, .other ∉ r.errs ∧ FrontFirst r.errs
  | .restart _ => ∀ l ∈ p.handler.lines, p.handler.stored ≤ l.start
  | .fread _ _ _ _ => True

instance (p : Pipeline) : DecidablePred (Orderly c o p)
  | .notify _ => inferInstanceAs (Decidable (_ = false))
  | .fread _ _ _ _ => isTrue trivial
  | .send _ _ => inferInstanceAs (Decidable (∀ r ∈ o.receive _ _ _, _ ∉ r.errs ∧ FrontFirst r.errs))
  | .restart _ => inferInstanceAs (Decidable (∀ l ∈ p.handler.lines, _))

theorem Orderly.unflushed {e : Happening} (h : Orderly c o p e) : Unflushed c p e := by
  cases e with
  | notify => exact h
  | fread => trivial
  | send => trivial
  | restart => trivial

theorem Orderly.careful {e : Happening} (h : Orderly c o p e) : Careful o p e := by
  cases e with
  | notify => trivial
  | fread => trivial
  | send => exact fun r hr => (h r hr).1
  | restart => exact h

theorem taken_not_mem_verdicts {ls : List Line} {errs : List RespErr}
    (hfull : ∀ e ∈ errs, e = .queueFull) (hlen : errs.length = (o.kept ls).length) :
    .taken ∉ o.verdicts ls errs := by
  induction ls generalizing errs with
  | nil => exact List.not_mem_nil
  | cons l ls ih =>
      unfold Outlet.verdicts
      by_cases hkeep : o.keeps l.text = true
      · rw [if_pos hkeep]
        rw [show o.kept (l :: ls) = l :: o.kept ls from List.filter_cons_of_pos hkeep] at hlen
        cases errs with
        | nil => cases hlen
        | cons e errs =>
            obtain ⟨rfl, hrest⟩ := List.forall_mem_cons.mp hfull
            exact List.not_mem_cons_of_ne_of_not_mem Verdict.noConfusion
              (ih hrest (Nat.succ.inj hlen))
      · rw [if_neg hkeep]
        rw [show o.kept (l :: ls) = o.kept ls from List.filter_cons_of_neg hkeep] at hlen
        exact List.not_mem_cons_of_ne_of_not_mem Verdict.noConfusion (ih hfull hlen)

/-- The verdicts on a batch of which librdkafka took from the front. -/
theorem fromTheFront_verdicts {ls : List Line} {errs : List RespErr} (hfront : FrontFirst errs)
    (hlen : errs.length = (o.kept ls).length) : FromTheFront (o.verdicts ls errs) := by
  induction ls generalizing errs with
  | nil => exact List.Pairwise.nil
  | cons l ls ih =>
      unfold Outlet.verdicts
      by_cases hkeep : o.keeps l.text = true
      · rw [if_pos hkeep]
        rw [show o.kept (l :: ls) = l :: o.kept ls from List.filter_cons_of_pos hkeep] at hlen
        cases errs with
        | nil => cases hlen
        | cons e errs =>
            obtain ⟨hfirst, hrest⟩ := List.pairwise_cons.mp hfront
            have hrestLen := Nat.succ.inj hlen
            refine List.pairwise_cons.mpr ⟨fun w hw hunsent htaken => ?_, ih hrest hrestLen⟩
            cases e with
            | queueFull =>
                exact taken_not_mem_verdicts (fun e he => hfirst e he rfl) hrestLen (htaken ▸ hw)
            | noError => cases hunsent
            | other => cases hunsent
      · rw [if_neg hkeep]
        rw [show o.kept (l :: ls) = o.kept ls from List.filter_cons_of_neg hkeep] at hlen
        refine List.pairwise_cons.mpr ⟨fun w _ hunsent => ?_, ih hfront hlen⟩
        cases hunsent

/-- A step that does no harm keeps the order. -/
theorem inOrder_step (htext : Text c f) {e : Happening} (hS : Sound c f o p)
    (ho : InOrder p.handlers) (horderly : Orderly c o p e)
    (hs : Pipeline.step c f o e p = some p') : InOrder p'.handlers := by
  cases step_cases hs with
  | notify hinc => exact inOrder_incident (i := .tick (.notify _)) ho hS.placed trivial hinc
  | fread hinc =>
      exact inOrder_incident (i := .tick (.answer (.fread _ _ _ _))) ho hS.placed trivial hinc
  | restart hinc => exact inOrder_incident (i := .restart _) ho hS.placed trivial hinc
  | send hr hinc =>
      obtain ⟨hok, hlen, -⟩ := Outlet.receive_spec (hS.wholeStrings htext) hr
      rw [hS.strings, ← o.kept_text, List.length_map] at hlen
      rw [hok] at hinc
      exact inOrder_incident (i := .tick (.answer (.receive true _ _))) ho hS.placed
        (fromTheFront_verdicts (horderly _ hr).2 hlen) hinc

/-- In order, what was sent and is held is the layout of the file. -/
theorem Drawn.sent_eq (hD : Drawn c f o start p done fresh sent back) (ho : InOrder p.handlers) :
    p.produced ++ p.strings.filter o.keeps
      = (reference c (f.window start p.handler.cutPos)).filter o.keeps := by
  have hheld : (sent ++ o.kept p.handler.lines).Pairwise Line.Before :=
    List.Pairwise.sublist (hD.taken.append List.filter_sublist) ho
  have hfile : (o.kept (layout c start (done ++ fresh))).Pairwise Line.Before :=
    List.Pairwise.sublist List.filter_sublist (layout_places c hD.ne_nil).1
  have heq := hD.kept_perm.eq_of_pairwise (fun _ _ _ _ hab hba => absurd hba hab.asymm) hheld hfile
  rw [hD.reference_eq, hD.strings_eq, hD.produced_eq, ← List.map_append, heq]

/-- **What comes out, in order.**  In every run over a file of text in which no call
begins with a flush, librdkafka takes each batch from the front and leaves the rest
for want of room only, and no restart comes while lines are held that came back: the
messages it took, and then the lines in hand that the filter keeps, are the lines the
splitter makes of the file that the filter keeps; with nothing in hand, the messages
are those of the file up to the stored position. -/
theorem sent_in_order (hlimit : 1 ≤ c.lineMaxBytes) (htext : Text c f) {now : ℤ}
    {es : List Happening} (hr : run (step c f o) es (init start now) = some p)
    (horderly : Along (step c f o) (Orderly c o) es (init start now)) :
    p.produced ++ p.strings.filter o.keeps
        = (reference c (f.window start p.handler.cutPos)).filter o.keeps ∧
      (p.strings = [] → p.produced
        = (reference c (f.window start p.handler.stored)).filter o.keeps) := by
  obtain ⟨⟨done, fresh, sent, back, hD⟩, ho⟩ := run_inv_along
    (I := fun u => (∃ done fresh sent back, Drawn c f o start u done fresh sent back) ∧
      InOrder u.handlers)
    (fun e u u' hI horderly hs => by
      obtain ⟨⟨_, _, _, _, hD⟩, ho⟩ := hI
      exact ⟨hD.step hlimit htext horderly.unflushed horderly.careful hs,
        inOrder_step htext hD.sound ho horderly hs⟩)
    es _ p ⟨⟨_, _, _, _, drawn_init c f o start now⟩, List.Pairwise.nil⟩ horderly hr
  have hsent := hD.sent_eq ho
  refine ⟨hsent, fun hnil => ?_⟩
  have hlines : p.handler.lines = [] := List.map_eq_nil_iff.mp (hD.sound.strings.symm.trans hnil)
  have hfresh : fresh = [] := by
    have hlay := (List.append_eq_nil_iff.mp (hD.lines_eq.symm.trans hlines)).2
    rw [← List.length_eq_zero_iff, ← length_layout c p.handler.stored, hlay, List.length_nil]
  have hpos := hD.cutPos_eq
  rw [hfresh, List.flatten_nil, List.length_nil, Nat.add_zero] at hpos
  rw [hnil, List.filter_nil, List.append_nil, hpos] at hsent
  exact hsent

theorem sent_in_order_gone : ∃ p,
    run (step smallConf smallFile noB) goneAndFull (init 0 0) = some p ∧ p.strings = [] ∧
      p.produced = (reference smallConf (smallFile.window 0 6)).filter noB.keeps := by
  obtain ⟨p, hr, hnil, hstored⟩ : ∃ p, run (step smallConf smallFile noB) goneAndFull (init 0 0)
      = some p ∧ p.strings = [] ∧ p.handler.stored = 6 := ⟨_, rfl, by decide, by decide⟩
  have hsent := (sent_in_order (by decide) (Or.inr (by decide)) hr (by decide)).2 hnil
  exact ⟨p, hr, hnil, hstored ▸ hsent⟩

end Pipeline

end Logkafka
