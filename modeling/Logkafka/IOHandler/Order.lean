/-
# `Logkafka.IOHandler.Order` — handlers one after another: no byte twice, and in which order

A process that dies, or is stopped, takes its handler with it, in the middle of
a call as well as between two calls; the next process makes a handler that
starts at the stored position.  `Handlers` is the handler at work together with
what the output took from the handlers before it, and `incident` its step: a
tick of the session, or a restart, which is enabled at any moment.

    stored     every line the output took is over there      (Placed.takenOver)
    cutPos     every line cut is over there                  (Placed.cutOver)
    the rest   is cut from `cutPos` on                       (layout_places)

So no byte that the output took is read again (`taken_once`): the position is
stored past a line in the step in which the output takes it, whatever else comes
back from that step.

The order is another matter.  A callback that takes a line and leaves an earlier
one of the batch unsent puts the earlier one behind it, since the unsent lines
are sent by the next call.  `in_order_iff` says that nothing else disturbs the
order of the file, restarts and failures included.
-/
import Logkafka.IOHandler.Limits

namespace Logkafka

/-! ## Places in the file -/

namespace Line

/-- The line is over at offset `p`. -/
def OverBy (l : Line) (p : ℕ) : Prop :=
  l.start < p ∧ l.start + l.text.length ≤ p

/-- `l` is over where `l'` begins. -/
def Before (l l' : Line) : Prop := l.OverBy l'.start

/-- No byte of the file is in both. -/
def Disjoint (l l' : Line) : Prop := l.Before l' ∨ l'.Before l

instance (l : Line) (p : ℕ) : Decidable (l.OverBy p) :=
  inferInstanceAs (Decidable (_ ∧ _))

instance : DecidableRel Before := fun l l' => inferInstanceAs (Decidable (l.OverBy l'.start))

instance : DecidableRel Disjoint := fun l l' =>
  inferInstanceAs (Decidable (l.Before l' ∨ l'.Before l))

theorem OverBy.mono {l : Line} {p q : ℕ} (hl : l.OverBy p) (hpq : p ≤ q) : l.OverBy q :=
  ⟨Nat.lt_of_lt_of_le hl.1 hpq, Nat.le_trans hl.2 hpq⟩

theorem Before.asymm {l l' : Line} (hl : l.Before l') : ¬ l'.Before l :=
  fun hl' => Nat.lt_asymm hl.1 hl'.1

theorem disjoint_comm {l l' : Line} : l.Disjoint l' ↔ l'.Disjoint l := Or.comm

end Line

/-! ## The parts of a batch

The verdicts sort a batch into parts that keep its order; whether they also keep
it among each other is up to the callback.
-/

/-- No line is taken behind one that is left unsent. -/
def FromTheFront (vs : List Verdict) : Prop :=
  vs.Pairwise fun v w => v = .unsent → w ≠ .taken

instance (vs : List Verdict) : Decidable (FromTheFront vs) := by
  unfold FromTheFront; infer_instance

theorem pick_sublist (v : Verdict) : ∀ (ls : List Line) (vs : List Verdict), (pick v ls vs).Sublist ls
  | [], _ => by simp [pick]
  | _ :: _, [] => by simp [pick]
  | l :: ls, w :: vs => by
      have ih := pick_sublist v ls vs
      unfold pick
      split
      · exact ih.cons_cons l
      · exact ih.cons l

theorem pick_of_not_mem {v : Verdict} : ∀ {ls : List Line} {vs : List Verdict}, v ∉ vs →
    pick v ls vs = []
  | [], _, _ => by simp [pick]
  | _ :: _, [], _ => by simp [pick]
  | l :: ls, w :: vs, hv => by
      obtain ⟨hne, hvs⟩ := List.ne_and_not_mem_of_not_mem_cons hv
      rw [pick, if_neg (Ne.symm hne)]
      exact pick_of_not_mem hvs

/-- Taken from the front, the lines taken and then those left are as in the batch. -/
theorem parts_sublist : ∀ {ls : List Line} {vs : List Verdict}, FromTheFront vs →
    (pick .taken ls vs ++ pick .unsent ls vs).Sublist ls
  | [], _, _ => by simp [pick]
  | _ :: _, [], _ => by simp [pick]
  | l :: ls, w :: vs, hf => by
      obtain ⟨hw, hvs⟩ := List.pairwise_cons.mp hf
      have ih : (pick .taken ls vs ++ pick .unsent ls vs).Sublist ls := parts_sublist hvs
      cases w with
      | taken => simpa [pick] using ih
      | dropped => simpa [pick] using ih.cons l
      | unsent =>
          -- nothing is taken behind the first line that is left
          have hnone : pick .taken ls vs = [] := pick_of_not_mem fun hmem => hw _ hmem rfl rfl
          simpa [pick, hnone] using pick_sublist .unsent ls vs

/-- Otherwise a line is taken that stood behind one that is left. -/
theorem exists_overtaken {R : Line → Line → Prop} : ∀ {ls : List Line} {vs : List Verdict},
    vs.length = ls.length → ¬ FromTheFront vs → ls.Pairwise R →
      ∃ l ∈ pick .unsent ls vs, ∃ l' ∈ pick .taken ls vs, R l l'
  | _, [], _, hf, _ => absurd List.Pairwise.nil hf
  | [], _ :: _, hlen, _, _ => by simp at hlen
  | l :: ls, w :: vs, hlen, hf, hR => by
      have hrest : vs.length = ls.length := by simpa using hlen
      obtain ⟨hl, hls⟩ := List.pairwise_cons.mp hR
      by_cases hvs : FromTheFront vs
      · -- the line in front is the one that is left
        have hw : w = .unsent ∧ .taken ∈ vs := by
          by_contra hno
          refine hf (List.pairwise_cons.mpr ⟨fun v hv hun htk => hno ⟨hun, htk ▸ hv⟩, hvs⟩)
        obtain ⟨rfl, htaken⟩ := hw
        have hsome : pick .taken ls vs ≠ [] := fun hnil => (pick_nil_iff hrest).mp hnil htaken
        obtain ⟨l', hl'⟩ := List.exists_mem_of_ne_nil _ hsome
        exact ⟨l, by simp [pick], l', by simpa [pick] using hl', hl l' (IOHandler.mem_of_mem_pick hl')⟩
      · obtain ⟨a, ha, b, hb, hab⟩ := exists_overtaken hrest hvs hls
        refine ⟨a, ?_, b, ?_, hab⟩
        · unfold pick
          split
          · exact List.mem_cons_of_mem _ ha
          · exact ha
        · unfold pick
          split
          · exact List.mem_cons_of_mem _ hb
          · exact hb

namespace IOHandler

variable {c : Conf} {f : LogFile} {h h' : IOHandler} {past : List Line}

/-! ## Where the lines of a scan stand -/

/-- Lines of consecutive frames stand one behind the other. -/
theorem layout_places (c : Conf) {pos : ℕ} {frs : List (List Byte)} (hne : ∀ fr ∈ frs, fr ≠ []) :
    (layout c pos frs).Pairwise Line.Before ∧
      ∀ l ∈ layout c pos frs, pos ≤ l.start ∧ l.OverBy (pos + frs.flatten.length) := by
  induction frs generalizing pos with
  | nil => simp [layout]
  | cons fr frs ih =>
      have hpos : 0 < fr.length := List.length_pos_iff.mpr (hne fr List.mem_cons_self)
      obtain ⟨hord, hin⟩ := @ih (pos + fr.length) fun x hx => hne x (List.mem_cons_of_mem _ hx)
      have hhead : Line.OverBy ⟨pos, strip c fr⟩ (pos + fr.length) :=
        ⟨Nat.lt_add_of_pos_right hpos, Nat.add_le_add_left (length_strip_le c fr) pos⟩
      have hlen : pos + (fr :: frs).flatten.length = pos + fr.length + frs.flatten.length := by
        rw [List.flatten_cons, List.length_append]
        omega
      refine ⟨List.pairwise_cons.mpr ⟨fun l hl => hhead.mono (hin l hl).1, hord⟩, fun l hl => ?_⟩
      rw [hlen]
      rcases List.mem_cons.mp hl with rfl | hl
      · exact ⟨Nat.le_refl _, hhead.mono (Nat.le_add_right _ _)⟩
      · obtain ⟨hge, hover⟩ := hin l hl
        exact ⟨Nat.le_trans (Nat.le_add_right _ _) hge, hover⟩

/-! ## The invariant of a handler behind others

Everything the earlier handlers had taken is over where this one started, and it
started where the position was stored.
-/

/-- Where everything stands: what was taken, here or by the handlers before, is
over at the stored position, what was cut at `cutPos`. -/
structure Placed (past : List Line) (h : IOHandler) : Prop where
  tallied : Tallied h
  fileOpen : h.fileOpen = true
  cutOver : ∀ l ∈ h.cut, l.OverBy h.cutPos
  cutOrder : h.cut.Pairwise Line.Before
  takenOver : ∀ l ∈ past ++ h.accepted, l.OverBy h.stored
  pastFirst : ∀ l ∈ past, ∀ l' ∈ h.cut, l.Before l'
  pastApart : past.Pairwise Line.Disjoint
  storedLe : h.stored ≤ h.cutPos

/-- The lines the output took and the lines held were all cut. -/
theorem Placed.accepted_cut (hP : Placed past h) {l : Line} (hl : l ∈ h.accepted) : l ∈ h.cut :=
  hP.tallied.account.mem_iff.mpr (by simp [hl])

theorem Placed.lines_cut (hP : Placed past h) {l : Line} (hl : l ∈ h.lines) : l ∈ h.cut :=
  hP.tallied.account.mem_iff.mpr (by simp [hl])

theorem Placed.lines_over (hP : Placed past h) {l : Line} (hl : l ∈ h.lines) :
    l.OverBy h.cutPos :=
  hP.cutOver l (hP.lines_cut hl)

/-- Everything that is over is over at `cutPos`. -/
theorem Placed.taken_over (hP : Placed past h) {l : Line} (hl : l ∈ past ++ h.accepted) :
    l.OverBy h.cutPos :=
  (hP.takenOver l hl).mono hP.storedLe

/-- What was taken is nowhere twice. -/
theorem Placed.apart (hP : Placed past h) : (past ++ h.accepted).Pairwise Line.Disjoint := by
  refine List.pairwise_append.mpr ⟨hP.pastApart, ?_, fun l hl l' hl' => ?_⟩
  · have hcut : h.cut.Pairwise Line.Disjoint := hP.cutOrder.imp Or.inl
    have hall : (h.accepted ++ h.filtered ++ h.lines).Pairwise Line.Disjoint :=
      (hP.tallied.account.pairwise_iff (fun hd => Line.disjoint_comm.mp hd)).mp hcut
    exact (List.pairwise_append.mp (List.pairwise_append.mp hall).1).1
  · exact Or.inl (hP.pastFirst l hl l' (hP.accepted_cut hl'))

theorem placed_init {start : ℕ} (hpast : ∀ l ∈ past, l.OverBy start)
    (hapart : past.Pairwise Line.Disjoint) (now : ℤ) : Placed past (init start start now) where
  tallied := tallied_init start start now
  fileOpen := rfl
  cutOver := by simp [init]
  cutOrder := List.Pairwise.nil
  takenOver := by
    intro l hl
    have hl : l ∈ past := by simpa [init, accepted] using hl
    exact hpast l hl
  pastFirst := by simp [init]
  pastApart := hapart
  storedLe := Nat.le_refl _

/-! ## What a step does to it

Only an answer stores a position, and it is stored behind the lines it takes.
-/

/-- Lines cut from `cutPos` on stand behind all that was there. -/
theorem Placed.scanned (hP : Placed past h) {now : ℤ} {broke : Bool} {frames : List (List Byte)}
    (hs : BufferScanned c now h h' broke frames) : Placed past h' := by
  have hcalls : h'.calls = h.calls := by rw [hs.same]
  have hstored : h'.stored = h.stored := by rw [hs.same]
  have hacc : h'.accepted = h.accepted := by rw [accepted, hcalls, accepted]
  have hpos := hs.cutPos hP.tallied.bufferLe
  obtain ⟨hord, hin⟩ := @layout_places c h.cutPos frames hs.nonempty
  constructor
  · exact hs.tallied hP.tallied
  · rw [hs.same]
    exact hP.fileOpen
  · intro l hl
    rw [hs.cut_eq] at hl
    rw [hpos]
    rcases List.mem_append.mp hl with hl | hl
    · exact (hP.cutOver l hl).mono (Nat.le_add_right _ _)
    · exact (hin l hl).2
  · rw [hs.cut_eq]
    exact List.pairwise_append.mpr ⟨hP.cutOrder, hord,
      fun l hl l' hl' => (hP.cutOver l hl).mono (hin l' hl').1⟩
  · rw [hacc, hstored]
    exact hP.takenOver
  · intro l hl l' hl'
    rw [hs.cut_eq] at hl'
    rcases List.mem_append.mp hl' with hl' | hl'
    · exact hP.pastFirst l hl l' hl'
    · exact (hP.taken_over (List.mem_append_left _ hl)).mono (hin l' hl').1
  · exact hP.pastApart
  · rw [hstored, hpos]
    exact Nat.le_trans hP.storedLe (Nat.le_add_right _ _)

theorem Placed.afterFread (hP : Placed past h) {visible n : ℕ} {failed : Bool}
    (hok : FreadOk c f h visible n failed) : Placed past (afterFread f visible n failed h) := by
  have hpos := cutPos_afterFread hok hP.tallied.bufferLe
  exact {
    tallied := hP.tallied.afterFread hok
    fileOpen := hP.fileOpen
    cutOver := hpos ▸ hP.cutOver
    cutOrder := hP.cutOrder
    takenOver := hP.takenOver
    pastFirst := hP.pastFirst
    pastApart := hP.pastApart
    storedLe := hpos ▸ hP.storedLe }

theorem Placed.read (hP : Placed past h) {visible n : ℕ} {failed : Bool}
    (hok : FreadOk c f h visible n failed) (now : ℤ) :
    Placed past (scanBuffer c now (IOHandler.afterFread f visible n failed h)).1 := by
  obtain ⟨frames, hs⟩ := scanBuffer_spec c now (IOHandler.afterFread f visible n failed h)
  exact (hP.afterFread hok).scanned hs

theorem accepted_afterReceive (ok : Bool) (vs : List Verdict) (now : ℤ) (h : IOHandler) :
    (afterReceive ok vs now h).accepted
      = h.accepted ++ if ok then pick .taken h.lines vs else [] := by
  simp [IOHandler.afterReceive, accepted, Call.accepted]

/-- The answer of the callback moves the position past the batch. -/
theorem Placed.afterReceive (hP : Placed past h) {vs : List Verdict}
    (hlen : vs.length = h.lines.length) (ok : Bool) (now : ℤ) :
    Placed past (afterReceive ok vs now h) := by
  have hstored : (IOHandler.afterReceive ok vs now h).stored = if ok then h.cutPos else h.stored := by
    simp [IOHandler.afterReceive, getFilePos, hP.fileOpen, cutPos]
  refine {
    tallied := hP.tallied.afterReceive hlen ok now
    fileOpen := hP.fileOpen
    cutOver := hP.cutOver
    cutOrder := hP.cutOrder
    takenOver := fun l hl => ?_
    pastFirst := hP.pastFirst
    pastApart := hP.pastApart
    storedLe := ?_ }
  · rw [accepted_afterReceive, ← List.append_assoc] at hl
    rw [hstored]
    cases ok with
    | false => exact hP.takenOver l (by simpa using hl)
    | true =>
        rcases List.mem_append.mp hl with hl | hl
        · exact hP.taken_over hl
        · exact hP.lines_over (mem_of_mem_pick hl)
  · rw [hstored]
    show (if ok then h.cutPos else h.stored) ≤ h.cutPos
    split
    · exact Nat.le_refl _
    · exact hP.storedLe

theorem Placed.handleUncleaned (hP : Placed past h) (c : Conf) (now : ℤ) :
    Placed past (handleUncleaned c now h) := by
  have hT := hP.tallied.handleUncleaned c now
  rcases handleUncleaned_cases c now h with ⟨-, heq⟩ | ⟨hb, -, -, heq⟩ | ⟨-, heq⟩ <;> rw [heq] at hT ⊢
  · exact hP
  · -- the whole buffer is one line, from `cutPos` to the place in the file
    have hpos : 0 < h.buffer.length := List.length_pos_iff.mpr hb
    have hle := hP.tallied.bufferLe
    have hcut : h.cutPos + h.buffer.length = h.filePos := Nat.sub_add_cancel hle
    have hover : Line.OverBy ⟨h.cutPos, h.buffer⟩ h.filePos := by
      constructor
      · show h.cutPos < h.filePos
        omega
      · exact Nat.le_of_eq hcut
    have hmono : h.cutPos ≤ h.filePos := Nat.sub_le _ _
    refine {
      tallied := hT
      fileOpen := hP.fileOpen
      cutOver := fun l hl => ?_
      cutOrder := ?_
      takenOver := hP.takenOver
      pastFirst := fun l hl l' hl' => ?_
      pastApart := hP.pastApart
      storedLe := Nat.le_trans hP.storedLe hmono }
    · rcases List.mem_append.mp hl with hl | hl
      · exact (hP.cutOver l hl).mono hmono
      · obtain rfl := List.mem_singleton.mp hl
        exact hover
    · refine List.pairwise_append.mpr ⟨hP.cutOrder, List.pairwise_singleton _ _, ?_⟩
      intro l hl l' hl'
      obtain rfl := List.mem_singleton.mp hl'
      exact hP.cutOver l hl
    · rcases List.mem_append.mp hl' with hl' | hl'
      · exact hP.pastFirst l hl l' hl'
      · obtain rfl := List.mem_singleton.mp hl'
        exact hP.taken_over (List.mem_append_left _ hl)
  · exact ⟨hT, hP.fileOpen, hP.cutOver, hP.cutOrder, hP.takenOver, hP.pastFirst, hP.pastApart,
      hP.storedLe⟩

theorem Placed.enter (hP : Placed past h) (c : Conf) (now : ℤ) : Placed past (enter c now h).2 := by
  rw [enter_handler, if_pos hP.fileOpen]
  exact hP.handleUncleaned c now

theorem Placed.step {e : Event} {s s' : Control × IOHandler} (hP : Placed past s.2)
    (hs : Step c f e s s') : Placed past s'.2 := by
  cases hs with
  | resend hlen => exact hP.afterReceive hlen _ _
  | readNothing hok =>
      rw [leaveReads_handler]
      exact hP.read hok _
  | readFull hok =>
      rw [leaveReads_handler]
      exact hP.read hok _
  | readOn hok => exact hP.read hok _
  | send hlen => exact hP.afterReceive hlen _ _

/-! ## Handlers one after another

A restart drops the handler and everything in it; the lines it had cut and that
were not taken are cut again.
-/

/-- The handler at work, and what the output took from those before it. -/
structure Handlers where
  session : Session
  past : List Line

/-- The first handler of a file, which starts where its entry says. -/
def Handlers.init (start : ℕ) (now : ℤ) : Handlers := ⟨Session.init start start now, []⟩

/-- What the output took, in the order in which it took it. -/
def Handlers.taken (s : Handlers) : List Line := s.past ++ s.session.handler.accepted

inductive Incident
  | tick (a : Tick)
  /-- the process is gone, and the next one makes a handler of the same file -/
  | restart (now : ℤ)

def incident (c : Conf) (f : LogFile) : Incident → Handlers → Option Handlers
  | .tick a, s => (tick c f a s.session).map fun u => { s with session := u }
  | .restart now, s =>
      let stored := s.session.handler.stored
      some ⟨Session.init stored stored now, s.taken⟩

variable {s s' : Handlers}

theorem incident_tick {a : Tick} (hs : incident c f (.tick a) s = some s') :
    tick c f a s.session = some s'.session ∧ s'.past = s.past := by
  obtain ⟨u, hu, rfl⟩ := Option.map_eq_some_iff.mp hs
  exact ⟨hu, rfl⟩

theorem Placed.restart (hP : Placed s.past s.session.handler) (now : ℤ) :
    Placed s.taken (IOHandler.init s.session.handler.stored s.session.handler.stored now) :=
  placed_init hP.takenOver hP.apart now

theorem placed_incident {i : Incident} (hP : Placed s.past s.session.handler)
    (hs : incident c f i s = some s') : Placed s'.past s'.session.handler := by
  cases i with
  | restart now =>
      obtain rfl := Option.some.inj hs
      exact hP.restart now
  | tick a =>
      obtain ⟨htick, hpast⟩ := incident_tick hs
      rw [hpast]
      cases a with
      | notify now =>
          obtain ⟨-, -, heq⟩ := tick_notify htick
          rw [heq]
          exact hP.enter c now
      | answer e =>
          obtain ⟨-, hstep, -, -, -⟩ := tick_answer htick
          exact hP.step (s := (s.session.control, s.session.handler)) hstep

theorem placed_handlers_init (start : ℕ) (now : ℤ) :
    Placed (Handlers.init start now).past (Handlers.init start now).session.handler :=
  placed_init (by simp) List.Pairwise.nil now

/-- **No byte twice.**  Over any number of handlers of a file, each ended at any
moment and followed by one at the stored position, and whatever the callback
answers: no two of the lines the output took have a byte in common, and all of
them are over at the stored position. -/
theorem taken_once {start : ℕ} {now : ℤ} {is : List Incident}
    (hr : run (incident c f) is (Handlers.init start now) = some s) :
    s.taken.Pairwise Line.Disjoint ∧ ∀ l ∈ s.taken, l.OverBy s.session.handler.stored := by
  have hP : Placed s.past s.session.handler :=
    run_inv (I := fun u : Handlers => Placed u.past u.session.handler)
      (fun _ _ _ hI hs => placed_incident hI hs) is _ _ (placed_handlers_init start now) hr
  exact ⟨hP.apart, hP.takenOver⟩

def aLine : Line := ⟨0, [97]⟩

def cLine : Line := ⟨4, [99]⟩

/-- Of a batch of two one line is taken; the process is gone before the other is
sent, and in the middle of a call of the next. -/
def goneTwice : List Incident :=
  [.tick (.notify 1), .tick (.answer (.fread 7 7 false 1)),
    .tick (.answer (.receive true [.taken, .unsent] 2)), .restart 3, .tick (.notify 4),
    .tick (.answer (.fread 7 3 false 4)), .restart 5, .tick (.notify 6),
    .tick (.answer (.fread 7 3 false 6)), .tick (.answer (.fread 7 0 false 6)),
    .tick (.answer (.receive true [.taken] 6))]

theorem taken_once_gone : ∃ s, run (incident smallConf smallFile) goneTwice (Handlers.init 0 0)
      = some s ∧ s.taken = [aLine, cLine] ∧ s.taken.Pairwise Line.Disjoint := by
  have hr : run (incident smallConf smallFile) goneTwice (Handlers.init 0 0) = some _ := rfl
  exact ⟨_, hr, by decide, (taken_once hr).1⟩

/-! ## The order

In each of these steps lines that are taken stay behind those taken before, just
when the callback takes its batches from the front.
-/

/-- What was taken, and then what is held, is in the order of the file. -/
def Ordered (past : List Line) (h : IOHandler) : Prop :=
  (past ++ h.accepted ++ h.lines).Pairwise Line.Before

def InOrder (s : Handlers) : Prop := Ordered s.past s.session.handler

instance (past : List Line) (h : IOHandler) : Decidable (Ordered past h) := by
  unfold Ordered; infer_instance

instance (s : Handlers) : Decidable (InOrder s) := by
  unfold InOrder; infer_instance

/-- An answer that returned `true` took no line behind one that it left. -/
def Incident.Front : Incident → Prop
  | .tick (.answer (.receive true vs _)) => FromTheFront vs
  | _ => True

instance : DecidablePred Incident.Front
  | .tick (.answer (.receive true vs _)) => inferInstanceAs (Decidable (FromTheFront vs))
  | .tick (.answer (.receive false _ _)) => isTrue trivial
  | .tick (.answer (.fread _ _ _ _)) => isTrue trivial
  | .tick (.notify _) => isTrue trivial
  | .restart _ => isTrue trivial

/-- Lines that start at `cutPos` or behind it come last. -/
theorem Ordered.append (ho : Ordered past h) (hP : Placed past h) {more : List Line}
    (hmore : more.Pairwise Line.Before) (hfrom : ∀ l ∈ more, h.cutPos ≤ l.start) :
    (past ++ h.accepted ++ (h.lines ++ more)).Pairwise Line.Before := by
  rw [← List.append_assoc]
  refine List.pairwise_append.mpr ⟨ho, hmore, fun l hl l' hl' => ?_⟩
  have hover : l.OverBy h.cutPos := by
    rcases List.mem_append.mp hl with hl | hl
    · exact hP.taken_over hl
    · exact hP.lines_over hl
  exact hover.mono (hfrom l' hl')

theorem Ordered.read (ho : Ordered past h) (hP : Placed past h) {visible n : ℕ} {failed : Bool}
    (hok : FreadOk c f h visible n failed) (now : ℤ) :
    Ordered past (scanBuffer c now (IOHandler.afterFread f visible n failed h)).1 := by
  obtain ⟨frames, hs⟩ := scanBuffer_spec c now (IOHandler.afterFread f visible n failed h)
  have hacc : (scanBuffer c now (IOHandler.afterFread f visible n failed h)).1.accepted
      = h.accepted := by
    unfold accepted
    rw [hs.same]
    rfl
  obtain ⟨hord, hin⟩ := @layout_places c (IOHandler.afterFread f visible n failed h).cutPos frames
    hs.nonempty
  unfold Ordered
  rw [hacc, hs.lines_eq]
  exact Ordered.append (h := IOHandler.afterFread f visible n failed h) ho (hP.afterFread hok) hord
    fun l hl => (hin l hl).1

theorem Ordered.handleUncleaned (ho : Ordered past h) (hP : Placed past h) (c : Conf) (now : ℤ) :
    Ordered past (handleUncleaned c now h) := by
  rcases handleUncleaned_cases c now h with ⟨-, heq⟩ | ⟨-, -, -, heq⟩ | ⟨-, heq⟩ <;> rw [heq]
  · exact ho
  · refine ho.append hP (List.pairwise_singleton _ _) fun l hl => ?_
    obtain rfl := List.mem_singleton.mp hl
    exact Nat.le_refl _
  · exact ho

/-- Taken from the front, a batch leaves everything in order. -/
theorem Ordered.afterReceive (ho : Ordered past h) {ok : Bool} {vs : List Verdict}
    (hfront : ok = true → FromTheFront vs) (now : ℤ) : Ordered past (afterReceive ok vs now h) := by
  unfold Ordered
  rw [accepted_afterReceive]
  cases ok with
  | false =>
      rw [if_neg Bool.false_ne_true, List.append_nil]
      exact ho
  | true =>
      show (past ++ (h.accepted ++ pick .taken h.lines vs) ++ pick .unsent h.lines vs).Pairwise _
      have hsub := (@parts_sublist h.lines _ (hfront rfl)).append_left (past ++ h.accepted)
      simpa only [List.append_assoc] using List.Pairwise.sublist hsub ho

/-- Otherwise a line that is left is behind one that followed it. -/
theorem not_ordered_afterReceive (ho : Ordered past h) {vs : List Verdict}
    (hlen : vs.length = h.lines.length) (hfront : ¬ FromTheFront vs) (now : ℤ) :
    ¬ Ordered past (afterReceive true vs now h) := by
  obtain ⟨l, hl, l', hl', hbefore⟩ :=
    exists_overtaken hlen hfront (List.pairwise_append.mp ho).2.1
  intro hafter
  unfold Ordered at hafter
  rw [accepted_afterReceive] at hafter
  have hcross := (List.pairwise_append.mp hafter).2.2 l' (by simp [hl']) l hl
  exact hbefore.asymm hcross

theorem ordered_step {e : Event} {r r' : Control × IOHandler} (ho : Ordered past r.2)
    (hP : Placed past r.2) (hfront : (Incident.tick (.answer e)).Front) (hs : Step c f e r r') :
    Ordered past r'.2 := by
  have hok : ∀ {ok : Bool} {vs : List Verdict} {now : ℤ},
      (Incident.tick (.answer (.receive ok vs now))).Front → ok = true → FromTheFront vs := by
    rintro ok vs now hf rfl
    exact hf
  cases hs with
  | resend => exact ho.afterReceive (hok hfront) _
  | readNothing hread =>
      rw [leaveReads_handler]
      exact ho.read hP hread _
  | readFull hread =>
      rw [leaveReads_handler]
      exact ho.read hP hread _
  | readOn hread => exact ho.read hP hread _
  | send => exact ho.afterReceive (hok hfront) _

theorem inOrder_incident {i : Incident} (ho : InOrder s) (hP : Placed s.past s.session.handler)
    (hfront : i.Front) (hs : incident c f i s = some s') : InOrder s' := by
  cases i with
  | restart now =>
      obtain rfl := Option.some.inj hs
      have htaken : s.taken.Pairwise Line.Before := (List.pairwise_append.mp ho).1
      simpa [InOrder, Ordered, Session.init, IOHandler.init, accepted] using htaken
  | tick a =>
      obtain ⟨htick, hpast⟩ := incident_tick hs
      unfold InOrder
      rw [hpast]
      cases a with
      | notify now =>
          obtain ⟨-, -, heq⟩ := tick_notify htick
          rw [heq]
          show Ordered s.past (enter c now s.session.handler).2
          rw [enter_handler, if_pos hP.fileOpen]
          exact Ordered.handleUncleaned ho hP c now
      | answer e =>
          obtain ⟨-, hstep, -, -, -⟩ := tick_answer htick
          exact ordered_step (r := (s.session.control, s.session.handler)) ho hP hfront hstep

theorem not_inOrder_incident {i : Incident} (ho : InOrder s) (hfront : ¬ i.Front)
    (hs : incident c f i s = some s') : ¬ InOrder s' := by
  match i, hfront with
  | .tick (.answer (.receive true vs now)), hfront =>
      obtain ⟨htick, hpast⟩ := incident_tick hs
      obtain ⟨-, hstep, -, -, -⟩ := tick_answer htick
      have hafter : vs.length = s.session.handler.lines.length ∧
          s'.session.handler = afterReceive true vs now s.session.handler := by
        generalize hr' : (s'.session.control, s'.session.handler) = r' at hstep
        generalize hr : (s.session.control, s.session.handler) = r at hstep
        cases hstep with
        | resend hlen =>
            obtain ⟨-, rfl⟩ := Prod.mk.inj hr
            exact ⟨hlen, (Prod.mk.inj hr').2⟩
        | send hlen =>
            obtain ⟨-, rfl⟩ := Prod.mk.inj hr
            exact ⟨hlen, (Prod.mk.inj hr').2⟩
      unfold InOrder
      rw [hpast, hafter.2]
      exact not_ordered_afterReceive ho hafter.1 hfront now
  | .tick (.answer (.receive false _ _)), hfront => exact absurd trivial hfront
  | .tick (.answer (.fread _ _ _ _)), hfront => exact absurd trivial hfront
  | .tick (.notify _), hfront => exact absurd trivial hfront
  | .restart _, hfront => exact absurd trivial hfront

/-- **When the order of the file is kept.**  At every moment of every succession of
handlers the lines taken, and then the lines held, are in the order of the file,
if and only if no callback that returned `true` took a line behind one of its
batch that it left unsent.  Restarts, flushes and callbacks that fail do no harm. -/
theorem in_order_iff {start : ℕ} {now : ℤ} {is : List Incident}
    (hr : run (incident c f) is (Handlers.init start now) = some s) :
    (∀ u, Visits (incident c f) is (Handlers.init start now) u → InOrder u) ↔
      ∀ i ∈ is, i.Front := by
  have hinit : InOrder (Handlers.init start now) := List.Pairwise.nil
  have hiff := visits_iff_along
    (I := fun u : Handlers => Placed u.past u.session.handler ∧ InOrder u) (P := InOrder)
    (C := fun _ i => i.Front)
    (fun i u u' hI hfront hs =>
      ⟨⟨placed_incident hI.1 hs, inOrder_incident hI.2 hI.1 hfront hs⟩,
        inOrder_incident hI.2 hI.1 hfront hs⟩)
    (fun i u u' hI hfront hs => not_inOrder_incident hI.2 hfront hs)
    ⟨placed_handlers_init start now, hinit⟩ hinit hr
  exact hiff.trans ⟨forall_of_along hr, along_of_forall⟩

theorem in_order_iff_gone : ∃ s, run (incident smallConf smallFile) goneTwice (Handlers.init 0 0)
      = some s ∧ InOrder s := by
  have hr : run (incident smallConf smallFile) goneTwice (Handlers.init 0 0) = some _ := rfl
  exact ⟨_, hr, (in_order_iff hr).mpr (by decide) _ (visits_of_run hr)⟩

end IOHandler

end Logkafka
