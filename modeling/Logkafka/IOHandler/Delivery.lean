/-
# `Logkafka.IOHandler.Delivery` — what survives the loss of a handler

A handler can be discarded after any call: the process dies, or the watcher is
closed (`closeWatcher`) and deleted.  What survives is the stored position; a
new handler starts there.  At-least-once delivery asks that every line cut,
not dropped by the filter and not taken by the output, starts at or after it:

    AtLeastOnce h    ∀ l ∈ cut, l ∉ filtered → l ∉ accepted → stored ≤ l.start

The code stores `getFilePos() - m_buffer_len` after every callback that
returned `true`, also when lines of the batch came back in `unsent_lines`.
Those lines stay in `m_lines` and nowhere else, and the stored position is
past all of them.  So the law is not a law, and `at_least_once_iff` says when
it holds: exactly in the runs in which

* no callback that returned `true` left a line unsent, and
* a watcher closed as unwatched had nothing pending when it was marked: its
  last callback did not return `false`.

The second condition concerns only callbacks that return `false`.
`Manager::receiveLines` never does with an output, so in the daemon the first
condition is the whole of it.

A handler starts where its entry says: `init start start`.
-/
import Logkafka.IOHandler.Accounting

namespace Logkafka.IOHandler

/-! ## The life of a handler -/

/-- `PositionFile::UNWATCHED_POSITION`, as it is printed: `(unsigned long long)-1`. -/
def unwatchedPosition : ℕ := 2 ^ 64 - 1

/-- `Manager::closeWatcher`: `tail->stop(true)` calls `onNotify` once more and
closes the file; an unwatched entry is marked. -/
def closeWatcher (c : Conf) (f : LogFile) (unwatched : Bool) (now : ℤ) (es : List Event)
    (h : IOHandler) : Option IOHandler :=
  (onNotify c f now es h).map fun h =>
    { h.close with stored := if unwatched then unwatchedPosition else h.stored }

/-- What happens to a handler. -/
inductive Op
  | notify (now : ℤ) (es : List Event)
  | closeWatcher (unwatched : Bool) (now : ℤ) (es : List Event)
deriving DecidableEq

def life (c : Conf) (f : LogFile) : Op → IOHandler → Option IOHandler
  | .notify now es, h => onNotify c f now es h
  | .closeWatcher unwatched now es, h => closeWatcher c f unwatched now es h

/-- Every line not yet handed over is read again from the stored position. -/
def AtLeastOnce (h : IOHandler) : Prop :=
  ∀ l ∈ h.cut, l ∉ h.filtered → l ∉ h.accepted → h.stored ≤ l.start

/-! ## The answers of the callback -/

/-- An answer that returned `true` left nothing unsent. -/
def CleanAnswer (a : Bool × List Verdict) : Prop := a.1 = true → .unsent ∉ a.2

instance (a : Bool × List Verdict) : Decidable (CleanAnswer a) := by
  unfold CleanAnswer; infer_instance

/-- No callback that returned `true` leaves a line unsent; and if the entry is
marked unwatched, the last callback did not fail (without any, nothing was
pending). -/
def Clean (h : IOHandler) : Op → Prop
  | .notify _ es => ∀ a ∈ answers es, CleanAnswer a
  | .closeWatcher unwatched _ es =>
      (∀ a ∈ answers es, CleanAnswer a) ∧
        (unwatched = true →
          match (answers es).getLast? with
          | some a => a.1 = true
          | none => h.lines = [])

instance (h : IOHandler) : ∀ op : Op, Decidable (Clean h op)
  | .notify _ es => inferInstanceAs (Decidable (∀ a ∈ answers es, CleanAnswer a))
  | .closeWatcher _ _ es =>
      have : Decidable (match (answers es).getLast? with
          | some a => a.1 = true
          | none => h.lines = []) :=
        match (answers es).getLast? with
        | some a => inferInstanceAs (Decidable (a.1 = true))
        | none => inferInstanceAs (Decidable (h.lines = []))
      inferInstanceAs (Decidable (_ ∧ (_ = true → _)))

/-! ## What a call leaves pending

The last answer decides: a call that returns leaves nothing, or what its last
callback left unsent, or, where that returned `false`, the batch.
-/

/-- At a call of the receive callback there is something to send, and `onNotify`
runs only on an open file. -/
structure WellAt (s : Control × IOHandler) : Prop where
  pending : s.1 = .resend ∨ (∃ readMore, s.1 = .send readMore) → s.2.lines ≠ []
  fileOpen : s.1 ≠ .returned → s.2.fileOpen = true

theorem wellAt_leaveReads {readMore : Bool} {h : IOHandler} (ho : h.fileOpen = true) :
    WellAt (leaveReads readMore h) := by
  rcases leaveReads_cases readMore h with ⟨-, -, heq⟩ | ⟨-, -, heq⟩ | ⟨hl, heq⟩ <;> rw [heq]
  · exact ⟨by simp, fun _ => ho⟩
  · exact ⟨by simp, fun _ => ho⟩
  · exact ⟨fun _ => hl, fun _ => ho⟩

theorem WellAt.step {c : Conf} {f : LogFile} {e : Event} {s s' : Control × IOHandler}
    (hw : WellAt s) (hs : step c f e s = some s') : WellAt s' ∧ s'.2.fileOpen = true := by
  cases step_cases hs with
  | @resend _ vs _ h =>
      have ho := hw.fileOpen (by simp)
      refine ⟨⟨fun hc => ?_, fun _ => ho⟩, ho⟩
      split at hc <;> simp at hc
  | @readNothing visible failed _ now h =>
      have ho := (scanBuffer_fileOpen c now (afterFread f visible 0 failed h)).trans
        (hw.fileOpen (by simp))
      exact ⟨wellAt_leaveReads ho, by rw [leaveReads_handler]; exact ho⟩
  | @readFull visible n failed _ now h =>
      have ho := (scanBuffer_fileOpen c now (afterFread f visible n failed h)).trans
        (hw.fileOpen (by simp))
      exact ⟨wellAt_leaveReads ho, by rw [leaveReads_handler]; exact ho⟩
  | @readOn visible n failed _ now h =>
      have ho := (scanBuffer_fileOpen c now (afterFread f visible n failed h)).trans
        (hw.fileOpen (by simp))
      exact ⟨⟨by simp, fun _ => ho⟩, ho⟩
  | @send _ readMore vs _ h =>
      have ho := hw.fileOpen (by simp)
      refine ⟨⟨fun hc => ?_, fun _ => ho⟩, ho⟩
      split at hc <;> simp at hc

theorem wellAt_enter (c : Conf) (now : ℤ) (h : IOHandler) : WellAt (enter c now h) := by
  have hopen := handleUncleaned_fileOpen c now h
  rcases enter_cases c now h with ⟨-, heq⟩ | ⟨ho, -, heq⟩ | ⟨ho, hl, heq⟩ <;> rw [heq]
  · exact ⟨by simp, by simp⟩
  · exact ⟨by simp, fun _ => hopen.trans ho⟩
  · exact ⟨fun _ => hl, fun _ => hopen.trans ho⟩

/-- What is pending when a call returns, by the last answer it got: nothing
after a clean success; something after a failure, or when lines were left
unsent, and then the position is stored past it. -/
def Outcome (es : List Event) (s : Control × IOHandler) (h' : IOHandler) : Prop :=
  match (answers es).getLast? with
  | none => (s.1 = .returned ∧ h' = s.2) ∨ (s.2.lines = [] ∧ h'.lines = [])
  | some a =>
      (a.1 = true → .unsent ∉ a.2 → h'.lines = []) ∧
      (a.1 = false → h'.lines ≠ []) ∧
      (a.1 = true → .unsent ∈ a.2 → h'.lines ≠ [] ∧ h'.stored = h'.cutPos)

/-- A read before the answers `es` changes nothing of the outcome: it only adds
to `m_lines`, and the loop is not left for good while there is something to send. -/
theorem Outcome.read {es : List Event} {visible n : ℕ} {failed : Bool} {t : ℤ} {rm : Bool}
    {s' : Control × IOHandler} {h h' : IOHandler} (ho : Outcome es s' h')
    (hlines : h.lines <+: s'.2.lines) (hret : s'.1 = .returned → s'.2.lines = []) :
    Outcome (.fread visible n failed t :: es) (.read rm, h) h' := by
  unfold Outcome at ho ⊢
  rw [answers_fread]
  cases hl : (answers es).getLast? with
  | some a => simpa [hl] using ho
  | none =>
      rw [hl] at ho
      refine Or.inr ?_
      rcases ho with ⟨hr, rfl⟩ | ⟨hs, hn⟩
      · have hnil := hret hr
        rw [hnil] at hlines
        exact ⟨List.prefix_nil.mp hlines, hnil⟩
      · rw [hs] at hlines
        exact ⟨List.prefix_nil.mp hlines, hn⟩

/-- An answer before the answers `es` decides the outcome when no other follows. -/
theorem Outcome.receive {c : Conf} {f : LogFile} {es : List Event} {ok : Bool} {vs : List Verdict}
    {t : ℤ} {ctl : Control} {s' : Control × IOHandler} {h h' : IOHandler}
    (hlen : vs.length = h.lines.length) (hne : h.lines ≠ []) (hopen : h.fileOpen = true)
    (hs : s'.2 = afterReceive ok vs t h)
    (hret : .unsent ∈ vs → s'.1 = .returned) (hr : run (step c f) es s' = some (.returned, h'))
    (ho : Outcome es s' h') : Outcome (.receive ok vs t :: es) (ctl, h) h' := by
  have hnext : s'.1 = .returned → es = [] ∧ h' = s'.2 := by
    intro hc
    obtain ⟨ctl', h''⟩ := s'
    obtain rfl : ctl' = .returned := hc
    cases es with
    | nil => exact ⟨rfl, by simpa using hr.symm⟩
    | cons e es => cases e <;> simp [run_cons, step] at hr
  -- lines left unsent end the call, so no answer follows this one
  have hunsent : .unsent ∈ vs → es = [] ∧ h' = s'.2 := fun hu => hnext (hret hu)
  have hafter : ok = false → s'.2.lines = h.lines := by
    rintro rfl
    rw [hs]
    rfl
  have htaken : ok = true → s'.2.lines = pick .unsent h.lines vs := by
    rintro rfl
    rw [hs]
    rfl
  unfold Outcome at ho ⊢
  rw [answers_receive]
  cases hl : (answers es).getLast? with
  | some a =>
      rw [hl] at ho
      rw [List.getLast?_cons, hl]
      exact ho
  | none =>
      rw [hl] at ho
      rw [List.getLast?_cons, hl]
      refine ⟨fun hok hnu => ?_, fun hok => ?_, fun hok hu => ?_⟩
      · have hnil : s'.2.lines = [] := by
          rw [htaken hok]
          exact (pick_nil_iff hlen).mpr hnu
        rcases ho with ⟨-, rfl⟩ | ⟨-, hn⟩
        · exact hnil
        · exact hn
      · have hkeep := hafter hok
        rcases ho with ⟨-, rfl⟩ | ⟨hs', -⟩
        · rwa [hkeep]
        · exact absurd (hkeep.symm.trans hs') hne
      · obtain ⟨-, rfl⟩ := hunsent hu
        refine ⟨?_, ?_⟩
        · rw [htaken hok]
          exact fun hnil => (pick_nil_iff hlen).mp hnil hu
        · obtain rfl : ok = true := hok
          rw [hs]
          show h.getFilePos - h.buffer.length = h.filePos - h.buffer.length
          rw [getFilePos, if_pos hopen]

theorem outcome_of_run {c : Conf} {f : LogFile} :
    ∀ {es : List Event} {s : Control × IOHandler} {h' : IOHandler}, WellAt s →
      run (step c f) es s = some (.returned, h') → Outcome es s h'
  | [], s, h', _, hr => by
      obtain rfl : s = (.returned, h') := by simpa using hr
      exact Or.inl ⟨rfl, rfl⟩
  | e :: es, s, h', hw, hr => by
      obtain ⟨s', hs, hr⟩ := run_cons_eq_some.mp hr
      have ho := outcome_of_run (hw.step hs).1 hr
      have hscan : ∀ (now : ℤ) (h : IOHandler), h.lines <+: (scanBuffer c now h).1.lines := by
        intro now h
        obtain ⟨frames, hsp⟩ := scanBuffer_spec c now h
        exact hsp.lines_eq ▸ List.prefix_append _ _
      have hleave : ∀ (rm : Bool) (h : IOHandler), (leaveReads rm h).1 = .returned →
          (leaveReads rm h).2.lines = [] := by
        intro rm h hc
        rw [leaveReads_handler]
        by_contra hne
        rw [leaveReads_of_lines hne] at hc
        cases hc
      cases step_cases hs with
      | readNothing =>
          exact ho.read (by rw [leaveReads_handler]; exact hscan _ (afterFread _ _ _ _ _))
            (hleave _ _)
      | readFull =>
          exact ho.read (by rw [leaveReads_handler]; exact hscan _ (afterFread _ _ _ _ _))
            (hleave _ _)
      | readOn => exact ho.read (hscan _ (afterFread _ _ _ _ _)) (by simp)
      | @resend ok vs t h hlen =>
          refine ho.receive hlen (hw.pending (Or.inl rfl)) (hw.fileOpen (by simp)) rfl ?_ hr
          intro hu
          show (if _ then _ else _) = _
          rw [if_neg fun hnil => (pick_nil_iff hlen).mp hnil hu]
      | @send ok rm vs t h hlen =>
          refine ho.receive hlen (hw.pending (Or.inr ⟨rm, rfl⟩)) (hw.fileOpen (by simp)) rfl ?_ hr
          intro hu
          show (if _ then _ else _) = _
          rw [if_neg fun hnil => (pick_nil_iff hlen).mp hnil.2 hu]

/-- An answer that leaves lines unsent is the last one of its call. -/
theorem unclean_last {c : Conf} {f : LogFile} {a : Bool × List Verdict} (ha : ¬ CleanAnswer a) :
    ∀ {es : List Event} {s : Control × IOHandler} {h' : IOHandler},
      run (step c f) es s = some (.returned, h') → a ∈ answers es →
        (answers es).getLast? = some a
  | [], _, _, _, hmem => by simp [answers] at hmem
  | e :: es, s, h', hr, hmem => by
      obtain ⟨s', hs, hr⟩ := run_cons_eq_some.mp hr
      have hrest : ∀ (e' : Event), answers (e' :: es) = answers es ∨
          (∃ b, answers (e' :: es) = b :: answers es) := by
        rintro (_ | _)
        · exact Or.inl rfl
        · exact Or.inr ⟨_, rfl⟩
      by_cases hin : a ∈ answers es
      · have ih := unclean_last ha hr hin
        rcases hrest e with h | ⟨b, h⟩
        · rw [h, ih]
        · rw [h, List.getLast?_cons, ih]
          rfl
      · -- then the answer is this very event, and the call is over
        cases e with
        | fread => exact absurd hmem hin
        | receive ok vs t =>
            rw [answers_receive] at hmem ⊢
            obtain rfl : a = (ok, vs) := by
              rcases List.mem_cons.mp hmem with h | h
              · exact h
              · exact absurd h hin
            have hu : .unsent ∈ vs := by
              by_contra hnu
              exact ha fun _ => hnu
            have hret : s'.1 = .returned := by
              cases step_cases hs with
              | resend hlen =>
                  show (if _ then _ else _) = _
                  rw [if_neg fun hnil => (pick_nil_iff hlen).mp hnil hu]
              | send hlen =>
                  show (if _ then _ else _) = _
                  rw [if_neg fun hnil => (pick_nil_iff hlen).mp hnil.2 hu]
            obtain ⟨ctl, h⟩ := s'
            obtain rfl : ctl = .returned := hret
            cases es with
            | nil => rfl
            | cons e es => cases e <;> simp [run_cons, step] at hr

/-! ## Pending lines start at or after the stored position

The invariant of the good runs.  The position is stored behind a batch only if
nothing of it comes back.
-/

/-- Bytes are held or lines cut only of what the file has. -/
def InFile (f : LogFile) (h : IOHandler) : Prop :=
  (h.buffer = [] ∧ h.cut = []) ∨ h.filePos ≤ f.content.length

theorem InFile.scanBuffer {f : LogFile} {h : IOHandler} (hi : InFile f h) (c : Conf) (now : ℤ) :
    InFile f (scanBuffer c now h).1 := by
  rcases hi with ⟨hb, hc⟩ | hle
  · rw [IOHandler.scanBuffer, if_pos hb]
    exact Or.inl ⟨hb, hc⟩
  · obtain ⟨frames, hs⟩ := scanBuffer_spec c now h
    refine Or.inr ?_
    rw [hs.same]
    exact hle

theorem InFile.afterFread {c : Conf} {f : LogFile} {h : IOHandler} {visible n : ℕ} {failed : Bool}
    (hi : InFile f h) (hok : FreadOk c f h visible n failed) :
    InFile f (afterFread f visible n failed h) := by
  obtain ⟨hvis, -, hpos, -⟩ := hok
  rcases Nat.eq_zero_or_pos n with rfl | hn
  · rcases hi with ⟨hb, hc⟩ | hle
    · exact Or.inl ⟨(buffer_afterFread_zero f visible failed h).trans hb, hc⟩
    · exact Or.inr hle
  · exact Or.inr (Nat.le_trans (hpos hn) hvis)

theorem InFile.step {c : Conf} {f : LogFile} {e : Event} {s s' : Control × IOHandler}
    (hi : InFile f s.2) (hs : IOHandler.step c f e s = some s') : InFile f s'.2 := by
  cases step_cases hs with
  | resend => exact hi
  | readNothing hok => rw [leaveReads_handler]; exact (hi.afterFread hok).scanBuffer c _
  | readFull hok => rw [leaveReads_handler]; exact (hi.afterFread hok).scanBuffer c _
  | readOn hok => exact (hi.afterFread hok).scanBuffer c _
  | send => exact hi

theorem InFile.enter {f : LogFile} {h : IOHandler} (hi : InFile f h) (c : Conf) (now : ℤ) :
    InFile f (enter c now h).2 := by
  rw [enter_handler]
  split
  · have hle : h.buffer ≠ [] → h.filePos ≤ f.content.length := by
      intro hb
      rcases hi with ⟨hnil, -⟩ | hle
      · exact absurd hnil hb
      · exact hle
    rcases handleUncleaned_cases c now h with ⟨-, heq⟩ | ⟨hb, -, -, heq⟩ | ⟨hb, heq⟩ <;> rw [heq]
    · exact hi
    · exact Or.inr (hle hb)
    · exact Or.inr (hle hb)
  · exact hi

/-- The invariant of the runs without loss. -/
structure Safe (f : LogFile) (h : IOHandler) : Prop where
  tallied : Tallied h
  inFile : InFile f h
  storedLe : h.fileOpen = true → h.stored ≤ h.cutPos
  pendingLe : ∀ l ∈ h.lines, h.stored ≤ l.start

theorem safe_init (f : LogFile) (start : ℕ) (now : ℤ) : Safe f (init start start now) where
  tallied := tallied_init _ _ _
  inFile := Or.inl ⟨rfl, rfl⟩
  storedLe := fun _ => Nat.le_refl _
  pendingLe := by simp [init]

theorem Safe.atLeastOnce {f : LogFile} {h : IOHandler} (hs : Safe f h) : AtLeastOnce h := by
  intro l hl hf ha
  have hmem := hs.tallied.account.mem_iff.mp hl
  simp only [List.mem_append, ha, hf, false_or] at hmem
  exact hs.pendingLe l hmem

/-- Lines pending before the stored position are lost with the handler. -/
theorem not_atLeastOnce {h : IOHandler} (hT : Tallied h) (hne : h.lines ≠ [])
    (hlt : ∀ l ∈ h.cut, l.start < h.stored) : ¬ AtLeastOnce h := by
  intro hall
  obtain ⟨l, hl⟩ := List.exists_mem_of_ne_nil _ hne
  have hcut : l ∈ h.cut := hT.account.mem_iff.mpr (List.mem_append_right _ hl)
  have hdisj := (List.nodup_append.mp hT.accounted.2).2.2
  have hout : l ∉ h.accepted ++ h.filtered := fun hin => hdisj l hin l hl rfl
  rw [List.mem_append, not_or] at hout
  exact absurd (hall l hcut hout.2 hout.1) (Nat.not_le_of_lt (hlt l hcut))

theorem Safe.scanBuffer {f : LogFile} {h : IOHandler} (hs : Safe f h) (ho : h.fileOpen = true)
    (c : Conf) (now : ℤ) : Safe f (scanBuffer c now h).1 := by
  obtain ⟨frames, hsp⟩ := scanBuffer_spec c now h
  have hstored : (IOHandler.scanBuffer c now h).1.stored = h.stored := by rw [hsp.same]
  have hle := hs.storedLe ho
  refine ⟨hs.tallied.scanBuffer c now, hs.inFile.scanBuffer c now, fun _ => ?_, fun l hl => ?_⟩
  · rw [hsp.cutPos hs.tallied.bufferLe, hstored]
    exact Nat.le_trans hle (Nat.le_add_right _ _)
  · rw [hsp.lines_eq] at hl
    rw [hstored]
    rcases List.mem_append.mp hl with hl | hl
    · exact hs.pendingLe l hl
    · exact Nat.le_trans hle ((layout_starts c hsp.nonempty).2 l hl).1

theorem Safe.afterFread {c : Conf} {f : LogFile} {h : IOHandler} {visible n : ℕ} {failed : Bool}
    (hs : Safe f h) (hok : FreadOk c f h visible n failed) :
    Safe f (afterFread f visible n failed h) where
  tallied := hs.tallied.afterFread hok
  inFile := hs.inFile.afterFread hok
  storedLe := by
    rw [cutPos_afterFread hok hs.tallied.bufferLe]
    exact hs.storedLe
  pendingLe := hs.pendingLe

theorem Safe.afterReceive {f : LogFile} {h : IOHandler} (hs : Safe f h) (ho : h.fileOpen = true)
    {ok : Bool} {vs : List Verdict} (hlen : vs.length = h.lines.length)
    (hclean : CleanAnswer (ok, vs)) (now : ℤ) : Safe f (afterReceive ok vs now h) := by
  refine ⟨hs.tallied.afterReceive hlen ok now, hs.inFile, fun _ => ?_, ?_⟩
  · cases ok with
    | false => exact hs.storedLe ho
    | true =>
        show h.getFilePos - h.buffer.length ≤ h.filePos - h.buffer.length
        rw [getFilePos, if_pos ho]
  · cases ok with
    | false => exact hs.pendingLe
    | true =>
        show ∀ l ∈ pick .unsent h.lines vs, _
        rw [(pick_nil_iff hlen).mpr (hclean rfl)]
        simp

theorem Safe.step {c : Conf} {f : LogFile} {e : Event} {s s' : Control × IOHandler}
    (hs : Safe f s.2) (hw : WellAt s) (he : e.Answers CleanAnswer)
    (hstep : IOHandler.step c f e s = some s') : Safe f s'.2 := by
  cases step_cases hstep with
  | resend hlen => exact hs.afterReceive (hw.fileOpen (by simp)) hlen he _
  | readNothing hok =>
      rw [leaveReads_handler]
      exact (hs.afterFread hok).scanBuffer (hw.fileOpen (by simp)) c _
  | readFull hok =>
      rw [leaveReads_handler]
      exact (hs.afterFread hok).scanBuffer (hw.fileOpen (by simp)) c _
  | readOn hok => exact (hs.afterFread hok).scanBuffer (hw.fileOpen (by simp)) c _
  | send hlen => exact hs.afterReceive (hw.fileOpen (by simp)) hlen he _

theorem Safe.handleUncleaned {f : LogFile} {h : IOHandler} (hs : Safe f h)
    (ho : h.fileOpen = true) (c : Conf) (now : ℤ) : Safe f (handleUncleaned c now h) := by
  have hle := hs.storedLe ho
  have hT := hs.tallied.handleUncleaned c now
  have hi := hs.inFile.enter c now
  rw [enter_handler, if_pos ho] at hi
  rcases handleUncleaned_cases c now h with ⟨-, heq⟩ | ⟨-, -, -, heq⟩ | ⟨-, heq⟩ <;>
    rw [heq] at hT hi ⊢
  · exact hs
  · refine ⟨hT, hi, fun _ => ?_, fun l hl => ?_⟩
    · show h.stored ≤ h.filePos
      exact Nat.le_trans hle (Nat.sub_le _ _)
    · rcases List.mem_append.mp hl with hl | hl
      · exact hs.pendingLe l hl
      · obtain rfl := List.mem_singleton.mp hl
        exact hle
  · exact ⟨hT, hi, fun _ => hle, hs.pendingLe⟩

theorem Safe.enter {f : LogFile} {h : IOHandler} (hs : Safe f h) (c : Conf) (now : ℤ) :
    Safe f (enter c now h).2 := by
  rw [enter_handler]
  split
  · next ho => exact hs.handleUncleaned ho c now
  · exact hs

theorem Safe.onNotify {c : Conf} {f : LogFile} {now : ℤ} {es : List Event} {h h' : IOHandler}
    (hs : Safe f h) (hclean : ∀ a ∈ answers es, CleanAnswer a)
    (hr : onNotify c f now es h = some h') : Safe f h' :=
  (run_inv_along (I := fun s => Safe f s.2 ∧ WellAt s) (C := fun _ e => e.Answers CleanAnswer)
    (fun _ _ _ hI he hstep => ⟨hI.1.step hI.2 he hstep, (hI.2.step hstep).1⟩) es _ _
    ⟨hs.enter c now, wellAt_enter c now h⟩ (along_of_forall (forall_answers hclean))
    (onNotify_eq_some.mp hr)).1

/-! ## Whole lives

A call with an unclean answer ends with lines that start before the position
stored, and from there they are not read again.
-/

theorem inFile_onNotify {c : Conf} {f : LogFile} {now : ℤ} {es : List Event} {h h' : IOHandler}
    (hi : InFile f h) (hr : onNotify c f now es h = some h') : InFile f h' :=
  run_inv (I := fun s => InFile f s.2) (fun _ _ _ hI hs => hI.step hs) es _ _ (hi.enter c now)
    (onNotify_eq_some.mp hr)

theorem outcome_onNotify {c : Conf} {f : LogFile} {now : ℤ} {es : List Event} {h h' : IOHandler}
    (hr : onNotify c f now es h = some h') : Outcome es (enter c now h) h' :=
  outcome_of_run (wellAt_enter c now h) (onNotify_eq_some.mp hr)

/-- A call with an unclean answer ends with lines pending before the stored
position. -/
theorem lost_of_unclean {c : Conf} {f : LogFile} {now : ℤ} {es : List Event} {h h' : IOHandler}
    (hT : Tallied h) (hr : onNotify c f now es h = some h')
    (hun : ¬ ∀ a ∈ answers es, CleanAnswer a) :
    h'.lines ≠ [] ∧ ∀ l ∈ h'.cut, l.start < h'.stored := by
  simp only [not_forall] at hun
  obtain ⟨a, hmem, ha⟩ := hun
  have hlast := unclean_last ha (onNotify_eq_some.mp hr) hmem
  have ho := outcome_onNotify hr
  unfold Outcome at ho
  rw [hlast] at ho
  simp only [CleanAnswer, not_forall, not_not] at ha
  obtain ⟨hok, hu⟩ := ha
  obtain ⟨hne, hstored⟩ := ho.2.2 hok hu
  exact ⟨hne, fun l hl => hstored ▸ (hT.onNotify hr).below l hl⟩

/-- Whether an unwatched entry is marked over pending lines. -/
theorem pending_iff {c : Conf} {f : LogFile} {now : ℤ} {es : List Event} {h h' : IOHandler}
    (hr : onNotify c f now es h = some h') (hclean : ∀ a ∈ answers es, CleanAnswer a) :
    h'.lines = [] ↔
      match (answers es).getLast? with
      | some a => a.1 = true
      | none => h.lines = [] := by
  have ho := outcome_onNotify hr
  unfold Outcome at ho
  cases hl : (answers es).getLast? with
  | some a =>
      rw [hl] at ho
      constructor
      · intro hnil
        by_contra hf
        exact ho.2.1 (by simpa using hf) hnil
      · intro hok
        exact ho.1 hok (hclean a (List.mem_of_getLast? hl) hok)
  | none =>
      rw [hl] at ho
      -- without an answer the call never had anything to send
      have hlines : h.lines <+: (enter c now h).2.lines := by
        rw [enter_handler]
        split
        · exact lines_handleUncleaned c now h
        · exact List.prefix_refl _
      rcases ho with ⟨hret, rfl⟩ | ⟨hnil, hnil'⟩
      · have hclosed : h.fileOpen = false := by
          rcases enter_cases c now h with ⟨hclosed, -⟩ | ⟨-, -, heq⟩ | ⟨-, -, heq⟩
          · exact hclosed
          · rw [heq] at hret
            cases hret
          · rw [heq] at hret
            cases hret
        rw [enter_handler, hclosed]
        exact Iff.rfl
      · rw [hnil] at hlines
        exact ⟨fun _ => List.prefix_nil.mp hlines, fun _ => hnil'⟩

theorem safe_of_clean {c : Conf} {f : LogFile} {op : Op} {h h' : IOHandler} (hs : Safe f h)
    (hclean : Clean h op) (hr : life c f op h = some h') : Safe f h' := by
  cases op with
  | notify now es => exact hs.onNotify hclean hr
  | closeWatcher unwatched now es =>
      obtain ⟨hans, hun⟩ := hclean
      obtain ⟨h₁, hcall, rfl⟩ := Option.map_eq_some_iff.mp hr
      have h₁s := hs.onNotify hans hcall
      have hT := h₁s.tallied
      refine ⟨⟨hT.bufferLe, hT.ordered, hT.below, hT.account⟩, h₁s.inFile, by simp [close], ?_⟩
      cases unwatched with
      | false => exact h₁s.pendingLe
      | true =>
          show ∀ l ∈ h₁.lines, _
          rw [(pending_iff hcall hans).mpr (hun rfl)]
          simp

theorem not_atLeastOnce_of_unclean {c : Conf} {f : LogFile} {op : Op} {h h' : IOHandler}
    (hs : Safe f h) (hun : ¬ Clean h op) (hr : life c f op h = some h') : ¬ AtLeastOnce h' := by
  have hT := hs.tallied
  cases op with
  | notify now es =>
      obtain ⟨hne, hlt⟩ := lost_of_unclean hT hr hun
      exact not_atLeastOnce (hT.onNotify hr) hne hlt
  | closeWatcher unwatched now es =>
      obtain ⟨h₁, hcall, rfl⟩ := Option.map_eq_some_iff.mp hr
      have hT₁ := hT.onNotify hcall
      have hT₂ : Tallied { h₁.close with
          stored := if unwatched then unwatchedPosition else h₁.stored } :=
        ⟨hT₁.bufferLe, hT₁.ordered, hT₁.below, hT₁.account⟩
      -- every offset in the file is before the mark
      have hmark : ∀ l ∈ h₁.cut, l.start < unwatchedPosition := by
        intro l hl
        have h1 := hT₁.below l hl
        have h2 : h₁.cutPos ≤ h₁.filePos := Nat.sub_le _ _
        have h3 := f.length_lt
        rcases inFile_onNotify hs.inFile hcall with ⟨-, hnil⟩ | hle
        · rw [hnil] at hl
          cases hl
        · unfold unwatchedPosition
          omega
      by_cases hans : ∀ a ∈ answers es, CleanAnswer a
      · obtain ⟨rfl, hbad⟩ := Classical.not_imp.mp fun hu => hun ⟨hans, hu⟩
        exact not_atLeastOnce hT₂ (fun hnil => hbad ((pending_iff hcall hans).mp hnil)) hmark
      · obtain ⟨hne, hlt⟩ := lost_of_unclean hT hcall hans
        refine not_atLeastOnce hT₂ hne ?_
        cases unwatched with
        | false => exact hlt
        | true => exact hmark

/-- **When no line is lost with its handler.**  In a life of a handler, the
law holds at every moment at which the handler can be discarded exactly when
every step is clean. -/
theorem at_least_once_iff {c : Conf} {f : LogFile} {start : ℕ} {t : ℤ} {ops : List Op}
    {h : IOHandler} (hr : run (life c f) ops (init start start t) = some h) :
    (∀ u, Visits (life c f) ops (init start start t) u → AtLeastOnce u) ↔
      Along (life c f) Clean ops (init start start t) :=
  visits_iff_along (I := Safe f)
    (fun _ _ _ hI hC hs => ⟨safe_of_clean hI hC hs, (safe_of_clean hI hC hs).atLeastOnce⟩)
    (fun _ _ _ hI hC hs => not_atLeastOnce_of_unclean hI hC hs)
    (safe_init f start t) (safe_init f start t).atLeastOnce hr

/-- A batch taken whole, and then the watcher closed as unwatched. -/
def takenAndClosed : List Op :=
  [.notify 5 [.fread 4 4 false 5, .receive true [.taken, .taken] 6, .fread 4 0 false 6],
    .closeWatcher true 7 [.fread 4 0 false 7]]

theorem at_least_once_iff_taken :
    ∃ h, run (life smallConf smallFile) takenAndClosed (init 0 0 0) = some h ∧
      ∀ u, Visits (life smallConf smallFile) takenAndClosed (init 0 0 0) u → AtLeastOnce u := by
  obtain ⟨h, hr⟩ := Option.isSome_iff_exists.mp
    (show (run (life smallConf smallFile) takenAndClosed (init 0 0 0)).isSome by decide)
  exact ⟨h, hr, (at_least_once_iff hr).mpr (by decide)⟩

/-- The law is no law: of a batch of two the second line comes back, and the
handler is lost. -/
theorem at_least_once_fails :
    ¬ ∀ (c : Conf) (f : LogFile) (start : ℕ) (t : ℤ) (ops : List Op) (h : IOHandler),
      1 ≤ c.maxLineAtOnce → run (life c f) ops (init start start t) = some h → AtLeastOnce h := by
  intro hall
  have h := hall smallConf smallFile 0 0
    [.notify 5 [.fread 7 7 false 5, .receive true [.taken, .unsent] 6]] heldBack (by decide)
    (by decide) ⟨2, [98]⟩ (by decide) (by decide) (by decide)
  exact absurd h (by decide)

end Logkafka.IOHandler
