/-
# `Logkafka.IOHandler.Leftover` — the leftover and the head of the buffer

What a scan leaves in the buffer is moved to its head with

    memcpy(m_buffer, m_buffer + cur_buf_pos, buffer_left_bytes)

and the two ranges of a `memcpy` must not overlap.  They do not if and only if
half of the buffer at least was cut (`apart_iff`), and nothing sees to that: a
line of which more is read than of those in front of it, or a full batch, is
enough.

For all runs that leaves little (`NoLeftover`).  `fread` may bring a single byte,
and of one byte nothing may be left over:

    the byte is no line       it is left over, and nothing was cut
    the batch is full         it is left over, and nothing was cut
    otherwise                 it is cut, and the batch has a line more

So every byte of the file is a line, and the batch has a place for each of them
(`exists_bytes`).
-/
import Logkafka.IOHandler.Room

namespace Logkafka.IOHandler

open Framing

variable {c : Conf} {f : LogFile} {h : IOHandler} {s s' : Session} {start stored : ℕ} {now : ℤ}

/-! ## What is to hold -/

/-- `cur_buf_pos` and `buffer_left_bytes` of the `memcpy` after the scan of the
buffer, if there is one. -/
def leftoverMove (c : Conf) (h : IOHandler) : Option (ℕ × ℕ) :=
  if h.buffer = [] then none
  else
    let curBufPos := (scan c h.cutPos h.lines 0 [] h.buffer).curBufPos
    let bufferLeftBytes := h.buffer.length - curBufPos
    if 0 < bufferLeftBytes then some (curBufPos, bufferLeftBytes) else none

/-- The source of the `memcpy` has no byte of the destination. -/
def Apart (c : Conf) (h : IOHandler) : Prop :=
  ∀ curBufPos bufferLeftBytes, leftoverMove c h = some (curBufPos, bufferLeftBytes) →
    ∀ i < bufferLeftBytes, ∀ j < bufferLeftBytes, curBufPos + i ≠ j

/-- The step has no `memcpy`, or one of ranges that are apart. -/
def MovesApart (c : Conf) (f : LogFile) (s : Session) : Tick → Prop
  | .answer (.fread visible n failed _) => Apart c (afterFread f visible n failed s.handler)
  | _ => True

/-- Half of `bytes` at least is in lines that end there, `k` of them at most. -/
def HalfCut (c : Conf) (k : ℕ) (bytes : List Byte) : Prop :=
  bytes.length ≤ 2 * ((c.cuts [] bytes).1.take k).flatten.length

instance (c : Conf) (k : ℕ) (bytes : List Byte) : Decidable (HalfCut c k bytes) := by
  unfold HalfCut; infer_instance

/-- With the bytes that are read, half of the buffer is in lines the batch has room for. -/
def HalfRead (c : Conf) (f : LogFile) (s : Session) : Tick → Prop
  | .answer (.fread visible n failed _) =>
      HalfCut c (c.maxLineAtOnce - s.handler.lines.length)
        (afterFread f visible n failed s.handler).buffer
  | _ => True

/-- Nothing is ever read; or every byte is a line, and they all fit into a batch. -/
def NoLeftover (c : Conf) (f : LogFile) (start : ℕ) : Prop :=
  f.content.length ≤ start ∨ c.bufferMaxBytes = 0 ∨
    (c.lineMaxBytes ≤ 1 ∨ ∀ b ∈ f.content.drop start, b = c.lineDelimiter) ∧
      f.content.length ≤ start + c.maxLineAtOnce

/-! ## One move -/

/-- The ranges are apart if the source begins behind the destination. -/
theorem apart_iff_le : Apart c h ↔ ∀ curBufPos bufferLeftBytes,
    leftoverMove c h = some (curBufPos, bufferLeftBytes) → bufferLeftBytes ≤ curBufPos := by
  constructor
  · intro hapart p n hmove
    by_contra hlt
    exact hapart p n hmove 0 (by omega) p (by omega) (Nat.add_zero p)
  · intro hle p n hmove i _ j hj
    have hpos := hle p n hmove
    omega

/-- As much was cut as is left. -/
theorem apart_iff_cut {broke : Bool} {frames : List (List Byte)}
    (hsp : BufferScanned c now h (scanBuffer c now h).1 broke frames) :
    Apart c h ↔ (scanBuffer c now h).1.buffer.length ≤ frames.flatten.length := by
  rw [apart_iff_le]
  have hsplit := congrArg List.length hsp.split
  rw [List.length_append] at hsplit
  by_cases hnil : h.buffer = []
  · rw [hnil, List.length_nil] at hsplit
    refine iff_of_true (fun p n hmove => ?_) (by omega)
    rw [leftoverMove, if_pos hnil] at hmove
    cases hmove
  · have hleft : (scanBuffer c now h).1.buffer
        = h.buffer.drop (scan c h.cutPos h.lines 0 [] h.buffer).curBufPos := by
      rw [scanBuffer, if_neg hnil]
    rw [hleft, List.length_drop] at hsplit ⊢
    rw [leftoverMove, if_neg hnil]
    by_cases hpos : 0 < h.buffer.length - (scan c h.cutPos h.lines 0 [] h.buffer).curBufPos
    · simp only [if_pos hpos, Option.some.injEq, Prod.mk.injEq]
      constructor
      · intro hle
        have hle := hle _ _ ⟨rfl, rfl⟩
        omega
      · rintro hle p n ⟨rfl, rfl⟩
        omega
    · simp only [if_neg hpos]
      exact iff_of_true (fun p n hmove => by cases hmove) (by omega)

/-- Half of the buffer is in lines that end in it and that the batch has room for. -/
theorem apart_iff (hbatch : h.lines.length ≤ c.maxLineAtOnce) :
    Apart c h ↔ HalfCut c (c.maxLineAtOnce - h.lines.length) h.buffer := by
  obtain ⟨frames, hsp⟩ := scanBuffer_spec c 0 h
  have hbound := hsp.bound hbatch
  have hfull := hsp.full
  have hscanned := hsp.scanned
  have hsplit := congrArg List.length hsp.split
  rw [hsp.lines_eq, List.length_append, length_layout] at hbound hfull
  rw [List.length_append] at hsplit
  have htake : (c.cuts [] h.buffer).1.take (c.maxLineAtOnce - h.lines.length) = frames := by
    rw [hsp.cuts_eq]
    cases hbroke : (scanBuffer c 0 h).2 with
    | true =>
        have hlen : c.maxLineAtOnce - h.lines.length = frames.length := by
          have := hfull hbroke
          omega
        rw [hlen, List.take_left]
    | false =>
        have hu : c.cuts [] (scanBuffer c 0 h).1.buffer = ([], (scanBuffer c 0 h).1.buffer) :=
          hscanned hbroke
        rw [hu]
        show (frames ++ []).take _ = frames
        rw [List.append_nil, List.take_of_length_le (by omega)]
  unfold HalfCut
  rw [apart_iff_cut hsp, htake]
  omega

/-- One step of a run. -/
theorem movesApart_iff (hp : Poised c (s.control, s.handler)) (a : Tick) :
    MovesApart c f s a ↔ HalfRead c f s a := by
  cases a with
  | notify now => exact Iff.rfl
  | answer e =>
      cases e with
      | fread visible n failed t =>
          have hbatch : (afterFread f visible n failed s.handler).lines.length
              ≤ c.maxLineAtOnce := hp.batch
          exact apart_iff hbatch
      | receive ok vs t => exact Iff.rfl

/-- A byte alone is cut, or it is left over with nothing cut in front of it. -/
theorem apart_byte {b : Byte} (hbytes : h.buffer = [b])
    (hbatch : h.lines.length ≤ c.maxLineAtOnce) (hapart : Apart c h) :
    (b = c.lineDelimiter ∨ c.lineMaxBytes ≤ 1) ∧
      (scanBuffer c now h).1.lines.length = h.lines.length + 1 ∧
      (scanBuffer c now h).1.lines.length ≤ c.maxLineAtOnce ∧
      (scanBuffer c now h).1.buffer = [] := by
  obtain ⟨frames, hsp⟩ := scanBuffer_spec c now h
  have hcut := (apart_iff_cut hsp).mp hapart
  have hsplit := congrArg List.length hsp.split
  rw [hbytes, List.length_append, List.length_singleton] at hsplit
  have hframes := length_flatten_ge hsp.nonempty
  have hne : frames ≠ [] := by
    rintro rfl
    rw [List.flatten_nil, List.length_nil] at hcut hsplit
    omega
  have hpos := List.length_pos_iff.mpr hne
  refine ⟨?_, ?_, hsp.bound hbatch, List.length_eq_zero_iff.mp (by omega)⟩
  · by_contra hmid
    have hmid : ¬ (decide (b = c.lineDelimiter) = true ∨
        c.lineMaxBytes ≤ ([] : List Byte).length + 1) := by
      rwa [decide_eq_true_eq]
    have hcuts := hsp.cuts_eq
    rw [hbytes, show c.cuts [] [b] = ([], [b]) from Framing.cuts_cons_mid hmid []] at hcuts
    exact hne (List.append_eq_nil_iff.mp (congrArg Prod.fst hcuts).symm).1
  · rw [hsp.lines_eq, List.length_append, length_layout]
    omega

/-- And nothing is left where every byte is a line with a place in the batch. -/
theorem nothing_left (hends : c.lineMaxBytes ≤ 1 ∨ ∀ b ∈ h.buffer, b = c.lineDelimiter)
    (hplace : h.lines.length + h.buffer.length ≤ c.maxLineAtOnce) :
    (scanBuffer c now h).1.buffer = [] := by
  obtain ⟨frames, hsp⟩ := scanBuffer_spec c now h
  have hframes := length_flatten_ge hsp.nonempty
  have hsplit := congrArg List.length hsp.split
  rw [List.length_append] at hsplit
  cases hbroke : (scanBuffer c now h).2 with
  | true =>
      have hfull := hsp.full hbroke
      rw [hsp.lines_eq, List.length_append, length_layout] at hfull
      exact List.length_eq_zero_iff.mp (by omega)
  | false =>
      obtain ⟨hplain, hshort⟩ := uncut_spec (hsp.scanned hbroke)
      rcases hshort with hnil | hlt
      · exact hnil
      · rcases hends with hlimit | hdelims
        · exact List.length_eq_zero_iff.mp (by omega)
        · refine List.eq_nil_iff_forall_not_mem.mpr fun b hb => ?_
          have hmem : b ∈ h.buffer := by
            rw [← hsp.split]
            exact List.mem_append_right _ hb
          exact absurd (hdelims b hmem) (of_decide_eq_false (hplain b hb))

/-! ## Where there is no leftover

Each `fread` brings whole lines, and the batch has a place for each; so nothing
is in the buffer when the next one comes.
-/

/-- Nothing is in the buffer, and the lines of the batch are made of what was read. -/
structure Bare (start : ℕ) (h : IOHandler) : Prop where
  buffer : h.buffer = []
  read : start + h.lines.length ≤ h.filePos

/-- One `fread`, and the scan after it. -/
theorem Bare.read_step {visible n : ℕ} {failed : Bool} (hno : NoLeftover c f start)
    (hb : Bare start h) (hok : FreadOk c f h visible n failed) (now : ℤ) :
    Apart c (afterFread f visible n failed h) ∧
      Bare start (scanBuffer c now (afterFread f visible n failed h)).1 := by
  obtain ⟨frames, hsp⟩ := scanBuffer_spec c now (afterFread f visible n failed h)
  have hbytes : (afterFread f visible n failed h).buffer = (f.content.drop h.filePos).take n := by
    show h.buffer ++ (f.content.drop h.filePos).take n = _
    rw [hb.buffer, List.nil_append]
  have hlen : (afterFread f visible n failed h).buffer.length = n := by
    rw [hbytes, length_chunk hok]
  have hread := hb.read
  have hend : 0 < n → h.filePos + n ≤ f.content.length := fun hn =>
    Nat.le_trans (hok.2.2.1 hn) hok.1
  have hnil : (scanBuffer c now (afterFread f visible n failed h)).1.buffer = [] := by
    have hzero : n = 0 → (scanBuffer c now (afterFread f visible n failed h)).1.buffer = [] := by
      intro hn
      have hsplit := hsp.split
      rw [List.length_eq_zero_iff.mp (hlen.trans hn)] at hsplit
      exact (List.append_eq_nil_iff.mp hsplit).2
    rcases hno with hbehind | hnone | ⟨hends, hplaces⟩
    · exact hzero (by omega)
    · refine hzero ?_
      have hroom := hok.2.1
      rw [room_of_nil hb.buffer, hnone] at hroom
      exact Nat.le_zero.mp hroom
    · rcases Nat.eq_zero_or_pos n with hn | hn
      · exact hzero hn
      · have hend := hend hn
        refine nothing_left (hends.imp_right fun hdelims b hb => ?_) ?_
        · rw [hbytes, show h.filePos = start + (h.filePos - start) by omega,
            ← List.drop_drop] at hb
          exact hdelims b (List.mem_of_mem_drop (List.mem_of_mem_take hb))
        · rw [hlen]
          show h.lines.length + n ≤ _
          omega
  refine ⟨(apart_iff_cut hsp).mpr ?_, hnil, ?_⟩
  · rw [hnil]
    exact Nat.zero_le _
  · have hframes := length_flatten_ge hsp.nonempty
    have hsplit := congrArg List.length hsp.split
    have hpos : (scanBuffer c now (afterFread f visible n failed h)).1.filePos
        = h.filePos + n := by
      rw [hsp.same]
      rfl
    have hlines : (scanBuffer c now (afterFread f visible n failed h)).1.lines.length
        = h.lines.length + frames.length := by
      rw [hsp.lines_eq, List.length_append, length_layout]
      rfl
    rw [List.length_append, hlen] at hsplit
    omega

theorem Bare.step {x y : Control × IOHandler} {e : Event} (hno : NoLeftover c f start)
    (hb : Bare start x.2) (hs : Step c f e x y) : Bare start y.2 := by
  cases hs with
  | @resend ok vs now h hlen | @send ok readMore vs now h hlen =>
      have hle := length_afterReceive_le (h := h) ok vs now
      have hread := hb.read
      refine ⟨hb.buffer, ?_⟩
      show start + _ ≤ h.filePos
      exact Nat.le_trans (Nat.add_le_add_left hle start) hread
  | readNothing hok | readFull hok =>
      rw [leaveReads_handler]
      exact (hb.read_step hno hok _).2
  | readOn hok => exact (hb.read_step hno hok _).2

/-- A step at which `fread` is called. -/
theorem fread_step {x y : Control × IOHandler} {visible n : ℕ} {failed : Bool} {t : ℤ}
    (hs : Step c f (.fread visible n failed t) x y) : FreadOk c f x.2 visible n failed ∧
      y.2 = (scanBuffer c t (afterFread f visible n failed x.2)).1 := by
  cases hs with
  | readNothing hok => exact ⟨hok, leaveReads_handler _ _⟩
  | readFull hok => exact ⟨hok, leaveReads_handler _ _⟩
  | readOn hok => exact ⟨hok, rfl⟩

/-- And where it goes on from there, if bytes were read. -/
theorem fread_control {x y : Control × IOHandler} {visible n : ℕ} {failed : Bool} {t : ℤ}
    (hs : Step c f (.fread visible n failed t) x y) (hn : n ≠ 0) :
    y.1 = if c.maxLineAtOnce ≤ y.2.lines.length then (leaveReads true y.2).1 else x.1 := by
  cases hs with
  | readNothing hok => exact absurd rfl hn
  | readFull _ _ hfull => rw [leaveReads_handler, if_pos hfull]
  | readOn _ _ hroom => exact (if_neg (Nat.not_le.mpr hroom)).symm

theorem bare_tick (hno : NoLeftover c f start) (a : Tick) (s s' : Session)
    (hb : Bare start s.handler) (h : tick c f a s = some s') :
    MovesApart c f s a ∧ Bare start s'.handler := by
  cases a with
  | notify now =>
      obtain ⟨-, -, rfl⟩ := tick_notify h
      refine ⟨trivial, ?_⟩
      show Bare start (enter c now s.handler).2
      rw [enter_handler, handleUncleaned_of_nil hb.buffer, ite_self]
      exact hb
  | answer e =>
      obtain ⟨-, hstep, -⟩ := tick_answer h
      refine ⟨?_, hb.step hno hstep⟩
      cases e with
      | fread visible n failed t => exact (hb.read_step hno (fread_step hstep).1 t).1
      | receive ok vs t => trivial

/-! ## Where there may be one

The file is read byte by byte, which is a run like any other: if no move may
overlap in it, every byte is a line with a place in the batch.
-/

/-- The batch is made of the first `k` bytes, and all that was read is in it. -/
structure Byted (start : ℕ) (now : ℤ) (k : ℕ) (s : Session) : Prop where
  clock : s.clock = now
  bare : s.handler.buffer = []
  lines : s.handler.lines.length = k
  filePos : s.handler.filePos = start + k

/-- `fread` brings one byte. -/
def oneByte (f : LogFile) (now : ℤ) : Tick := .answer (.fread f.content.length 1 false now)

theorem exists_byte {k : ℕ} (hbuffer : c.bufferMaxBytes ≠ 0) (hb : Byted start now k s)
    (hcontrol : s.control = .read false) (hpos : start + k < f.content.length) :
    ∃ s', tick c f (oneByte f now) s = some s' := by
  have hok : FreadOk c f s.handler f.content.length 1 false :=
    freadOk_one (Nat.one_le_iff_ne_zero.mpr hbuffer) hb.bare (Nat.le_refl _)
      (by rw [hb.filePos]; exact hpos)
  obtain ⟨r, hr⟩ := exists_step_of_fread false now hok
  have hanswer : step c f (.fread f.content.length 1 false now) (s.control, s.handler)
      = some r := hcontrol ▸ hr
  obtain ⟨s', htick, -⟩ := exists_tick_answer (Int.le_of_eq hb.clock : s.clock ≤ now) hanswer
  exact ⟨s', htick⟩

/-- It is a line with a place in the batch, if it is moved as it should be. -/
theorem Byted.read {k : ℕ} (hb : Byted start now k s) (hbatch : k ≤ c.maxLineAtOnce)
    (hpos : start + k < f.content.length) (h : tick c f (oneByte f now) s = some s')
    (hapart : MovesApart c f s (oneByte f now)) :
    k < c.maxLineAtOnce ∧ (f.content[start + k] = c.lineDelimiter ∨ c.lineMaxBytes ≤ 1) ∧
      Byted start now (k + 1) s' := by
  obtain ⟨-, hstep, hclock, -⟩ := tick_answer h
  have hhandler : s'.handler
      = (scanBuffer c now (afterFread f f.content.length 1 false s.handler)).1 :=
    (fread_step hstep).2
  have hbytes : (afterFread f f.content.length 1 false s.handler).buffer
      = [f.content[start + k]] := by
    show s.handler.buffer ++ (f.content.drop s.handler.filePos).take 1 = _
    rw [hb.bare, hb.filePos, List.drop_eq_getElem_cons hpos]
    rfl
  have hle : (afterFread f f.content.length 1 false s.handler).lines.length
      ≤ c.maxLineAtOnce := Nat.le_trans (Nat.le_of_eq hb.lines) hbatch
  obtain ⟨hends, hcount, hmax, hnil⟩ := @apart_byte c _ now _ hbytes hle hapart
  rw [← hhandler] at hcount hmax hnil
  have hcount : s'.handler.lines.length = k + 1 :=
    hcount.trans (congrArg (· + 1) hb.lines)
  refine ⟨by omega, hends, hclock, hnil, hcount, ?_⟩
  obtain ⟨frames, hsp⟩ :=
    scanBuffer_spec c now (afterFread f f.content.length 1 false s.handler)
  rw [hhandler, hsp.same]
  show s.handler.filePos + 1 = _
  rw [hb.filePos, Nat.add_assoc]

theorem Byted.control {k : ℕ} (hb : Byted start now (k + 1) s')
    (hcontrol : s.control = .read false) (h : tick c f (oneByte f now) s = some s') :
    s'.control = if c.maxLineAtOnce ≤ k + 1 then .send true else .read false := by
  obtain ⟨-, hstep, -⟩ := tick_answer h
  have hnext : s'.control = if c.maxLineAtOnce ≤ s'.handler.lines.length then
      (leaveReads true s'.handler).1 else s.control := fread_control hstep Nat.one_ne_zero
  have hsend : leaveReads true s'.handler = (.send true, s'.handler) :=
    leaveReads_of_lines (List.ne_nil_of_length_eq_add_one hb.lines)
  rw [hnext, hb.lines, hcontrol, hsend]

/-- The callback returns `false` on a full batch, and the loop reads on. -/
theorem Byted.refused {k : ℕ} (hb : Byted start now k s) (hcontrol : s.control = .send true) :
    ∃ a s', tick c f a s = some s' ∧ s'.control = .read false ∧ Byted start now k s' := by
  have hlen : (List.replicate s.handler.lines.length Verdict.taken).length
      = s.handler.lines.length := List.length_replicate
  have hnone := pick_unsent_taken s.handler.lines
  have hstep : step c f (.receive false (List.replicate s.handler.lines.length .taken) now)
      (s.control, s.handler) = some (.read false,
        afterReceive false (List.replicate s.handler.lines.length .taken) now s.handler) := by
    rw [hcontrol]
    simp only [step, if_pos hlen, if_pos hnone, if_true]
  obtain ⟨s', htick, hcontrol', hhandler, hclock⟩ :=
    exists_tick_answer (Int.le_of_eq hb.clock : s.clock ≤ now) hstep
  refine ⟨_, s', htick, hcontrol', hclock, ?_, ?_, ?_⟩
  all_goals rw [hhandler]
  · exact hb.bare
  · exact hb.lines
  · exact hb.filePos

section AllRuns

variable (hbuffer : c.bufferMaxBytes ≠ 0)
  (hall : ∀ as u, run (tick c f) as (Session.init start stored now) = some u →
    Along (tick c f) (MovesApart c f) as (Session.init start stored now))
include hbuffer hall

/-- The step after a run. -/
theorem run_byte {k : ℕ} {as : List Tick}
    (hrun : run (tick c f) as (Session.init start stored now) = some s)
    (hb : Byted start now k s) (hcontrol : s.control = .read false)
    (hbatch : k ≤ c.maxLineAtOnce) (hpos : start + k < f.content.length) :
    k < c.maxLineAtOnce ∧ (f.content[start + k] = c.lineDelimiter ∨ c.lineMaxBytes ≤ 1) ∧
      ∃ s', run (tick c f) (as ++ [oneByte f now]) (Session.init start stored now) = some s' ∧
        tick c f (oneByte f now) s = some s' ∧ Byted start now (k + 1) s' := by
  obtain ⟨s', htick⟩ := exists_byte hbuffer hb hcontrol hpos
  have hnext : run (tick c f) (as ++ [oneByte f now]) (Session.init start stored now)
      = some s' := by
    rw [run_append, hrun]
    exact run_cons_eq_some.mpr ⟨s', htick, rfl⟩
  obtain ⟨hmax, hends, hb'⟩ :=
    hb.read hbatch hpos htick (cond_of_along hrun (hall _ _ hnext))
  exact ⟨hmax, hends, s', hnext, htick, hb'⟩

/-- Byte by byte, up to a full batch or the end of the file. -/
theorem exists_bytes : ∀ k, k ≤ c.maxLineAtOnce → start + k ≤ f.content.length →
    (∀ i (hi : start + i < f.content.length), i < k →
      f.content[start + i] = c.lineDelimiter ∨ c.lineMaxBytes ≤ 1) ∧
    ∃ as s, run (tick c f) as (Session.init start stored now) = some s ∧ Byted start now k s ∧
      s.control = if k ≠ 0 ∧ c.maxLineAtOnce ≤ k then .send true else .read false := by
  intro k
  induction k with
  | zero =>
      intro _ _
      have hnotify : tick c f (.notify now) (Session.init start stored now) = some
          { Session.init start stored now with control := .read false } :=
        if_pos ⟨rfl, Int.le_refl now⟩
      refine ⟨fun i _ hi => absurd hi (Nat.not_lt_zero i), [.notify now], _,
        run_cons_eq_some.mpr ⟨_, hnotify, rfl⟩, ⟨rfl, rfl, rfl, rfl⟩, ?_⟩
      rw [if_neg fun hzero => hzero.1 rfl]
  | succ k ih =>
      intro hbatch hend
      obtain ⟨hends, as, s, hrun, hb, hcontrol⟩ := ih (by omega) (by omega)
      rw [if_neg fun hfull => by omega] at hcontrol
      obtain ⟨hmax, hend', s', hrun', htick, hb'⟩ :=
        run_byte hbuffer hall hrun hb hcontrol (by omega) (by omega)
      refine ⟨fun i hi hlt => ?_, _, s', hrun', hb', ?_⟩
      · rcases Nat.lt_succ_iff_lt_or_eq.mp hlt with hlt | rfl
        · exact hends i hi hlt
        · exact hend'
      · rw [hb'.control hcontrol htick]
        exact if_congr (and_iff_right (Nat.succ_ne_zero k)).symm rfl rfl

/-- The batch has a place for every byte. -/
theorem places_of_all : f.content.length ≤ start + c.maxLineAtOnce := by
  by_contra hmore
  obtain ⟨-, as, s, hrun, hb, hcontrol⟩ :=
    exists_bytes hbuffer hall c.maxLineAtOnce (Nat.le_refl _) (by omega)
  -- a byte that is read now has no place
  suffices hread : ∃ bs u, run (tick c f) bs (Session.init start stored now) = some u ∧
      Byted start now c.maxLineAtOnce u ∧ u.control = .read false by
    obtain ⟨bs, u, hrun, hb, hcontrol⟩ := hread
    have hlt := (run_byte hbuffer hall hrun hb hcontrol (Nat.le_refl _) (by omega)).1
    exact Nat.lt_irrefl _ hlt
  by_cases hzero : c.maxLineAtOnce = 0
  · rw [if_neg fun hfull => hfull.1 hzero] at hcontrol
    exact ⟨as, s, hrun, hb, hcontrol⟩
  · rw [if_pos ⟨hzero, Nat.le_refl _⟩] at hcontrol
    obtain ⟨a, s', htick, hcontrol', hb'⟩ := hb.refused (c := c) (f := f) hcontrol
    refine ⟨as ++ [a], s', ?_, hb', hcontrol'⟩
    rw [run_append, hrun]
    exact run_cons_eq_some.mpr ⟨s', htick, rfl⟩

theorem noLeftover_of_all : NoLeftover c f start := by
  by_cases hbehind : f.content.length ≤ start
  · exact Or.inl hbehind
  · have hplaces := places_of_all hbuffer hall
    obtain ⟨hends, -⟩ :=
      exists_bytes hbuffer hall (f.content.length - start) (by omega) (by omega)
    refine Or.inr (Or.inr ⟨?_, hplaces⟩)
    by_cases hlimit : c.lineMaxBytes ≤ 1
    · exact Or.inl hlimit
    · refine Or.inr fun b hmem => ?_
      obtain ⟨i, hi, rfl⟩ := List.getElem_of_mem hmem
      rw [List.length_drop] at hi
      rw [List.getElem_drop]
      exact (hends i (by omega) hi).resolve_right hlimit

end AllRuns

/-- **When no move overlaps.**  In a run of a handler the source and the destination
of every `memcpy` are apart if and only if at each `fread` half of the buffer at
least is in lines that end there and that the batch has room for.  And they are in
all its runs if and only if nothing is ever read (no bytes are behind the start, or
there is no buffer), or every byte is a line of its own and they all fit into one
batch. -/
theorem moves_apart_iff (c : Conf) (f : LogFile) (start stored : ℕ) (now : ℤ) :
    (∀ as u, run (tick c f) as (Session.init start stored now) = some u →
        (Along (tick c f) (MovesApart c f) as (Session.init start stored now) ↔
          Along (tick c f) (HalfRead c f) as (Session.init start stored now))) ∧
      ((∀ as u, run (tick c f) as (Session.init start stored now) = some u →
          Along (tick c f) (MovesApart c f) as (Session.init start stored now)) ↔
        NoLeftover c f start) := by
  refine ⟨fun as u _ => ?_, fun hall => ?_, fun hno as u hr => ?_⟩
  · have hinit := poised_init c start stored now
    have hkeep : ∀ a (s s' : Session), Poised c (s.control, s.handler) →
        tick c f a s = some s' → Poised c (s'.control, s'.handler) :=
      fun a s s' hp h => poised_tick a s s' hp h
    constructor
    · exact along_of_inv (I := fun s : Session => Poised c (s.control, s.handler)) hkeep
        (fun s a hp => (movesApart_iff hp a).mp) as _ hinit
    · exact along_of_inv (I := fun s : Session => Poised c (s.control, s.handler)) hkeep
        (fun s a hp => (movesApart_iff hp a).mpr) as _ hinit
  · by_cases hbuffer : c.bufferMaxBytes = 0
    · exact Or.inr (Or.inl hbuffer)
    · exact noLeftover_of_all hbuffer hall
  · exact along_of_run (I := fun s : Session => Bare start s.handler)
      (fun a s s' hb h => bare_tick hno a s s' hb h) ⟨rfl, Nat.le_refl _⟩ hr

/-- Batches of two lines, of eight bytes each, and a buffer of eight. -/
def pairConf : Conf :=
  { maxLineAtOnce := 2, lineMaxBytes := 8, bufferMaxBytes := 8, lineDelimiter := 10,
    removeDelimiter := true, maxLineAtOnce_lt := two_lt_limit, lineMaxBytes_lt := eight_lt_limit,
    bufferMaxBytes_lt := eight_lt_limit }

/-- "a\nbcd" is read at once: two bytes are cut, and the three behind them go from
[2, 5) to [0, 3). -/
theorem moves_apart_fails :
    ∃ u, run (tick pairConf fiveBytes) [.notify 0, .answer (.fread 5 5 false 0)]
        (Session.init 0 0 0) = some u ∧
      leftoverMove pairConf
        (afterFread fiveBytes 5 5 false (enter pairConf 0 (IOHandler.init 0 0 0)).2)
          = some (2, 3) ∧
      ¬ Along (tick pairConf fiveBytes) (MovesApart pairConf fiveBytes)
        [.notify 0, .answer (.fread 5 5 false 0)] (Session.init 0 0 0) := by
  refine ⟨_, rfl, rfl, fun hall => ?_⟩
  have hapart : Apart pairConf _ := (hall.2 _ rfl).1
  exact hapart 2 3 rfl 0 (by decide) 2 (by decide) rfl

end Logkafka.IOHandler
