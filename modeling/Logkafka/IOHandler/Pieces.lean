/-
# `Logkafka.IOHandler.Pieces` — how many messages a line is cut into

A line of `n` bytes is cut at its delimiter, and before that wherever
`line_max_bytes` bytes were read since the last cut, or where the buffer was
flushed for being stuck.  So what is cut are three kinds of pieces:

    ended    up to a delimiter
    full     `line_max_bytes` bytes, none of them the delimiter
    stuck    fewer bytes, none of them the delimiter

and a line is a stretch of full and stuck pieces with an ended one behind it
(`pieces_split_line`).  The delimiter is no part of the text, yet it is always
cut with the ended piece: behind a line whose last piece is full there is one
more, with nothing in it.

`tickStuck` is `tick` with a record of what was flushed.
-/
import Logkafka.IOHandler.Limits
import Logkafka.IOHandler.Reference

namespace Logkafka.IOHandler

/-! ## The record of the flushes -/

/-- The line that a call begins with by flushing the buffer. -/
def flushed (c : Conf) : Tick → Session → List Line
  | .notify now, s =>
      if s.handler.fileOpen ∧ flushes c now s.handler then
        [⟨s.handler.cutPos, s.handler.buffer⟩]
      else []
  | .answer _, _ => []

def tickStuck (c : Conf) (f : LogFile) (a : Tick) (s : Session × List Line) :
    Option (Session × List Line) :=
  (tick c f a s.1).map fun t => (t, s.2 ++ flushed c a s.1)

variable {c : Conf} {f : LogFile}

/-- The record is in nobody's way. -/
theorem run_tickStuck {as : List Tick} {s t : Session} (hr : run (tick c f) as s = some t)
    (stuck : List Line) :
    ∃ stuck', run (tickStuck c f) as (s, stuck) = some (t, stuck') := by
  induction as generalizing s stuck with
  | nil => exact ⟨stuck, by simpa using hr⟩
  | cons a as ih =>
      obtain ⟨s₁, h₁, h₂⟩ := run_cons_eq_some.mp hr
      obtain ⟨stuck', hrest⟩ := ih h₂ (stuck ++ flushed c a s)
      refine ⟨stuck', run_cons_eq_some.mpr ⟨_, ?_, hrest⟩⟩
      rw [tickStuck, h₁, Option.map_some]

/-! ## Pieces -/

/-- A piece, and whether it was flushed. -/
inductive Piece (c : Conf) : List Byte × Bool → Prop
  | ended {w : List Byte} : c.Uncut w → Piece c (w ++ [c.lineDelimiter], false)
  | full {w : List Byte} {b : Byte} :
      c.Uncut w → b ≠ c.lineDelimiter → c.lineMaxBytes ≤ w.length + 1 → Piece c (w ++ [b], false)
  | stuck {w : List Byte} : c.Uncut w → w ≠ [] → Piece c (w, true)

/-- What the pieces are cut out of. -/
def bytes (ps : List (List Byte × Bool)) : List Byte := (ps.map Prod.fst).flatten

/-- The lines of consecutive pieces, the first at offset `pos`. -/
def lay (c : Conf) : ℕ → List (List Byte × Bool) → List (Line × Bool)
  | _, [] => []
  | pos, p :: ps => (⟨pos, strip c p.1⟩, p.2) :: lay c (pos + p.1.length) ps

variable {p : List Byte × Bool} {ps mid post : List (List Byte × Bool)} {pos : ℕ}
  {w body more rest : List Byte}

@[simp] theorem bytes_nil : bytes [] = [] := rfl

@[simp] theorem bytes_cons (p : List Byte × Bool) (ps : List (List Byte × Bool)) :
    bytes (p :: ps) = p.1 ++ bytes ps := by
  rw [bytes, List.map_cons, List.flatten_cons, bytes]

@[simp] theorem bytes_append (ps ps' : List (List Byte × Bool)) :
    bytes (ps ++ ps') = bytes ps ++ bytes ps' := by
  rw [bytes, List.map_append, List.flatten_append, bytes, bytes]

theorem uncut_not_mem (h : c.Uncut w) : c.lineDelimiter ∉ w := by
  intro hmem
  simpa using (Framing.uncut_spec h).1 _ hmem

theorem Piece.ne_nil (h : Piece c p) : p.1 ≠ [] := by
  cases h with
  | ended => simp
  | full => simp
  | stuck _ hne => exact hne

/-- A delimiter stands at the end of a piece. -/
theorem Piece.not_mem_dropLast (h : Piece c p) : c.lineDelimiter ∉ p.1.dropLast := by
  cases h with
  | ended hw => simpa using uncut_not_mem hw
  | full hw => simpa using uncut_not_mem hw
  | stuck hw => exact fun hmem => uncut_not_mem hw (List.mem_of_mem_dropLast hmem)

theorem lay_map_fst (c : Conf) (pos : ℕ) (ps : List (List Byte × Bool)) :
    (lay c pos ps).map Prod.fst = layout c pos (ps.map Prod.fst) := by
  induction ps generalizing pos with
  | nil => rfl
  | cons p ps ih => simp only [lay, layout, List.map_cons, ih]

theorem lay_append (c : Conf) (pos : ℕ) (ps ps' : List (List Byte × Bool)) :
    lay c pos (ps ++ ps') = lay c pos ps ++ lay c (pos + (bytes ps).length) ps' := by
  induction ps generalizing pos with
  | nil => rfl
  | cons p ps ih =>
      rw [List.cons_append, lay, ih, lay, List.cons_append, bytes_cons, List.length_append,
        Nat.add_assoc]

theorem lay_starts (hne : ∀ p ∈ ps, p.1 ≠ []) :
    ∀ l ∈ lay c pos ps, pos ≤ l.1.start ∧ l.1.start < pos + (bytes ps).length := by
  intro l hl
  have hmem : l.1 ∈ layout c pos (ps.map Prod.fst) := lay_map_fst c pos ps ▸ List.mem_map_of_mem hl
  refine (@layout_starts c pos _ fun fr hfr => ?_).2 l.1 hmem
  obtain ⟨p, hp, rfl⟩ := List.mem_map.mp hfr
  exact hne p hp

/-! ## Lines are stretches of pieces

A delimiter ends the piece it is in, so that a piece begins behind each line.
-/

/-- What is cut before the first delimiter is at the head of the line. -/
theorem prefix_of_not_mem {fr : List Byte} {d : Byte} (hfr : d ∉ fr)
    (h : fr ++ rest = body ++ d :: more) :
    ∃ body', body = fr ++ body' ∧ rest = body' ++ d :: more := by
  rcases List.append_eq_append_iff.mp h with ⟨body', hbody, hrest⟩ | ⟨tail, hfr', hmore⟩
  · exact ⟨body', hbody, hrest⟩
  · cases tail with
    | nil =>
        rw [List.append_nil] at hfr'
        exact ⟨[], by rw [hfr', List.append_nil], hmore.symm⟩
    | cons x tail =>
        obtain ⟨rfl, -⟩ := List.cons.inj hmore
        exact absurd (hfr' ▸ List.mem_append_right body List.mem_cons_self) hfr

/-- Behind a delimiter a piece begins. -/
theorem pieces_split_boundary (hps : ∀ p ∈ ps, Piece c p) :
    ∀ {xs ys : List Byte}, (xs = [] ∨ xs.getLast? = some c.lineDelimiter) →
      bytes ps ++ rest = xs ++ ys → xs.length ≤ (bytes ps).length →
      ∃ pre post, ps = pre ++ post ∧ bytes pre = xs := by
  induction ps with
  | nil =>
      intro xs ys _ _ hlen
      exact ⟨[], [], rfl, (List.length_eq_zero_iff.mp (Nat.le_zero.mp hlen)).symm⟩
  | cons p ps ih =>
      obtain ⟨hp, hps⟩ := List.forall_mem_cons.mp hps
      intro xs ys hxs h hlen
      rcases hxs with rfl | hlast
      · exact ⟨[], p :: ps, rfl, rfl⟩
      · rw [bytes_cons, List.append_assoc] at h
        rcases List.append_eq_append_iff.mp h with ⟨xs', rfl, hrest⟩ | ⟨tail, hfr, -⟩
        · -- the piece is in front of the delimiter
          have hxs' : xs' = [] ∨ xs'.getLast? = some c.lineDelimiter := by
            cases hcases : xs' with
            | nil => exact Or.inl rfl
            | cons b bs =>
                rw [hcases, List.getLast?_append_of_ne_nil _ (List.cons_ne_nil b bs)] at hlast
                exact Or.inr hlast
          rw [bytes_cons, List.length_append, List.length_append] at hlen
          obtain ⟨pre, post, rfl, hpre⟩ := ih hps hxs' hrest (Nat.le_of_add_le_add_left hlen)
          exact ⟨p :: pre, post, rfl, by rw [bytes_cons, hpre]⟩
        · cases tail with
          | nil =>
              rw [List.append_nil] at hfr
              exact ⟨[p], ps, rfl, by rw [bytes_cons, bytes_nil, List.append_nil, hfr]⟩
          | cons b bs =>
              -- the delimiter would stand inside the piece
              have hmem : c.lineDelimiter ∈ p.1.dropLast := by
                rw [hfr, List.dropLast_append_of_ne_nil (List.cons_ne_nil b bs)]
                exact List.mem_append_left _ (List.mem_of_getLast? hlast)
              exact absurd hmem hp.not_mem_dropLast

/-- Up to the first delimiter: pieces without one, and the piece it ends. -/
theorem pieces_split_line (hps : ∀ p ∈ ps, Piece c p) :
    ∀ {body : List Byte}, c.lineDelimiter ∉ body →
      bytes ps ++ rest = body ++ c.lineDelimiter :: more → body.length < (bytes ps).length →
      ∃ mid w post, ps = mid ++ (w ++ [c.lineDelimiter], false) :: post ∧ bytes mid ++ w = body ∧
        c.Uncut w := by
  induction ps with
  | nil => exact fun _ _ hlen => absurd hlen (Nat.not_lt_zero _)
  | cons p ps ih =>
      obtain ⟨hp, hps⟩ := List.forall_mem_cons.mp hps
      intro body hbody h hlen
      rw [bytes_cons, List.append_assoc] at h
      rw [bytes_cons, List.length_append] at hlen
      by_cases hmem : c.lineDelimiter ∈ p.1
      · cases hp with
        | @ended w hw =>
            rw [List.append_assoc] at h
            obtain ⟨body', rfl, hrest⟩ := prefix_of_not_mem (uncut_not_mem hw) h
            cases body' with
            | nil => exact ⟨[], w, ps, rfl, by simp, hw⟩
            | cons b bs =>
                obtain ⟨rfl, -⟩ := List.cons.inj hrest
                simp at hbody
        | full hw hb _ =>
            rcases List.mem_append.mp hmem with hmem | hmem
            · exact absurd hmem (uncut_not_mem hw)
            · exact absurd (List.mem_singleton.mp hmem).symm hb
        | stuck hw _ => exact absurd hmem (uncut_not_mem hw)
      · obtain ⟨body', rfl, hrest⟩ := prefix_of_not_mem hmem h
        rw [List.length_append] at hlen
        obtain ⟨mid, w, post, rfl, hmid, hw⟩ := ih hps
          (fun hd => hbody (List.mem_append_right _ hd)) hrest (Nat.lt_of_add_lt_add_left hlen)
        exact ⟨p :: mid, w, post, rfl, by rw [bytes_cons, List.append_assoc, hmid], hw⟩

/-! ## What is cut are pieces

Over a whole run: the lines cut are the pieces of what was read, in order, and
what is left over is the buffer.
-/

/-- `ps` were cut out of what was read since `start`. -/
structure Pieced (c : Conf) (f : LogFile) (start : ℕ) (h : IOHandler) (stuck : List Line)
    (ps : List (List Byte × Bool)) : Prop where
  pieces : ∀ p ∈ ps, Piece c p
  cut_eq : h.cut = (lay c start ps).map Prod.fst
  stuck_eq : stuck = ((lay c start ps).filter Prod.snd).map Prod.fst
  read : f.window start h.filePos = bytes ps ++ h.buffer
  cutPos_eq : h.cutPos = start + (bytes ps).length
  bufferLe : h.buffer.length ≤ h.filePos

variable {h : IOHandler} {stuck : List Line} {start : ℕ}

theorem pieced_init (c : Conf) (f : LogFile) (start stored : ℕ) (now : ℤ) :
    Pieced c f start (init start stored now) [] [] where
  pieces _ hp := by cases hp
  cut_eq := rfl
  stuck_eq := rfl
  read := f.window_self start
  cutPos_eq := rfl
  bufferLe := Nat.zero_le _

theorem Pieced.start_le (hP : Pieced c f start h stuck ps) : start ≤ h.filePos := by
  have hcut := hP.cutPos_eq
  have hle : h.cutPos ≤ h.filePos := Nat.sub_le _ _
  omega

/-- The frames of a scan are pieces that were not flushed. -/
theorem bytes_scanned (frames : List (List Byte)) :
    bytes (frames.map fun fr => (fr, false)) = frames.flatten := by
  rw [bytes, List.map_map]
  exact congrArg _ (List.map_id frames)

theorem lay_scanned (c : Conf) (pos : ℕ) (frames : List (List Byte)) :
    lay c pos (frames.map fun fr => (fr, false)) = (layout c pos frames).map fun l => (l, false) := by
  induction frames generalizing pos with
  | nil => rfl
  | cons fr frames ih => simp only [List.map_cons, lay, layout, ih]

theorem BufferScanned.piece {now : ℤ} {h h' : IOHandler} {broke : Bool}
    {frames : List (List Byte)} (hs : BufferScanned c now h h' broke frames) {fr : List Byte}
    (hfr : fr ∈ frames) : Piece c (fr, false) := by
  have hmem : fr ∈ (c.cuts [] h.buffer).1 := by
    rw [hs.cuts_eq]
    exact List.mem_append_left _ hfr
  obtain ⟨w, b, rfl, hw, hend⟩ := Framing.mem_cuts_cases h.buffer [] Framing.uncut_nil fr hmem
  by_cases hb : b = c.lineDelimiter
  · rw [hb]
    exact .ended hw
  · exact .full hw hb (hend.resolve_left (by simpa using hb))

/-- One round of the inner loop. -/
theorem Pieced.read_scan (hP : Pieced c f start h stuck ps)
    {visible n : ℕ} {failed : Bool} (hok : FreadOk c f h visible n failed) (now : ℤ) :
    ∃ ps', Pieced c f start (scanBuffer c now (afterFread f visible n failed h)).1 stuck ps' := by
  obtain ⟨frames, hs⟩ := scanBuffer_spec c now (afterFread f visible n failed h)
  generalize (scanBuffer c now (afterFread f visible n failed h)).1 = h' at hs ⊢
  have hchunk := length_chunk hok
  have hstart := hP.start_le
  have hbase : (afterFread f visible n failed h).cutPos = start + (bytes ps).length := by
    rw [cutPos_afterFread hok hP.bufferLe, hP.cutPos_eq]
  have hle : (afterFread f visible n failed h).buffer.length
      ≤ (afterFread f visible n failed h).filePos := by
    show (h.buffer ++ (f.content.drop h.filePos).take n).length ≤ h.filePos + n
    rw [List.length_append, hchunk]
    exact Nat.add_le_add_right hP.bufferLe n
  have hpos : h'.filePos = h.filePos + n := by rw [hs.same]; rfl
  have hsplit : frames.flatten ++ h'.buffer = h.buffer ++ (f.content.drop h.filePos).take n := hs.split
  refine ⟨ps ++ frames.map fun fr => (fr, false), ?_, ?_, ?_, ?_, ?_, ?_⟩
  · intro p hp
    rcases List.mem_append.mp hp with hp | hp
    · exact hP.pieces p hp
    · obtain ⟨fr, hfr, rfl⟩ := List.mem_map.mp hp
      exact hs.piece hfr
  · rw [hs.cut_eq, hbase, lay_append, List.map_append, ← hP.cut_eq, lay_scanned, List.map_map]
    exact congrArg _ (List.map_id _).symm
  · rw [lay_append, List.filter_append, List.map_append, ← hP.stuck_eq, lay_scanned]
    simp
  · rw [hpos, f.window_append hstart, hP.read, bytes_append, bytes_scanned, List.append_assoc,
      List.append_assoc, hsplit]
  · rw [hs.cutPos hle, hbase, bytes_append, bytes_scanned, List.length_append, Nat.add_assoc]
  · have hlen := congrArg List.length hsplit
    have hbuf := hP.bufferLe
    rw [List.length_append, List.length_append, hchunk] at hlen
    omega

theorem strip_of_uncut (hw : c.Uncut w) : strip c w = w := by
  rw [strip, if_neg]
  rintro ⟨-, hlast⟩
  exact uncut_not_mem hw (List.mem_of_getLast? hlast)

/-- A call begins with a flush, or not. -/
theorem Pieced.enter (hP : Pieced c f start h stuck ps) (hl : Limited c h) {now : ℤ} {s : Session}
    (hs : s.handler = h) :
    ∃ ps', Pieced c f start (enter c now h).2 (stuck ++ flushed c (.notify now) s) ps' := by
  subst hs
  rw [enter_handler, flushed]
  by_cases hopen : s.handler.fileOpen
  · rw [if_pos hopen, handleUncleaned]
    by_cases hflush : flushes c now s.handler
    · have hflush' := hflush
      simp only [flushes, Bool.and_eq_true, decide_eq_true_eq] at hflush'
      obtain ⟨⟨hne, -⟩, -, hseg⟩ := hflush'
      have hu := hl.uncut hseg
      rw [if_neg hne, if_pos hflush, if_pos ⟨hopen, hflush⟩]
      have hbuf := hP.bufferLe
      have hcut := hP.cutPos_eq
      refine ⟨ps ++ [(s.handler.buffer, true)], ?_, ?_, ?_, ?_, ?_, Nat.zero_le _⟩
      · intro p hp
        rcases List.mem_append.mp hp with hp | hp
        · exact hP.pieces p hp
        · obtain rfl := List.mem_singleton.mp hp
          exact .stuck hu hne
      · rw [lay_append, List.map_append, ← hP.cut_eq]
        simp [lay, strip_of_uncut hu, hcut]
      · rw [lay_append, List.filter_append, List.map_append, ← hP.stuck_eq]
        simp [lay, strip_of_uncut hu, hcut]
      · show f.window start s.handler.filePos = _
        rw [hP.read]
        simp
      · show s.handler.filePos - 0 = _
        rw [cutPos] at hcut
        simp only [bytes_append, bytes_cons, bytes_nil, List.append_nil, List.length_append]
        omega
    · rw [if_neg fun h : _ ∧ _ => hflush h.2, List.append_nil]
      refine ⟨ps, ?_⟩
      split
      · exact hP
      · exact ⟨hP.pieces, hP.cut_eq, hP.stuck_eq, hP.read, hP.cutPos_eq, hP.bufferLe⟩
  · rw [if_neg hopen, if_neg fun h : _ ∧ _ => hopen h.1, List.append_nil]
    exact ⟨ps, hP⟩

theorem Pieced.step {e : Event} {r r' : Control × IOHandler}
    (hP : Pieced c f start r.2 stuck ps) (hs : Step c f e r r') :
    ∃ ps', Pieced c f start r'.2 stuck ps' := by
  cases hs with
  | resend _ =>
      exact ⟨ps, hP.pieces, hP.cut_eq, hP.stuck_eq, hP.read, hP.cutPos_eq, hP.bufferLe⟩
  | send _ =>
      exact ⟨ps, hP.pieces, hP.cut_eq, hP.stuck_eq, hP.read, hP.cutPos_eq, hP.bufferLe⟩
  | readNothing hok =>
      rw [leaveReads_handler]
      exact hP.read_scan hok _
  | readFull hok _ _ =>
      rw [leaveReads_handler]
      exact hP.read_scan hok _
  | readOn hok _ _ => exact hP.read_scan hok _

theorem pieced_run (hlimit : 1 ≤ c.lineMaxBytes) {stored : ℕ} {now : ℤ} {as : List Tick}
    {t : Session × List Line}
    (hr : run (tickStuck c f) as (Session.init start stored now, []) = some t) :
    ∃ ps, Pieced c f start t.1.handler t.2 ps := by
  refine (run_inv (I := fun s : Session × List Line =>
    Limited c s.1.handler ∧ ∃ ps, Pieced c f start s.1.handler s.2 ps) ?_ as _ t
    ⟨limited_init c start stored now, [], pieced_init c f start stored now⟩ hr).2
  rintro a s s' ⟨hl, ps, hP⟩ hs
  obtain ⟨u, hu, rfl⟩ := Option.map_eq_some_iff.mp hs
  refine ⟨limited_tick hlimit a s.1 u hl hu, ?_⟩
  cases a with
  | notify now =>
      obtain ⟨-, -, rfl⟩ := tick_notify hu
      exact hP.enter hl rfl
  | answer e =>
      obtain ⟨-, hstep, -⟩ := tick_answer hu
      simp only [flushed, List.append_nil]
      exact hP.step hstep

/-! ## Counting -/

/-- Of the `k` flushed pieces, with `s` bytes in all, each is below the limit; the
others of a stretch without a delimiter are as long as the limit. -/
theorem count_pieces (hlimit : 1 ≤ c.lineMaxBytes) (hps : ∀ p ∈ mid, Piece c p)
    (hmid : c.lineDelimiter ∉ bytes mid) :
    ∃ full, mid.length = full + (mid.filter Prod.snd).length ∧
      (bytes mid).length
        = full * c.lineMaxBytes + ((mid.filter Prod.snd).map fun p => p.1.length).sum ∧
      (mid.filter Prod.snd).length ≤ ((mid.filter Prod.snd).map fun p => p.1.length).sum ∧
      ((mid.filter Prod.snd).map fun p => p.1.length).sum + (mid.filter Prod.snd).length
        ≤ (mid.filter Prod.snd).length * c.lineMaxBytes := by
  induction mid with
  | nil => exact ⟨0, by simp⟩
  | cons p mid ih =>
      obtain ⟨hp, hps⟩ := List.forall_mem_cons.mp hps
      rw [bytes_cons, List.mem_append, not_or] at hmid
      obtain ⟨full, hlen, hbytes, hpos, hle⟩ := ih hps hmid.2
      cases hp with
      | ended => simp at hmid
      | @full w b hw hb hge =>
          have hwlen : w.length + 1 = c.lineMaxBytes := by
            rcases (Framing.uncut_spec hw).2 with rfl | hlt
            · simp only [List.length_nil] at hge ⊢
              omega
            · omega
          refine ⟨full + 1, ?_, ?_, ?_, ?_⟩
          · rw [List.length_cons, hlen]
            simp only [Bool.false_eq_true, not_false_eq_true, List.filter_cons_of_neg]
            omega
          · rw [bytes_cons, List.length_append, hbytes, List.length_append, List.length_singleton,
              hwlen, Nat.succ_mul]
            simp only [Bool.false_eq_true, not_false_eq_true, List.filter_cons_of_neg]
            omega
          · simpa using hpos
          · simpa using hle
      | @stuck w hw hne =>
          have hwpos := List.length_pos_iff.mpr hne
          have hwlt := (Framing.uncut_spec hw).2.resolve_left hne
          refine ⟨full, ?_, ?_, ?_, ?_⟩
          · rw [List.length_cons, hlen, List.filter_cons_of_pos rfl, List.length_cons]
            omega
          · rw [bytes_cons, List.length_append, hbytes, List.filter_cons_of_pos rfl, List.map_cons,
              List.sum_cons]
            omega
          · rw [List.filter_cons_of_pos rfl, List.map_cons, List.sum_cons, List.length_cons]
            dsimp only
            omega
          · rw [List.filter_cons_of_pos rfl, List.map_cons, List.sum_cons, List.length_cons,
              Nat.succ_mul]
            dsimp only
            omega

/-- `full` pieces of `m` bytes, `k` pieces of `s` bytes in all and a last one of
`r` bytes: are these as many as the bytes need? -/
theorem count_eq_iff {m full k s r : ℕ} (hr : r < m) (hpos : k ≤ s) (hle : s + k ≤ k * m) :
    full + k + 1 = max 1 ((full * m + s + r + m - 1) / m) ↔
      full * m + s + r = 0 ∨ k * m < s + r := by
  have hm : 0 < m := Nat.lt_of_le_of_lt (Nat.zero_le r) hr
  have hdiv : (full * m + s + r + m - 1) / m = full + (s + r + m - 1) / m := by
    rw [show full * m + s + r + m - 1 = full * m + (s + r + m - 1) by omega, Nat.mul_comm,
      Nat.mul_add_div hm]
  have hupper : (s + r + m - 1) / m ≤ k + 1 := by
    rw [← Nat.lt_succ_iff, Nat.div_lt_iff_lt_mul hm, Nat.succ_mul, Nat.succ_mul]
    omega
  have hlast : k + 1 ≤ (s + r + m - 1) / m ↔ k * m < s + r := by
    rw [Nat.le_div_iff_mul_le hm, Nat.succ_mul]
    omega
  rw [hdiv]
  rcases Nat.eq_zero_or_pos (full * m + s + r) with h0 | hpos'
  · have hs0 : s + r = 0 := by omega
    have hfull : full = 0 := by
      rcases Nat.eq_zero_or_pos full with h | h
      · exact h
      · have := Nat.mul_pos h hm
        omega
    refine iff_of_true ?_ (Or.inl h0)
    rw [hs0, hfull, Nat.div_eq_of_lt (by omega)]
    omega
  · have hone : 1 ≤ full + (s + r + m - 1) / m := by
      rcases Nat.eq_zero_or_pos full with rfl | h
      · have h1 : 1 ≤ (s + r + m - 1) / m := by
          rw [Nat.le_div_iff_mul_le hm]
          omega
        exact Nat.le_trans h1 (Nat.le_add_left _ _)
      · exact Nat.le_trans h (Nat.le_add_right _ _)
    rw [max_eq_right hone, ← hlast]
    omega

/-! ## Messages of a line -/

/-- A line of `n` bytes at offset `a`, its delimiter behind it, all of it cut. -/
structure LineAt (c : Conf) (f : LogFile) (start : ℕ) (h : IOHandler) (a n : ℕ) : Prop where
  begins : a = start ∨ start < a ∧ f.content[a - 1]? = some c.lineDelimiter
  body : c.lineDelimiter ∉ f.window a (a + n)
  ended : f.content[a + n]? = some c.lineDelimiter
  read : a + n < h.cutPos

/-- The messages that begin in the line, or at its delimiter. -/
def within (a n : ℕ) (ls : List Line) : List Line :=
  ls.filter fun l => a ≤ l.start ∧ l.start ≤ a + n

/-- What `conf` says of the messages of a line: as many as it takes, and none
that is empty but that of an empty line. -/
def CutAsNeeded (c : Conf) (f : LogFile) (a n : ℕ) (messages : List Line) : Prop :=
  (messages.map Line.text).flatten = f.window a (a + n) ∧
    messages.length = max 1 ((n + c.lineMaxBytes - 1) / c.lineMaxBytes) ∧
    (n ≠ 0 → ∀ l ∈ messages, l.text ≠ [])

/-- The bytes of the messages. -/
def weight (ls : List Line) : ℕ := (ls.map fun l => l.text.length).sum

/-- The window of a line, with what was read before and behind it. -/
theorem window_split {a b n : ℕ} {d : Byte} (hstart : start ≤ a) (hb : a + n < b)
    (hend : f.content[a + n]? = some d) :
    ∃ more, f.window start b = f.window start a ++ (f.window a (a + n) ++ d :: more) := by
  have hsplit : ∀ {x y : ℕ}, x ≤ y → y ≤ b → f.window x b = f.window x y ++ f.window y b := by
    intro x y hxy hyb
    have := f.window_append hxy (b - y)
    rw [Nat.add_sub_cancel' hyb] at this
    exact this
  refine ⟨f.window (a + n + 1) b, ?_⟩
  have hd : f.window (a + n) b = d :: f.window (a + n + 1) b := by
    rw [LogFile.window, List.drop_eq_getElem_cons (List.getElem?_eq_some_iff.mp hend).1,
      (List.getElem?_eq_some_iff.mp hend).2, LogFile.window,
      show b - (a + n) = b - (a + n + 1) + 1 by omega, List.take_succ_cons]
  rw [hsplit hstart (by omega), hsplit (Nat.le_add_right a n) (by omega), hd]

/-- What was read up to the line ends in a delimiter. -/
theorem LineAt.before {a n : ℕ} (hline : LineAt c f start h a n) :
    start ≤ a ∧ (f.window start a).length = a - start ∧
      (f.window start a = [] ∨ (f.window start a).getLast? = some c.lineDelimiter) := by
  obtain ⟨hlen, -⟩ := List.getElem?_eq_some_iff.mp hline.ended
  rcases hline.begins with rfl | ⟨hlt, hlast⟩
  · exact ⟨le_rfl, by simp [f.window_self], Or.inl (f.window_self a)⟩
  · have hwin : (f.window start a).length = a - start := by
      rw [LogFile.window, List.length_take, List.length_drop]
      omega
    refine ⟨hlt.le, hwin, Or.inr ?_⟩
    rw [List.getLast?_eq_getElem?, hwin, LogFile.window, List.getElem?_take_of_lt (by omega),
      List.getElem?_drop, show start + (a - start - 1) = a - 1 by omega]
    exact hlast

/-- Of consecutive pieces, those that begin in a stretch of them. -/
theorem filter_lay {pre : List (List Byte × Bool)} {a n : ℕ}
    (hps : ∀ p ∈ pre ++ (mid ++ post), Piece c p) (ha : start + (bytes pre).length = a)
    (hn : (bytes mid).length = n + 1) :
    (lay c start (pre ++ (mid ++ post))).filter
      (fun l => decide (a ≤ l.1.start ∧ l.1.start ≤ a + n)) = lay c a mid := by
  have hne : ∀ qs : List (List Byte × Bool), (∀ q ∈ qs, q ∈ pre ++ (mid ++ post)) →
      ∀ q ∈ qs, q.1 ≠ [] := fun qs hqs q hq => (hps q (hqs q hq)).ne_nil
  have hpre := @lay_starts c pre start (hne pre fun q hq => List.mem_append_left _ hq)
  have hmid := @lay_starts c mid a (hne mid fun q hq =>
    List.mem_append_right _ (List.mem_append_left _ hq))
  have hpost := @lay_starts c post (a + (n + 1)) (hne post fun q hq =>
    List.mem_append_right _ (List.mem_append_right _ hq))
  rw [lay_append, lay_append, ha, hn, List.filter_append, List.filter_append]
  have h1 : (lay c start pre).filter
      (fun l => decide (a ≤ l.1.start ∧ l.1.start ≤ a + n)) = [] := by
    refine List.filter_eq_nil_iff.mpr fun l hl => ?_
    have := hpre l hl
    simp only [decide_eq_true_eq]
    omega
  have h2 : (lay c a mid).filter
      (fun l => decide (a ≤ l.1.start ∧ l.1.start ≤ a + n)) = lay c a mid := by
    refine List.filter_eq_self.mpr fun l hl => ?_
    have := hmid l hl
    simp only [decide_eq_true_eq]
    omega
  have h3 : (lay c (a + (n + 1)) post).filter
      (fun l => decide (a ≤ l.1.start ∧ l.1.start ≤ a + n)) = [] := by
    refine List.filter_eq_nil_iff.mpr fun l hl => ?_
    have := hpost l hl
    simp only [decide_eq_true_eq]
    omega
  rw [h1, h2, h3, List.append_nil, List.nil_append]

/-- The messages of a line are its pieces. -/
theorem Pieced.within_eq (hP : Pieced c f start h stuck ps) {a n : ℕ}
    (hline : LineAt c f start h a n) : ∃ mid w, (∀ p ∈ mid, Piece c p) ∧ c.Uncut w ∧
      bytes mid ++ w = f.window a (a + n) ∧ (f.window a (a + n)).length = n ∧
      within a n h.cut = (lay c a (mid ++ [(w ++ [c.lineDelimiter], false)])).map Prod.fst ∧
      within a n stuck = ((lay c a mid).filter Prod.snd).map Prod.fst := by
  obtain ⟨hstart, hbefore, hxs⟩ := hline.before
  obtain ⟨hlen, -⟩ := List.getElem?_eq_some_iff.mp hline.ended
  have hread := hline.read
  have hcut := hP.cutPos_eq
  have hle : h.cutPos ≤ h.filePos := Nat.sub_le _ _
  have hbody : (f.window a (a + n)).length = n := by
    rw [LogFile.window, List.length_take, List.length_drop]
    omega
  obtain ⟨more, hwin⟩ := window_split hstart (Nat.lt_of_lt_of_le hread hle) hline.ended
  have hsplit := hP.read.symm.trans hwin
  -- the pieces in front of the line, those of the line, and the others
  obtain ⟨pre, post, rfl, hpre⟩ := pieces_split_boundary hP.pieces hxs hsplit (by omega)
  have hpost := fun p hp => hP.pieces p (List.mem_append_right pre hp)
  rw [bytes_append, hpre, List.append_assoc, List.append_cancel_left_eq] at hsplit
  rw [bytes_append, hpre, List.length_append] at hcut
  obtain ⟨mid, w, post, rfl, hmid, hw⟩ := pieces_split_line hpost hline.body hsplit (by omega)
  have hlay := @filter_lay c (mid ++ [(w ++ [c.lineDelimiter], false)]) post start pre a n
    (by simpa using hP.pieces) (by rw [hpre]; omega) (by
      rw [bytes_append, bytes_cons, bytes_nil, List.append_nil, ← List.append_assoc, hmid,
        List.length_append, hbody, List.length_singleton])
  rw [List.append_assoc, List.singleton_append] at hlay
  refine ⟨mid, w, fun p hp => hpost p (List.mem_append_left _ hp), hw, hmid, hbody, ?_, ?_⟩
  · rw [within, hP.cut_eq, List.filter_map]
    exact congrArg _ hlay
  · rw [within, hP.stuck_eq, List.filter_map]
    have hcomm := congrArg (List.filter Prod.snd) hlay
    rw [List.filter_comm] at hcomm
    refine congrArg (List.map Prod.fst) (hcomm.trans ?_)
    rw [lay_append, List.filter_append]
    simp [lay]

/-- Without a delimiter nothing is stripped. -/
theorem lay_texts (hps : c.lineDelimiter ∉ bytes ps) (pos : ℕ) :
    (lay c pos ps).map (fun l => (l.1.text, l.2)) = ps := by
  induction ps generalizing pos with
  | nil => rfl
  | cons p ps ih =>
      rw [bytes_cons, List.mem_append, not_or] at hps
      have hstrip : strip c p.1 = p.1 := by
        rw [strip, if_neg]
        exact fun h => hps.1 (List.mem_of_getLast? h.2)
      rw [lay, List.map_cons, ih hps.2, hstrip]

/-- The texts of the messages that were not flushed, and of those that were. -/
theorem texts_of_pieces (hremove : c.removeDelimiter = true) (hmid : c.lineDelimiter ∉ bytes mid)
    (a : ℕ) (w : List Byte) :
    ((lay c a (mid ++ [(w ++ [c.lineDelimiter], false)])).map Prod.fst).map Line.text
        = mid.map Prod.fst ++ [w] ∧
      (((lay c a mid).filter Prod.snd).map Prod.fst).map Line.text
        = (mid.filter Prod.snd).map Prod.fst := by
  have htexts := lay_texts hmid a
  constructor
  · rw [lay_append, List.map_append, List.map_append, List.map_map]
    have hfst := congrArg (List.map Prod.fst) htexts
    rw [List.map_map] at hfst
    refine congrArg₂ (· ++ ·) hfst ?_
    simp [lay, strip, hremove]
  · have hfst := congrArg (fun ps => (List.filter Prod.snd ps).map Prod.fst) htexts
    simp only [List.filter_map, List.map_map] at hfst
    rw [List.map_map]
    exact hfst

/-- **When a line is cut into as many messages as it needs.**  After any calls of
a handler with the delimiter removed, for any line that was cut: if and only if
the line is empty, or the `k` pieces of it that were flushed for being stuck,
with what is over of the rest, weigh more than `k` times the limit.  For a line
of which nothing was flushed that is: its length is no multiple of the limit. -/
theorem pieces_iff {stored : ℕ} {now : ℤ} {as : List Tick} {t : Session × List Line} {a n : ℕ}
    (hremove : c.removeDelimiter = true) (hlimit : 1 ≤ c.lineMaxBytes)
    (hr : run (tickStuck c f) as (Session.init start stored now, []) = some t)
    (hline : LineAt c f start t.1.handler a n) :
    CutAsNeeded c f a n (within a n t.1.handler.cut) ↔
      n = 0 ∨ (within a n t.2).length * c.lineMaxBytes
        < weight (within a n t.2) + (n - weight (within a n t.2)) % c.lineMaxBytes := by
  obtain ⟨ps, hP⟩ := pieced_run hlimit hr
  obtain ⟨mid, w, hmid, hw, hbody, hn, hcut, hstuck⟩ := hP.within_eq hline
  have hnot : c.lineDelimiter ∉ bytes mid :=
    fun hmem => hline.body (hbody ▸ List.mem_append_left w hmem)
  obtain ⟨htexts, hflushed⟩ := texts_of_pieces hremove hnot a w
  obtain ⟨full, hcount, hbytes, hpos, hle⟩ := count_pieces hlimit hmid hnot
  rw [← hcut] at htexts
  rw [← hstuck] at hflushed
  have hk : (within a n t.2).length = (mid.filter Prod.snd).length := by
    simpa using congrArg List.length hflushed
  have hs : weight (within a n t.2) = ((mid.filter Prod.snd).map fun p => p.1.length).sum := by
    have hlens := congrArg (fun xs : List (List Byte) => (xs.map List.length).sum) hflushed
    simpa [weight, Function.comp_def] using hlens
  have hmessages : (within a n t.1.handler.cut).length = mid.length + 1 := by
    simpa using congrArg List.length htexts
  have hlast : w.length < c.lineMaxBytes := by
    rcases (Framing.uncut_spec hw).2 with rfl | hlt
    · exact hlimit
    · exact hlt
  have hsum := congrArg List.length hbody
  rw [List.length_append, hbytes, hn] at hsum
  rw [hk, hs]
  generalize ((mid.filter Prod.snd).map fun p => p.1.length).sum = s at hpos hle hsum
  generalize (mid.filter Prod.snd).length = k at hcount hpos hle
  have hrest : (n - s) % c.lineMaxBytes = w.length := by
    rw [show n - s = w.length + full * c.lineMaxBytes by omega, Nat.add_mul_mod_self_right,
      Nat.mod_eq_of_lt hlast]
  have hiff := @count_eq_iff c.lineMaxBytes full k s w.length hlast hpos hle
  rw [hrest, ← hsum, ← hiff, hsum]
  constructor
  · rintro ⟨-, hlen, -⟩
    rw [← hlen, hmessages, hcount]
  · intro hlen
    refine ⟨?_, by rw [hmessages, hcount, hlen], fun hne l hl => ?_⟩
    · rw [htexts, List.flatten_append, ← hbody]
      simp [bytes]
    · -- an empty message could only be the last one
      have hmem := List.mem_map_of_mem (f := Line.text) hl
      rw [htexts] at hmem
      rcases List.mem_append.mp hmem with hmem | hmem
      · obtain ⟨p, hp, heq⟩ := List.mem_map.mp hmem
        exact heq ▸ (hmid p hp).ne_nil
      · rw [List.mem_singleton.mp hmem]
        rintro rfl
        rw [← hsum] at hlen
        rcases hiff.mp hlen with h0 | hmore
        · exact hne (hsum ▸ h0)
        · rw [List.length_nil] at hmore
          omega

/-- Lines of at most five bytes, newline removed. -/
def fiveConf : Conf :=
  { maxLineAtOnce := 4, lineMaxBytes := 5, bufferMaxBytes := 17, lineDelimiter := 10,
    removeDelimiter := true, maxLineAtOnce_lt := by decide, lineMaxBytes_lt := by decide,
    bufferMaxBytes_lt := by decide }

/-- Two lines, of six and of five bytes. -/
def sixFiveFile : LogFile := ⟨[97, 98, 99, 100, 101, 102, 10, 97, 98, 99, 100, 101, 10], by decide⟩

/-- Three bytes of the first line are there for so long that they are flushed; then
all is read that there is. -/
def sixFiveTicks : List Tick :=
  [.notify 0, .answer (.fread 3 3 false 0), .answer (.fread 3 0 false 0), .notify 20,
    .answer (.receive true [.taken] 20), .answer (.fread 13 10 false 20)]

/-- The first line, of six bytes, needs two messages and is cut into two, a flush
in between. -/
theorem pieces_iff_flushed : ∃ t, run (tickStuck fiveConf sixFiveFile) sixFiveTicks
      (Session.init 0 0 0, []) = some t ∧ within 0 6 t.2 = [⟨0, [97, 98, 99]⟩] ∧
    CutAsNeeded fiveConf sixFiveFile 0 6 (within 0 6 t.1.handler.cut) := by
  obtain ⟨t, hr, hstuck, hline⟩ : ∃ t, run (tickStuck fiveConf sixFiveFile) sixFiveTicks
      (Session.init 0 0 0, []) = some t ∧ within 0 6 t.2 = [⟨0, [97, 98, 99]⟩] ∧
        LineAt fiveConf sixFiveFile 0 t.1.handler 0 6 :=
    ⟨_, rfl, by decide, Or.inl rfl, by decide, by decide, by decide⟩
  refine ⟨t, hr, hstuck, (pieces_iff rfl (by decide) hr hline).mpr (Or.inr ?_)⟩
  rw [hstuck]
  decide

/-- The second line, of five bytes, is cut into its text and an empty message. -/
theorem pieces_fails : ∃ t, run (tickStuck fiveConf sixFiveFile) sixFiveTicks
      (Session.init 0 0 0, []) = some t ∧ within 7 5 t.2 = [] ∧
    LineAt fiveConf sixFiveFile 0 t.1.handler 7 5 ∧
    (within 7 5 t.1.handler.cut).map Line.text = [[97, 98, 99, 100, 101], []] ∧
    ¬ CutAsNeeded fiveConf sixFiveFile 7 5 (within 7 5 t.1.handler.cut) := by
  refine ⟨_, rfl, by decide, ⟨Or.inr (by decide), by decide, by decide, by decide⟩, by decide, ?_⟩
  exact fun h => absurd h.2.1 (by decide)

end Logkafka.IOHandler
