/-
# `Logkafka.IOHandler.Stuck` — when a stalled last line is delivered

A last line without its delimiter stays in the buffer, and a call that finds
the buffer stuck, that is more than `m_buffer_stuck_max_ms` after
`m_last_buffer_stuck_time`, pushes it as it is.  The time is meant to be that
of the last growth.  But the scan sets it whenever it leaves something over,
and it runs in every round of the reading loop, also when `fread` brought
nothing.  So each call that comes as far as its `fread` starts the ten seconds
again, and a handler that is notified more often than that (the timer takes
three seconds) never delivers the line.

What decides is whether an empty `fread`, in a call that has added nothing,
meets a buffer that is not all whole lines (`Spent`) in a later second than
that of the last growth.  Where none does, and only there, every call more than
ten seconds after the last growth delivers the line (`delivered_iff`).
-/
import Logkafka.IOHandler.Session

namespace Logkafka.IOHandler

variable {c : Conf} {f : LogFile} {h : IOHandler} {s s' : Session} {now₀ : ℤ}

/-! ## What a scan leaves over

The stamp of the stuck test is set just when something is left.
-/

/-- The buffer is empty, or whole lines for which there is room. -/
def Spent (c : Conf) (h : IOHandler) : Prop :=
  h.buffer = [] ∨ (c.cuts [] h.buffer).2 = [] ∧
    h.lines.length + (c.cuts [] h.buffer).1.length ≤ c.maxLineAtOnce

instance : Decidable (Spent c h) := by
  unfold Spent; infer_instance

theorem scanBuffer_empty_iff (now : ℤ) : (scanBuffer c now h).1.buffer = [] ↔ Spent c h := by
  obtain ⟨frames, hsp⟩ := scanBuffer_spec c now h
  by_cases hb : h.buffer = []
  · refine iff_of_true ?_ (Or.inl hb)
    rw [scanBuffer, if_pos hb]
    exact hb
  have hlines : (scanBuffer c now h).1.lines.length = h.lines.length + frames.length := by
    rw [hsp.lines_eq, List.length_append, length_layout]
  have hcuts := hsp.cuts_eq
  constructor
  · intro hleft
    rw [hleft] at hcuts
    have hcuts : c.cuts [] h.buffer = (frames, []) := by rw [hcuts]; simp
    refine Or.inr ⟨by rw [hcuts], ?_⟩
    -- a scan over a full batch leaves everything over
    have hroom : h.lines.length ≤ c.maxLineAtOnce := by
      by_contra hfull
      obtain ⟨b, rest, hbuf⟩ := List.exists_cons_of_ne_nil hb
      have hscan : scan c h.cutPos h.lines 0 [] h.buffer = ⟨h.lines, 0, true⟩ := by
        rw [hbuf, scan, if_pos (by omega)]
      rw [scanBuffer, if_neg hb] at hleft
      simp only [hscan, List.drop_zero] at hleft
      exact hb hleft
    rw [hcuts]
    exact hlines ▸ hsp.bound hroom
  · rintro (hnil | ⟨hrest, hroom⟩)
    · exact absurd hnil hb
    · have hsplit := @Framing.flatten_cuts Byte (fun b => b = c.lineDelimiter) c.lineMaxBytes []
        (scanBuffer c now h).1.buffer
      rw [hcuts] at hrest hroom
      cases hbr : (scanBuffer c now h).2 with
      | false =>
          have hu : c.cuts [] (scanBuffer c now h).1.buffer = ([], _) := hsp.scanned hbr
          rwa [hu] at hrest
      | true =>
          -- the batch is full, so no frame is left in the buffer
          have hfull := hsp.full hbr
          simp only [List.length_append] at hroom
          have hnone : (c.cuts [] (scanBuffer c now h).1.buffer).1 = [] :=
            List.length_eq_zero_iff.mp (by omega)
          rw [show Framing.cuts _ _ [] (scanBuffer c now h).1.buffer = (_, _) from
            Prod.ext hnone hrest] at hsplit
          simpa using hsplit.symm

/-- What is left over is stamped. -/
theorem scanBuffer_stamp {now : ℤ} (hleft : (scanBuffer c now h).1.buffer ≠ []) :
    (scanBuffer c now h).1.lastBufferStuckTime = now := by
  unfold scanBuffer at hleft ⊢
  split at hleft
  · next hb => exact absurd hb hleft
  · next hb =>
      rw [if_neg hb]
      exact if_neg hleft

/-! ## The law, and what keeps it -/

/-- The time of the stuck test is not later than the last growth; so a call that
comes more than ten seconds after it finds a fully scanned tail stuck, and moves
it to the lines if there is room.  The seconds of a run that began at `now₀` are
below `now₀ + 2 ^ 54`, where the product of the test does not wrap. -/
def Delivers (c : Conf) (now₀ : ℤ) (s : Session) : Prop :=
  ∀ g, s.lastGrowth = some g → s.handler.buffer ≠ [] →
    s.handler.lastBufferStuckTime ≤ g ∧
    (s.handler.bufferLastSegment = true → s.handler.lines.length < c.maxLineAtOnce →
      ∀ t, 10 < t - g → t < now₀ + 2 ^ 54 →
        isBufferStuck t s.handler = true ∧
        (enter c t s.handler).2.lines = s.handler.lines ++ [⟨s.handler.cutPos, s.handler.buffer⟩] ∧
        (enter c t s.handler).2.buffer = [])

/-- An empty `fread` in a call that has added nothing meets no rest, or is in
the second of the last growth. -/
def Undisturbed (c : Conf) (s : Session) : Tick → Prop
  | .answer (.fread _ n _ now) =>
      n = 0 → s.grew = false → ∀ g, s.lastGrowth = some g → g < now → Spent c s.handler
  | _ => True

/-- What every run keeps. -/
structure Timed (now₀ : ℤ) (s : Session) : Prop where
  fileOpen : s.handler.fileOpen = true
  clock : now₀ ≤ s.clock
  stamped : s.handler.buffer ≠ [] → now₀ ≤ s.handler.lastBufferStuckTime ∧
    s.handler.lastBufferStuckTime ≤ s.clock
  running : s.grew = true → s.lastGrowth = some s.clock

/-- An elapsed time that does not wrap. -/
theorem isBufferStuck_of_lt {t : ℤ} (h1 : 10 < t - h.lastBufferStuckTime)
    (h2 : t - h.lastBufferStuckTime < 2 ^ 54) : isBufferStuck t h = true := by
  unfold isBufferStuck elapsedMs bufferStuckMaxMs
  rw [Int.emod_eq_of_lt (by omega) (by omega)]
  exact decide_eq_true (by omega)

theorem enter_stuck {t : ℤ} (hopen : h.fileOpen = true) (hb : h.buffer ≠ [])
    (hseg : h.bufferLastSegment = true) (hroom : h.lines.length < c.maxLineAtOnce)
    (hstuck : isBufferStuck t h = true) :
    (enter c t h).2.lines = h.lines ++ [⟨h.cutPos, h.buffer⟩] ∧ (enter c t h).2.buffer = [] := by
  have hflush : flushes c t h = true := by
    unfold flushes
    simp [hb, hroom, hstuck, hseg]
  rw [enter_handler, if_pos hopen, handleUncleaned, if_neg hb, if_pos hflush]
  exact ⟨rfl, rfl⟩

/-- The first half of the law gives the second. -/
theorem delivers_of_le (ht : Timed now₀ s)
    (hle : ∀ g, s.lastGrowth = some g → s.handler.buffer ≠ [] →
      s.handler.lastBufferStuckTime ≤ g) : Delivers c now₀ s := by
  intro g hg hb
  have hle := hle g hg hb
  obtain ⟨hlow, -⟩ := ht.stamped hb
  refine ⟨hle, fun hseg hroom t hlate hwrap => ?_⟩
  have hstuck : isBufferStuck t s.handler = true :=
    isBufferStuck_of_lt (by omega) (by omega)
  exact ⟨hstuck, enter_stuck ht.fileOpen hb hseg hroom hstuck⟩

/-! ## One tick

The law is kept by every tick but one that scans a rest later than the last
growth, and that one breaks it.
-/

/-- What a call does before its first answer. -/
theorem enter_buffer (now : ℤ) : (enter c now h).2.fileOpen = h.fileOpen ∧
    (enter c now h).2.lastBufferStuckTime = h.lastBufferStuckTime ∧
    ((enter c now h).2.buffer ≠ [] → h.buffer ≠ []) := by
  rw [enter_handler]
  split
  · rcases handleUncleaned_cases c now h with ⟨-, heq⟩ | ⟨hb, -, -, heq⟩ | ⟨-, heq⟩ <;> rw [heq]
    · exact ⟨rfl, rfl, id⟩
    · exact ⟨rfl, rfl, fun _ => hb⟩
    · exact ⟨rfl, rfl, id⟩
  · exact ⟨rfl, rfl, id⟩

/-- An answer leaves the buffer and its stamp alone, or it is an `fread` and the
buffer is scanned. -/
theorem buffer_step {e : Event} {r r' : Control × IOHandler} (hs : Step c f e r r') :
    (e.grows = false ∧ r'.2.fileOpen = r.2.fileOpen ∧ r'.2.buffer = r.2.buffer ∧
        r'.2.lastBufferStuckTime = r.2.lastBufferStuckTime ∧ ∃ ok vs, e = .receive ok vs e.now) ∨
      ∃ visible n failed, e = .fread visible n failed e.now ∧
        (e.grows = true ↔ n ≠ 0) ∧
        r'.2 = (scanBuffer c e.now (afterFread f visible n failed r.2)).1 := by
  cases hs with
  | resend _ => exact Or.inl ⟨rfl, rfl, rfl, rfl, _, _, rfl⟩
  | send _ => exact Or.inl ⟨rfl, rfl, rfl, rfl, _, _, rfl⟩
  | readNothing _ => exact Or.inr ⟨_, 0, _, rfl, by simp [Event.grows], leaveReads_handler _ _⟩
  | readFull _ hn _ => exact Or.inr ⟨_, _, _, rfl, by simp [Event.grows], leaveReads_handler _ _⟩
  | readOn _ hn _ => exact Or.inr ⟨_, _, _, rfl, by simp [Event.grows], rfl⟩

theorem timed_tick {a : Tick} (ht : Timed now₀ s) (hs : tick c f a s = some s') :
    Timed now₀ s' := by
  have hclock₀ := ht.clock
  cases a with
  | notify now =>
      obtain ⟨-, hclock, rfl⟩ := tick_notify hs
      obtain ⟨hopen, hstamp, hb⟩ := @enter_buffer c s.handler now
      refine ⟨hopen.trans ht.fileOpen, le_trans hclock₀ hclock, fun hne => ?_, fun hc => by cases hc⟩
      obtain ⟨hlow, hhigh⟩ := ht.stamped (hb hne)
      show now₀ ≤ (enter c now s.handler).2.lastBufferStuckTime ∧ _ ≤ now
      rw [hstamp]
      exact ⟨hlow, le_trans hhigh hclock⟩
  | answer e =>
      obtain ⟨hclock, hstep, hclock', hgrew, hgrowth⟩ := tick_answer hs
      have hrunning : s'.grew = true → s'.lastGrowth = some s'.clock := by
        intro hg
        rw [hgrowth, if_pos (hgrew ▸ hg), hclock']
      rcases buffer_step hstep with ⟨-, hopen, hbuf, hstamp, -⟩ | ⟨visible, n, failed, -, -, hscan⟩
      · refine ⟨hopen.trans ht.fileOpen, hclock' ▸ le_trans hclock₀ hclock, fun hne => ?_, hrunning⟩
        obtain ⟨hlow, hhigh⟩ := ht.stamped (hbuf ▸ hne)
        rw [show s'.handler.lastBufferStuckTime = _ from hstamp, hclock']
        exact ⟨hlow, le_trans hhigh hclock⟩
      · have hscan : s'.handler = _ := hscan
        refine ⟨?_, hclock' ▸ le_trans hclock₀ hclock, fun hne => ?_, hrunning⟩
        · rw [hscan, scanBuffer_fileOpen]
          exact ht.fileOpen
        · rw [hscan] at hne
          rw [hscan, scanBuffer_stamp hne, hclock']
          exact ⟨le_trans hclock₀ hclock, le_refl _⟩

theorem delivers_tick {a : Tick} (ht : Timed now₀ s) (hd : Delivers c now₀ s)
    (hu : Undisturbed c s a) (hs : tick c f a s = some s') : Delivers c now₀ s' := by
  refine delivers_of_le (timed_tick ht hs) fun g hg hne => ?_
  cases a with
  | notify now =>
      obtain ⟨-, -, rfl⟩ := tick_notify hs
      obtain ⟨-, hstamp, hb⟩ := @enter_buffer c s.handler now
      show (enter c now s.handler).2.lastBufferStuckTime ≤ g
      rw [hstamp]
      exact (hd g hg (hb hne)).1
  | answer e =>
      obtain ⟨hclock, hstep, hclock', -, hgrowth⟩ := tick_answer hs
      have ht' := timed_tick ht hs
      by_cases hgrew : (s.grew || e.grows) = true
      · -- the call that is running has added bytes
        rw [hgrowth, if_pos hgrew] at hg
        cases hg
        exact hclock' ▸ (ht'.stamped hne).2
      · obtain ⟨hgrew, hgrows⟩ := Bool.or_eq_false_iff.mp (by simpa using hgrew)
        have hg : s.lastGrowth = some g := by simpa [hgrew, hgrows] using hgrowth.symm.trans hg
        rcases buffer_step hstep with ⟨-, -, hbuf, hstamp, -⟩ | ⟨visible, n, failed, he, hn, hscan⟩
        · rw [show s'.handler.lastBufferStuckTime = _ from hstamp]
          exact (hd g hg (hbuf ▸ hne)).1
        · have hn : n = 0 := by
            by_contra hne
            rw [hn.mpr hne] at hgrows
            cases hgrows
          subst hn
          have hscan : s'.handler = _ := hscan
          rw [hscan] at hne ⊢
          rw [scanBuffer_stamp hne]
          by_contra hlate
          rw [he] at hu
          have hspent := hu rfl hgrew g hg (by omega)
          refine hne ((scanBuffer_empty_iff e.now).mpr ?_)
          simpa [Spent, afterFread] using hspent

/-- A scan that meets a rest later than the last growth starts the ten seconds
again. -/
theorem not_delivers_of_disturbed {a : Tick} (hu : ¬ Undisturbed c s a)
    (hs : tick c f a s = some s') : ¬ Delivers c now₀ s' := by
  intro hd
  cases a with
  | notify now => exact hu trivial
  | answer e =>
      cases e with
      | receive ok vs now => exact hu trivial
      | fread visible n failed now =>
          obtain ⟨-, hstep, -, -, hgrowth⟩ := tick_answer hs
          simp only [Undisturbed, Classical.not_imp, not_forall] at hu
          obtain ⟨rfl, hgrew, g, hg, hlate, hrest⟩ := hu
          have hg' : s'.lastGrowth = some g := by
            rw [hgrowth, if_neg (by simp [hgrew, Event.grows]), hg]
          rcases buffer_step hstep with ⟨-, -, -, -, ok, vs, he⟩ | ⟨visible', n', failed', he, -, hscan⟩
          · cases he
          · cases he
            have hscan : s'.handler = (scanBuffer c now (afterFread f visible 0 failed s.handler)).1 :=
              hscan
            have hne : s'.handler.buffer ≠ [] := by
              rw [hscan]
              refine fun hnil => hrest ?_
              simpa [Spent, afterFread] using (scanBuffer_empty_iff now).mp hnil
            have hle := (hd g hg' hne).1
            rw [hscan] at hne hle
            rw [scanBuffer_stamp hne] at hle
            omega

theorem timed_init (start stored : ℕ) (now₀ : ℤ) : Timed now₀ (Session.init start stored now₀) where
  fileOpen := rfl
  clock := le_refl now₀
  stamped h := absurd rfl h
  running h := by cases h

/-- **When a stalled last line is delivered.**  In every run of calls of a
handler: the law holds in every state the run passes if and only if no empty
`fread` of it, in a call that added nothing, met a rest in a later second than
the last growth. -/
theorem delivered_iff {start stored : ℕ} {as : List Tick} {t : Session}
    (hr : run (tick c f) as (Session.init start stored now₀) = some t) :
    (∀ u, Visits (tick c f) as (Session.init start stored now₀) u → Delivers c now₀ u) ↔
      Along (tick c f) (Undisturbed c) as (Session.init start stored now₀) :=
  visits_iff_along (I := fun s => Timed now₀ s ∧ Delivers c now₀ s)
    (fun _ _ _ hI hC hs => ⟨⟨timed_tick hI.1 hs, delivers_tick hI.1 hI.2 hC hs⟩,
      delivers_tick hI.1 hI.2 hC hs⟩)
    (fun _ _ _ _ hC hs => not_delivers_of_disturbed hC hs)
    ⟨timed_init start stored now₀, fun _ hg => by cases hg⟩ (fun _ hg => by cases hg) hr

/-- Batches of 200 lines, each of 64 bytes at most. -/
def tailConf : Conf := ⟨200, 64, 64, 10, true, by decide, by decide, by decide⟩

/-- "abc", and no newline. -/
def tailFile : LogFile := ⟨[97, 98, 99], by decide⟩

/-- One call: the three bytes, and no more. -/
def oneCall : List Tick :=
  [.notify 0, .answer (.fread 3 3 false 0), .answer (.fread 3 0 false 0)]

theorem delivered_iff_once :
    ∃ t, run (tick tailConf tailFile) oneCall (Session.init 0 0 0) = some t ∧
      Delivers tailConf 0 t ∧ t.lastGrowth = some 0 ∧ t.handler.buffer = [97, 98, 99] := by
  have hr : run (tick tailConf tailFile) oneCall (Session.init 0 0 0) = some _ := rfl
  refine ⟨_, hr, (delivered_iff hr).mpr ?_ _ (visits_of_run hr), rfl, rfl⟩
  refine ⟨trivial, fun _ h₁ => ⟨?_, fun _ h₂ => ⟨?_, fun _ _ => trivial⟩⟩⟩
  · intro hn
    cases hn
  · cases h₁
    cases h₂
    intro _ hgrew
    cases hgrew

/-- A call every three seconds, and the line is not delivered at the twelfth. -/
theorem delivered_fails :
    ¬ ∀ (c : Conf) (f : LogFile) (start stored : ℕ) (now₀ : ℤ) (as : List Tick) (t : Session),
      run (tick c f) as (Session.init start stored now₀) = some t → Delivers c now₀ t := by
  intro hall
  have hd := hall tailConf tailFile 0 0 0 (oneCall ++
    [.notify 3, .answer (.fread 3 0 false 3), .notify 6, .answer (.fread 3 0 false 6),
      .notify 9, .answer (.fread 3 0 false 9)]) _ rfl 0 rfl (by decide)
  have hlate := (hd.2 rfl (by decide) 12 (by decide) (by decide)).1
  exact absurd hlate (by decide)

end Logkafka.IOHandler
