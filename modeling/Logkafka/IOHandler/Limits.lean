/-
# `Logkafka.IOHandler.Limits` — what a message may weigh

`Config::init` refuses sizes out of range and a `read_max_bytes` below
`line_max_bytes`, and `message.max.bytes` is set to

    line_max_bytes + key_max_bytes

The first summand is kept by every line: the scan cuts at the limit, and what
is flushed for being stuck is a scanned rest, which is shorter.  The second is
kept by nothing, since the key of a task is what the configuration says and no
length of it is looked at.  So the messages of a task fit if and only if its
key does, or no line of it is ever cut (`messages_fit_iff`).
-/
import Logkafka.IOHandler.Session
import Logkafka.TailWatcher.Basic

namespace Logkafka

/-- `Config`, with what else its own checks and Kafka's settings look at. -/
structure Settings extends Config where
  logkafkaId : Str
  keyMaxBytes : UInt64
  zookeeperUploadInterval : UInt64

namespace Settings

def hardLimitLineMaxBytes : UInt64 := 1073741824

def hardLimitReadMaxBytes : UInt64 := 1073741824

def hardLimitKeyMaxBytes : UInt64 := 10240

def hardLimitZookeeperUploadInterval : UInt64 := 60000

/-- `TailWatcher::isStateSilentMaxMsValid` -/
def isStateSilentMaxMsValid (statSilentMaxMs : UInt64) : Bool := max 1000 3000 < statSilentMaxMs

/-- The checks of `Config::init`. -/
def init (s : Settings) : Bool :=
  if s.logkafkaId = [] then false
  else if hardLimitLineMaxBytes < s.lineMaxBytes then false
  else if hardLimitReadMaxBytes < s.readMaxBytes then false
  else if hardLimitKeyMaxBytes < s.keyMaxBytes then false
  else if s.readMaxBytes < s.lineMaxBytes then false
  else if ¬ isStateSilentMaxMsValid s.statSilentMaxMs then false
  else if hardLimitZookeeperUploadInterval < s.zookeeperUploadInterval then false
  else true

/-- `message_max_bytes` as `Manager::initKafkaConf` sets it, a `long long`. -/
def messageMaxBytes (s : Settings) : Int64 := (s.lineMaxBytes + s.keyMaxBytes).toInt64

variable {s : Settings}

/-- What the checks leave of the sizes. -/
theorem sizes_of_init (h : s.init = true) :
    s.lineMaxBytes.toNat ≤ 2 ^ 30 ∧ s.readMaxBytes.toNat ≤ 2 ^ 30 ∧ s.keyMaxBytes.toNat ≤ 10240 ∧
      s.lineMaxBytes.toNat ≤ s.readMaxBytes.toNat := by
  unfold init at h
  simp only [Bool.if_false_left, Bool.and_eq_true, Bool.not_eq_true', decide_eq_false_iff_not,
    UInt64.not_lt, UInt64.le_iff_toNat_le] at h
  exact ⟨h.2.1, h.2.2.1, h.2.2.2.1, h.2.2.2.2.1⟩

/-- No sum of two sizes wraps. -/
theorem messageMaxBytes_eq (h : s.init = true) :
    s.messageMaxBytes.toInt = s.lineMaxBytes.toNat + s.keyMaxBytes.toNat := by
  obtain ⟨hline, -, hkey, -⟩ := sizes_of_init h
  have hsum : (s.lineMaxBytes + s.keyMaxBytes).toNat
      = s.lineMaxBytes.toNat + s.keyMaxBytes.toNat := by
    rw [UInt64.toNat_add, Nat.mod_eq_of_lt (by omega)]
  have hint : s.messageMaxBytes.toInt
      = ((s.lineMaxBytes + s.keyMaxBytes).toNat : ℤ).bmod (2 ^ 64) := BitVec.toInt_eq_toNat_bmod _
  rw [hint, hsum, Int.bmod_def]
  split <;> omega

/-- The sizes of a handler are those of the settings. -/
theorem ioConf_sizes (h : s.init = true) (tw : TailWatcher) :
    (tw.ioConf s.toConfig).lineMaxBytes = s.lineMaxBytes.toNat ∧
      (tw.ioConf s.toConfig).bufferMaxBytes = s.readMaxBytes.toNat := by
  obtain ⟨hline, hread, -, -⟩ := sizes_of_init h
  constructor
  · show s.lineMaxBytes.toUInt32.toNat = _
    rw [UInt64.toNat_toUInt32, Nat.mod_eq_of_lt (by omega)]
  · show s.readMaxBytes.toUInt32.toNat = _
    rw [UInt64.toNat_toUInt32, Nat.mod_eq_of_lt (by omega)]

end Settings

/-! ## Lines -/

namespace IOHandler

variable {c : Conf} {f : LogFile} {h : IOHandler}

/-- Every line is within the limit, and a scanned rest will be. -/
structure Limited (c : Conf) (h : IOHandler) : Prop where
  fits : ∀ l ∈ h.lines, l.text.length ≤ c.lineMaxBytes
  uncut : h.bufferLastSegment = true → c.Uncut h.buffer
  batch : h.lines.length ≤ c.maxLineAtOnce

theorem length_strip_le (c : Conf) (fr : List Byte) : (strip c fr).length ≤ fr.length := by
  unfold strip
  split
  · simp
  · exact Nat.le_refl _

theorem fits_layout {pos : ℕ} {frs : List (List Byte)} {n : ℕ} (hfrs : ∀ fr ∈ frs, fr.length ≤ n) :
    ∀ l ∈ layout c pos frs, l.text.length ≤ n := by
  intro l hl
  have htext : l.text ∈ frs.map (strip c) := layout_text c pos frs ▸ List.mem_map_of_mem hl
  obtain ⟨fr, hfr, heq⟩ := List.mem_map.mp htext
  rw [← heq]
  exact Nat.le_trans (length_strip_le c fr) (hfrs fr hfr)

theorem scanBuffer_lastSegment (now : ℤ) :
    (scanBuffer c now h).1.bufferLastSegment = true →
      h.buffer = [] ∨ (scanBuffer c now h).2 = false := by
  unfold scanBuffer
  split
  · next hb => exact fun _ => Or.inl hb
  · intro hseg
    exact Or.inr (by simpa using hseg)

/-- The scan makes it so, whatever bytes were added. -/
theorem limited_scanBuffer (hlimit : 1 ≤ c.lineMaxBytes)
    (hfits : ∀ l ∈ h.lines, l.text.length ≤ c.lineMaxBytes)
    (hbatch : h.lines.length ≤ c.maxLineAtOnce) (now : ℤ) :
    Limited c (scanBuffer c now h).1 := by
  obtain ⟨frames, hsp⟩ := scanBuffer_spec c now h
  refine ⟨fun l hmem => ?_, fun hseg => ?_, hsp.bound hbatch⟩
  · rw [hsp.lines_eq] at hmem
    rcases List.mem_append.mp hmem with hmem | hmem
    · exact hfits l hmem
    · have hframe : ∀ fr ∈ (c.cuts [] h.buffer).1, fr.length ≤ c.lineMaxBytes :=
        Framing.length_le_of_mem_cuts hlimit h.buffer [] (Or.inl rfl)
      refine fits_layout (fun fr hfr => hframe fr ?_) l hmem
      rw [hsp.cuts_eq]
      exact List.mem_append_left _ hfr
  · rcases scanBuffer_lastSegment now hseg with hnil | hbroke
    · rw [scanBuffer, if_pos hnil]
      show c.Uncut h.buffer
      rw [hnil]
      exact Framing.uncut_nil
    · exact hsp.scanned hbroke

theorem mem_of_mem_pick {v : Verdict} {l : Line} :
    ∀ {ls : List Line} {vs : List Verdict}, l ∈ pick v ls vs → l ∈ ls
  | [], _, h => by simp [pick] at h
  | _ :: _, [], h => by simp [pick] at h
  | l' :: ls, w :: vs, h => by
      unfold pick at h
      split at h
      · rcases List.mem_cons.mp h with rfl | h
        · exact List.mem_cons_self
        · exact List.mem_cons_of_mem _ (mem_of_mem_pick h)
      · exact List.mem_cons_of_mem _ (mem_of_mem_pick h)

theorem length_pick_le (v : Verdict) :
    ∀ (ls : List Line) (vs : List Verdict), (pick v ls vs).length ≤ ls.length
  | [], _ => by simp [pick]
  | _ :: _, [] => by simp [pick]
  | l :: ls, w :: vs => by
      have ih := length_pick_le v ls vs
      unfold pick
      split
      · simpa using ih
      · simp only [List.length_cons]
        omega

/-- An answer adds no line to the batch. -/
theorem length_afterReceive_le (ok : Bool) (vs : List Verdict) (now : ℤ) :
    (IOHandler.afterReceive ok vs now h).lines.length ≤ h.lines.length := by
  show (if ok then pick .unsent h.lines vs else h.lines).length ≤ _
  split
  · exact length_pick_le _ _ _
  · exact Nat.le_refl _

theorem Limited.afterReceive (hl : Limited c h) (ok : Bool) (vs : List Verdict) (now : ℤ) :
    Limited c (afterReceive ok vs now h) := by
  refine ⟨fun l hmem => ?_, hl.uncut, Nat.le_trans (length_afterReceive_le ok vs now) hl.batch⟩
  have hmem : l ∈ if ok then pick .unsent h.lines vs else h.lines := hmem
  split at hmem
  · exact hl.fits l (mem_of_mem_pick hmem)
  · exact hl.fits l hmem

/-- The flush takes a scanned rest, which is below the limit. -/
theorem Limited.enter (hl : Limited c h) (now : ℤ) : Limited c (enter c now h).2 := by
  rw [enter_handler]
  split
  · rcases handleUncleaned_cases c now h with ⟨-, heq⟩ | ⟨hb, hroom, hseg, heq⟩ | ⟨-, heq⟩ <;>
      rw [heq]
    · exact hl
    · refine ⟨fun l hmem => ?_, fun _ => Framing.uncut_nil, ?_⟩
      · rcases List.mem_append.mp hmem with hmem | hmem
        · exact hl.fits l hmem
        · obtain rfl := List.mem_singleton.mp hmem
          have hlt := ((Framing.uncut_spec (hl.uncut hseg)).2).resolve_left hb
          exact Nat.le_of_lt hlt
      · rw [List.length_append, List.length_singleton]
        omega
    · exact ⟨hl.fits, hl.uncut, hl.batch⟩
  · exact hl

theorem Limited.step (hlimit : 1 ≤ c.lineMaxBytes) {e : Event} {r r' : Control × IOHandler}
    (hl : Limited c r.2) (hs : Step c f e r r') : Limited c r'.2 := by
  have hread : ∀ {h : IOHandler} (visible n : ℕ) (failed : Bool) (now : ℤ), Limited c h →
      Limited c (scanBuffer c now (afterFread f visible n failed h)).1 :=
    fun visible n failed now hl =>
      limited_scanBuffer (h := afterFread f visible n failed _) hlimit hl.fits hl.batch now
  cases hs with
  | resend _ => exact hl.afterReceive _ _ _
  | send _ => exact hl.afterReceive _ _ _
  | readNothing _ =>
      rw [leaveReads_handler]
      exact hread _ _ _ _ hl
  | readFull _ _ _ =>
      rw [leaveReads_handler]
      exact hread _ _ _ _ hl
  | readOn _ _ _ => exact hread _ _ _ _ hl

theorem limited_tick (hlimit : 1 ≤ c.lineMaxBytes) (a : Tick) (s s' : Session)
    (hl : Limited c s.handler) (hs : tick c f a s = some s') : Limited c s'.handler := by
  cases a with
  | notify now =>
      obtain ⟨-, -, rfl⟩ := tick_notify hs
      exact hl.enter now
  | answer e =>
      obtain ⟨-, hstep, -⟩ := tick_answer hs
      exact hl.step hlimit hstep

theorem limited_init (c : Conf) (start stored : ℕ) (now : ℤ) :
    Limited c (init start stored now) where
  fits l hl := by cases hl
  uncut hseg := by cases hseg
  batch := Nat.zero_le _

/-- After any calls of a handler every line of `m_lines` is within the limit. -/
theorem limited_run (hlimit : 1 ≤ c.lineMaxBytes) {start stored : ℕ} {now : ℤ} {as : List Tick}
    {t : Session} (hr : run (tick c f) as (Session.init start stored now) = some t) :
    Limited c t.handler :=
  run_inv (I := fun s => Limited c s.handler) (fun a s s' => limited_tick hlimit a s s') as _ t
    (limited_init c start stored now) hr

/-! ## A line as long as it may be

For the other direction: a file for which the limit is met exactly.
-/

/-- A file of one line, as long as the limit allows, without a delimiter. -/
def longLine (c : Conf) : LogFile where
  content := List.replicate c.lineMaxBytes (c.lineDelimiter + 1)
  length_lt := by
    rw [List.length_replicate]
    exact Nat.lt_trans c.lineMaxBytes_lt (by decide)

theorem ne_succ (b : Byte) : b + 1 ≠ b := by
  intro h
  have h := congrArg UInt8.toNat h
  rw [UInt8.toNat_add] at h
  have hlt := b.toNat_lt
  have h1 : (1 : Byte).toNat = 1 := rfl
  omega

/-- The step at an `fread` that returned bytes. -/
theorem exists_step_fread {visible n : ℕ} {failed : Bool} (readMore : Bool) (now : ℤ)
    (hok : FreadOk c f h visible n failed) (hn : n ≠ 0) :
    ∃ control, step c f (.fread visible n failed now) (.read readMore, h)
      = some (control, (scanBuffer c now (afterFread f visible n failed h)).1) := by
  simp only [step, if_pos hok, if_neg hn]
  split
  · exact ⟨_, congrArg some (Prod.ext rfl (leaveReads_handler _ _))⟩
  · exact ⟨_, rfl⟩

/-- Bytes that are one frame, scanned into a batch with room for it. -/
theorem scanned_one_frame {fr : List Byte} (now : ℤ) (hroom : h.lines.length < c.maxLineAtOnce)
    (hcuts : c.cuts [] h.buffer = ([fr], [])) :
    (scanBuffer c now h).1.lines = h.lines ++ [⟨h.cutPos, strip c fr⟩] ∧
      (scanBuffer c now h).1.buffer = [] := by
  obtain ⟨frames, hsp⟩ := scanBuffer_spec c now h
  have hsplit := hsp.cuts_eq
  rw [hcuts] at hsplit
  obtain ⟨hframes, hrest⟩ := Prod.ext_iff.mp hsplit
  rw [hsp.lines_eq]
  cases frames with
  | cons fr' frames =>
      simp only [List.cons_append, List.cons.injEq, List.nil_eq, List.append_eq_nil_iff] at hframes
      obtain ⟨rfl, rfl, hnone⟩ := hframes
      have hleft : _ ++ _ = [] ++ (scanBuffer c now h).1.buffer :=
        @Framing.flatten_cuts Byte (fun b => b = c.lineDelimiter) c.lineMaxBytes [] _
      rw [hnone, ← hrest] at hleft
      exact ⟨rfl, hleft.symm⟩
  | nil =>
      -- the scan did not stop before the frame
      cases hbr : (scanBuffer c now h).2 with
      | false =>
          have hu : c.cuts [] (scanBuffer c now h).1.buffer = ([], _) := hsp.scanned hbr
          rw [hu] at hframes
          cases hframes
      | true =>
          have hfull := hsp.full hbr
          rw [hsp.lines_eq] at hfull
          simp only [layout, List.append_nil] at hfull
          exact absurd hfull (Nat.not_le.mpr hroom)

/-- One `fread` of the file brings the line into `m_lines`. -/
theorem exists_long_line (hlimit : 1 ≤ c.lineMaxBytes) (hbuffer : c.lineMaxBytes ≤ c.bufferMaxBytes)
    (hbatch : 1 ≤ c.maxLineAtOnce) :
    ∃ as t, run (tick c (longLine c)) as (Session.init 0 0 0) = some t ∧
      ∃ l ∈ t.handler.lines, l.text.length = c.lineMaxBytes := by
  have hlen : (longLine c).content.length = c.lineMaxBytes := List.length_replicate
  have hok : FreadOk c (longLine c) (init 0 0 0) c.lineMaxBytes c.lineMaxBytes false := by
    have hlt := c.bufferMaxBytes_lt
    refine ⟨Nat.le_of_eq hlen.symm, ?_, fun _ => ?_, fun h0 => absurd h0 (by omega)⟩
    · show c.lineMaxBytes ≤ (c.bufferMaxBytes + 2 ^ 64 - 0) % 2 ^ 64
      rw [Nat.sub_zero, Nat.add_mod_right, Nat.mod_eq_of_lt (by omega)]
      exact hbuffer
    · show 0 + c.lineMaxBytes ≤ c.lineMaxBytes
      omega
  have hcuts : c.cuts [] (afterFread (longLine c) c.lineMaxBytes c.lineMaxBytes false
      (init 0 0 0)).buffer = ([(longLine c).content], []) := by
    have hbuf : (afterFread (longLine c) c.lineMaxBytes c.lineMaxBytes false (init 0 0 0)).buffer
        = (longLine c).content := by
      show [] ++ ((longLine c).content.drop 0).take c.lineMaxBytes = _
      rw [List.nil_append, List.drop_zero, List.take_of_length_le (Nat.le_of_eq hlen)]
    rw [hbuf]
    exact @Framing.cuts_replicate Byte (fun b => b = c.lineDelimiter) (c.lineDelimiter + 1)
      (decide_eq_false (ne_succ c.lineDelimiter)) c.lineMaxBytes hlimit
  obtain ⟨control, hstep⟩ := exists_step_fread false 0 hok (by omega)
  have hclock : (⟨.read false, init 0 0 0, 0, false, none⟩ : Session).clock
      ≤ (Event.fread c.lineMaxBytes c.lineMaxBytes false 0).now := Int.le_refl 0
  obtain ⟨t, htick, -, hhandler, -⟩ := exists_tick_answer hclock hstep
  refine ⟨[.notify 0, .answer (.fread c.lineMaxBytes c.lineMaxBytes false 0)], t,
    run_cons_eq_some.mpr ⟨_, rfl, run_cons_eq_some.mpr ⟨_, htick, rfl⟩⟩, ?_⟩
  obtain ⟨hlines, -⟩ := @scanned_one_frame c
    (afterFread (longLine c) c.lineMaxBytes c.lineMaxBytes false (init 0 0 0)) _ 0 hbatch hcuts
  rw [hhandler, hlines]
  refine ⟨_, List.mem_singleton_self _, ?_⟩
  -- the last byte is not the delimiter, so nothing is removed
  show (strip c (longLine c).content).length = c.lineMaxBytes
  unfold strip
  rw [if_neg ?_, hlen]
  rintro ⟨-, hlast⟩
  have hmem := List.mem_of_getLast? hlast
  exact ne_succ c.lineDelimiter (List.eq_of_mem_replicate hmem).symm

/-- A batch of no lines stays empty. -/
theorem lines_eq_nil (hl : Limited c h) (hbatch : c.maxLineAtOnce = 0) : h.lines = [] :=
  List.length_eq_zero_iff.mp (Nat.le_zero.mp (hbatch ▸ hl.batch))

end IOHandler

/-! ## Messages -/

open IOHandler

/-- Every line is within `line_max_bytes`, and with the key of the task within
`message.max.bytes`. -/
def MessageFits (s : Settings) (tw : TailWatcher) (l : Line) : Prop :=
  l.text.length ≤ s.lineMaxBytes.toNat ∧
    (l.text.length : ℤ) + tw.conf.kafkaTopicConf.key.length ≤ s.messageMaxBytes.toInt

/-- **When every message fits.**  Under settings that `Config::init` accepts:
every line that any calls of a handler of the task push into `m_lines` is within
the limit of lines, and with the key within that of messages, if and only if the
key is within its limit or the batch size of the task is zero. -/
theorem messages_fit_iff {s : Settings} (hs : s.init = true) (hline : 1 ≤ s.lineMaxBytes.toNat)
    (tw : TailWatcher) :
    (∀ (f : LogFile) (start stored : ℕ) (now : ℤ) (as : List Tick) (t : Session),
        run (tick (tw.ioConf s.toConfig) f) as (Session.init start stored now) = some t →
          ∀ l ∈ t.handler.lines, MessageFits s tw l) ↔
      tw.conf.kafkaTopicConf.key.length ≤ s.keyMaxBytes.toNat ∨
        tw.conf.logConf.batchsize.toUInt32 = 0 := by
  obtain ⟨hlineMax, hbufferMax⟩ := Settings.ioConf_sizes hs tw
  have hsum := Settings.messageMaxBytes_eq hs
  have hlimit : 1 ≤ (tw.ioConf s.toConfig).lineMaxBytes := hlineMax.symm ▸ hline
  have hbatch : (tw.ioConf s.toConfig).maxLineAtOnce = 0 ↔
      tw.conf.logConf.batchsize.toUInt32 = 0 := by
    rw [← UInt32.toNat_inj]
    exact Iff.rfl
  constructor
  · intro hall
    by_contra hnot
    obtain ⟨hkey, hsome⟩ := not_or.mp hnot
    have hbuffer : (tw.ioConf s.toConfig).lineMaxBytes ≤ (tw.ioConf s.toConfig).bufferMaxBytes := by
      rw [hlineMax, hbufferMax]
      exact (Settings.sizes_of_init hs).2.2.2
    obtain ⟨as, t, hrun, l, hl, hlen⟩ := exists_long_line hlimit hbuffer
      (Nat.one_le_iff_ne_zero.mpr (hbatch.not.mpr hsome))
    have hfits := (hall _ _ _ _ as t hrun l hl).2
    rw [hlen, hsum, hlineMax] at hfits
    omega
  · intro hor f start stored now as t hrun l hl
    have hlim := limited_run hlimit hrun
    have hfits := hlim.fits l hl
    rw [hlineMax] at hfits
    refine ⟨hfits, ?_⟩
    rcases hor with hkey | hnone
    · rw [hsum]
      omega
    · rw [lines_eq_nil hlim (hbatch.mpr hnone)] at hl
      cases hl

/-- Lines of four bytes at most, keys of one. -/
def shortSettings : Settings where
  statSilentMaxMs := 10000
  lineMaxBytes := 4
  readMaxBytes := 8
  pathQueueMaxSize := 100
  logkafkaId := [105]
  keyMaxBytes := 1
  zookeeperUploadInterval := 10000

/-- A watcher whose messages have the key `key`, in batches of two. -/
def keyed (key : Str) : TailWatcher :=
  TailWatcher.init [97] [97] ⟨⟨[97], [97]⟩, 0⟩
    { valid := true
      logConf := ⟨[97], true, 2, false, 10, true⟩
      kafkaTopicConf := ⟨[], [116], [], 1, key, -1, 0⟩
      filterConf := ⟨[]⟩ }

/-- Four bytes without a newline. -/
def fourBytes : LogFile := ⟨[98, 98, 98, 98], by decide⟩

theorem messages_fit_iff_short :
    ∃ t, run (tick ((keyed [107]).ioConf shortSettings.toConfig) fourBytes)
        [.notify 0, .answer (.fread 4 4 false 0)] (Session.init 0 0 0) = some t ∧
      t.handler.lines ≠ [] ∧ ∀ l ∈ t.handler.lines, MessageFits shortSettings (keyed [107]) l :=
  have hr : run (tick ((keyed [107]).ioConf shortSettings.toConfig) fourBytes)
      [.notify 0, .answer (.fread 4 4 false 0)] (Session.init 0 0 0) = some _ := rfl
  ⟨_, hr, by decide, (messages_fit_iff (s := shortSettings) (by decide) (by decide)
    (keyed [107])).mpr (Or.inl (by decide)) _ _ _ _ _ _ hr⟩

/-- A key of two bytes where one is allowed: a line of four makes six. -/
theorem messages_fit_fails :
    ¬ ∀ (s : Settings) (tw : TailWatcher) (f : LogFile) (start stored : ℕ) (now : ℤ)
      (as : List Tick) (t : Session), s.init = true → 1 ≤ s.lineMaxBytes.toNat →
        tw.conf.isLegal = true →
        run (tick (tw.ioConf s.toConfig) f) as (Session.init start stored now) = some t →
          ∀ l ∈ t.handler.lines, MessageFits s tw l := by
  intro hall
  have hfits := hall shortSettings (keyed [107, 107]) fourBytes 0 0 0
    [.notify 0, .answer (.fread 4 4 false 0)] _ (by decide) (by decide) (by decide) rfl
    ⟨0, [98, 98, 98, 98]⟩ (by decide)
  exact absurd hfits.2 (by decide)

end Logkafka
