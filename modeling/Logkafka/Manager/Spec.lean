/-
# `Logkafka.Manager.Spec` — what the calls on one watcher do

A call on a watcher `tw` of the pattern `P` changes that watcher and entries of
`P`, and nothing else: `Local tw P s s'`.  Of the watcher it may change the
readers and the flags, but not what it watches: `Kept t t'`.

For each function there is one rule `wp_f`: from the facts about `tw` and with
the locks it takes free, it returns with these two relations and what it
establishes (a stopped watcher, a closed reader), or it stops as `E` admits.
That an entry is gone is asked for only where the function reads or writes it,
so a caller that knows the entry alive has no crash to admit but that of
foreign answers.
-/
import Logkafka.Manager.Main

namespace Logkafka

open Manager PositionFile Prog

variable {cfg : Config} {env : Env} {E : Fault Mutex Crash → Prop} {L : List Mutex}
  {P : Str} {tw : WatcherId} {t t' t'' : TailWatcher} {s s' s'' : Manager} {ps ps' : List Str}
  {conf : TaskConf}

/-- Every entry in the map is alive and has the key it is found by. -/
def Manager.EntriesOk (s : Manager) : Prop :=
  ∀ pek pe, s.peMap.find? pek = some pe → pe.key = pek ∧ (s.slots pe).isSome

/-- Only the watcher `tw` and entries of `P` are changed. -/
structure Local (tw : WatcherId) (P : Str) (s s' : Manager) : Prop where
  tasks : s'.tasks = s.tasks
  taskConfs : s'.taskConfs = s.taskConfs
  tails : s'.tails = s.tails
  tailsDeleted : s'.tailsDeleted = s.tailsDeleted
  nextWatcher : s'.nextWatcher = s.nextWatcher
  removed : s'.removed = s.removed
  producers : s'.producers = s.producers
  others : ∀ v, v ≠ tw → s'.watchers v = s.watchers v
  slots : ∀ pe, pe.key.pathPattern ≠ P → s'.slots pe = s.slots pe
  alive : ∀ pe, (s.slots pe).isSome → (s'.slots pe).isSome
  entries : s.EntriesOk → s'.EntriesOk

theorem Local.refl : Local tw P s s :=
  ⟨rfl, rfl, rfl, rfl, rfl, rfl, rfl, fun _ _ => rfl, fun _ _ => rfl, fun _ h => h, fun h => h⟩

theorem Local.trans (h : Local tw P s s') (h' : Local tw P s' s'') : Local tw P s s'' where
  tasks := h'.tasks.trans h.tasks
  taskConfs := h'.taskConfs.trans h.taskConfs
  tails := h'.tails.trans h.tails
  tailsDeleted := h'.tailsDeleted.trans h.tailsDeleted
  nextWatcher := h'.nextWatcher.trans h.nextWatcher
  removed := h'.removed.trans h.removed
  producers := h'.producers.trans h.producers
  others v hv := (h'.others v hv).trans (h.others v hv)
  slots pe hpe := (h'.slots pe hpe).trans (h.slots pe hpe)
  alive pe hpe := h'.alive pe (h.alive pe hpe)
  entries hs := h'.entries (h.entries hs)

/-- The two watch the same, for the same settings. -/
structure Kept (t t' : TailWatcher) : Prop where
  pathPattern : t'.pathPattern = t.pathPattern
  path : t'.path = t.path
  conf : t'.conf = t.conf
  positionEntry : t'.positionEntry = t.positionEntry

theorem Kept.refl : Kept t t := ⟨rfl, rfl, rfl, rfl⟩

theorem Kept.trans (h : Kept t t') (h' : Kept t' t'') : Kept t t'' :=
  ⟨h'.1.trans h.1, h'.2.trans h.2, h'.3.trans h.3, h'.4.trans h.4⟩

/-- It has no reader on an open file. -/
def TailWatcher.Closed (t : TailWatcher) : Prop :=
  ∀ r, t.reader = some r → r.handler.fileOpen = false

/-! ## Objects -/

theorem wp_getWatcher {Q : TailWatcher → Manager → Prop} (hw : s.watchers tw = some t) :
    wp (getWatcher tw) Q E L s ↔ Q t s := by
  simp [getWatcher, hw]

theorem wp_getWatcher_of {Q : TailWatcher → Manager → Prop} (hE : E (.crash .dangling))
    (h : ∀ t, s.watchers tw = some t → Q t s) : wp (getWatcher tw) Q E L s := by
  cases hw : s.watchers tw with
  | some t => exact (wp_getWatcher hw).mpr (h t hw)
  | none => simpa [getWatcher, hw] using hE

@[simp] theorem wp_setWatcher {Q : Unit → Manager → Prop} :
    wp (setWatcher tw t) Q E L s
      ↔ Q () { s with watchers := Function.update s.watchers tw (some t) } := Iff.rfl

theorem wp_modifyWatcher {Q : Unit → Manager → Prop} {f : TailWatcher → TailWatcher}
    (hw : s.watchers tw = some t) :
    wp (modifyWatcher tw f) Q E L s
      ↔ Q () { s with watchers := Function.update s.watchers tw (some (f t)) } := by
  unfold modifyWatcher
  rw [wp_bind, wp_getWatcher hw]
  rfl

theorem wp_getSlot {Q : Slot → Manager → Prop} {pe : EntryId}
    (hE : s.slots pe = none → E (.crash .dangling))
    (h : ∀ slot, s.slots pe = some slot → Q slot s) : wp (getSlot pe) Q E L s := by
  cases hs : s.slots pe with
  | some slot => simpa [getSlot, hs] using h slot hs
  | none => simpa [getSlot, hs] using hE hs

theorem wp_setSlot {Q : Unit → Manager → Prop} {pe : EntryId} {slot : Slot}
    (hE : s.slots pe = none → E (.crash .dangling))
    (h : (s.slots pe).isSome →
      Q () { s with slots := Function.update s.slots pe (some slot) }) :
    wp (setSlot pe slot) Q E L s := by
  unfold setSlot
  rw [wp_bind]
  refine wp_getSlot hE fun slot' hs => ?_
  exact h (by rw [hs]; rfl)

theorem wp_modifySlot {Q : Unit → Manager → Prop} {pe : EntryId} {f : Slot → Slot}
    (hE : s.slots pe = none → E (.crash .dangling))
    (h : ∀ slot, Q () { s with slots := Function.update s.slots pe (some slot) }) :
    wp (modifySlot pe f) Q E L s := by
  unfold modifySlot
  rw [wp_bind]
  refine wp_getSlot hE fun slot hs => ?_
  exact wp_setSlot hE fun _ => h _

/-! ## One watcher, one entry -/

theorem Local.setWatcher :
    Local tw P s { s with watchers := Function.update s.watchers tw (some t) } where
  tasks := rfl
  taskConfs := rfl
  tails := rfl
  tailsDeleted := rfl
  nextWatcher := rfl
  removed := rfl
  producers := rfl
  others _ hv := Function.update_of_ne hv _ _
  slots _ _ := rfl
  alive _ h := h
  entries h := h

theorem isSome_update_slots {slots : EntryId → Option Slot} {pe pe' : EntryId} {slot : Slot}
    (h : (slots pe').isSome) : (Function.update slots pe (some slot) pe').isSome := by
  by_cases hpe : pe' = pe
  · subst hpe
    simp
  · rwa [Function.update_of_ne hpe]

theorem Local.setSlot {pe : EntryId} {slot : Slot} (hP : pe.key.pathPattern = P) :
    Local tw P s { s with slots := Function.update s.slots pe (some slot) } where
  tasks := rfl
  taskConfs := rfl
  tails := rfl
  tailsDeleted := rfl
  nextWatcher := rfl
  removed := rfl
  producers := rfl
  others _ _ := rfl
  slots pe' hpe' := by
    refine Function.update_of_ne ?_ _ _
    rintro rfl
    exact hpe' hP
  alive _ h := isSome_update_slots h
  entries h pek pe' hpe' := ⟨(h pek pe' hpe').1, isSome_update_slots (h pek pe' hpe').2⟩

theorem Local.newEntry {pek : PositionEntryKey} (hP : pek.pathPattern = P) :
    Local tw P s { s with
      nextSerial := s.nextSerial + 1
      peMap := s.peMap.insert pek ⟨pek, s.nextSerial⟩
      slots := Function.update s.slots ⟨pek, s.nextSerial⟩ (some ⟨0, 0⟩) } where
  tasks := rfl
  taskConfs := rfl
  tails := rfl
  tailsDeleted := rfl
  nextWatcher := rfl
  removed := rfl
  producers := rfl
  others _ _ := rfl
  slots pe' hpe' := by
    refine Function.update_of_ne ?_ _ _
    rintro rfl
    exact hpe' hP
  alive _ h := isSome_update_slots h
  entries h pek' pe' hpe' := by
    have hpe' : (s.peMap.insert pek ⟨pek, s.nextSerial⟩).find? pek' = some pe' := hpe'
    rw [OrdMap.find?_insert] at hpe'
    split at hpe'
    · next heq =>
        cases hpe'
        exact ⟨heq.symm, by simp⟩
    · exact ⟨(h pek' pe' hpe').1, isSome_update_slots (h pek' pe' hpe').2⟩

/-- `operator[]` gives an entry of the key, which is alive if the map is in order. -/
theorem wp_getEntry {Q : EntryId → Manager → Prop} {pek : PositionEntryKey}
    (h : ∀ pe s', (∀ tw, Local tw pek.pathPattern s s') → s'.watchers = s.watchers →
      (s.EntriesOk → pe.key = pek ∧ (s'.slots pe).isSome) → Q pe s') :
    wp (getEntry pek) Q E L s := by
  simp only [getEntry, wp_bind, wp_get]
  cases hpe : s.peMap.find? pek with
  | some pe => exact h pe s (fun _ => Local.refl) rfl fun hs => hs pek pe hpe
  | none =>
      simp only [wp_bind, wp_modify, wp_pure]
      exact h _ _ (fun _ => Local.newEntry rfl) rfl fun _ => ⟨rfl, by simp⟩

/-! ## The IO handler -/

theorem wp_lockFile {Q : Unit → Manager → Prop}
    (hfile : .file tw ∈ L → E (.selfDeadlock (.file tw))) (h : Q () s) :
    ∀ es : List IOHandler.Event, wp (TailWatcher.lockFile tw es) Q E L s
  | [] => h
  | .fread _ _ _ _ :: es => by
      unfold TailWatcher.lockFile
      rw [wp_bind]
      exact wp_scopedLock_of hfile (wp_lockFile hfile h es)
  | .receive ok _ _ :: es => by
      unfold TailWatcher.lockFile
      simp only [wp_bind, wp_ite]
      split
      · exact wp_scopedLock_of hfile (wp_lockFile hfile h es)
      · exact wp_lockFile hfile h es

/-- Handing lines on changes only the reader. -/
theorem Kept.of_notifyIo {f : LogFile} {now : ℤ} {es : List IOHandler.Event} {slot slot' : Slot}
    (h : t.notifyIo cfg f now es slot = some (t', slot')) :
    Kept t t' ∧ t'.running = t.running ∧ t'.unwatched = t.unwatched := by
  unfold TailWatcher.notifyIo at h
  split at h
  · cases h
    exact ⟨Kept.refl, rfl, rfl⟩
  · obtain ⟨r, -, hr⟩ := Option.map_eq_some_iff.mp h
    cases hr
    exact ⟨⟨rfl, rfl, rfl, rfl⟩, rfl, rfl⟩

/-- A call of `IOHandler::onNotify` writes the watcher, and its entry if a batch was
received; or nothing, where there is no handler. -/
theorem wp_notifyIoHandler_of {io : Io} {Q : Unit → Manager → Prop}
    (hfile : .file tw ∈ L → E (.selfDeadlock (.file tw))) (hu : E (.crash .unanswered))
    (hgone : s.watchers tw = none → E (.crash .dangling))
    (hd : ∀ t, s.watchers tw = some t → s.slots t.positionEntry = none → E (.crash .dangling))
    (hsame : ∀ t, s.watchers tw = some t → Q () s)
    (hread : ∀ t t' slot slot', s.watchers tw = some t →
      t.notifyIo cfg io.file io.now io.events slot = some (t', slot') →
        Q () { s with watchers := Function.update s.watchers tw (some t') } ∧
        (s.slots t.positionEntry = some slot → Q () { s with
          watchers := Function.update s.watchers tw (some t')
          slots := Function.update s.slots t.positionEntry (some slot') })) :
    wp (TailWatcher.notifyIoHandler cfg io tw) Q E L s := by
  unfold TailWatcher.notifyIoHandler
  rw [wp_bind]
  cases hw : s.watchers tw with
  | none => exact wp_getWatcher_of (hgone hw) fun t ht => absurd (hw.symm.trans ht) (by simp)
  | some t =>
      rw [wp_getWatcher hw, wp_ite]
      split
      · rw [wp_bind]
        refine wp_lockFile hfile ?_ _
        simp only [wp_bind, wp_get]
        split
        · next t' slot' heq =>
            obtain ⟨hunread, hreceived⟩ := hread t t' _ slot' hw heq
            simp only [wp_bind, wp_setWatcher, wp_ite]
            split
            · refine wp_setSlot (hd t hw) fun halive => hreceived ?_
              obtain ⟨slot, hslot⟩ := Option.isSome_iff_exists.mp halive
              rw [hslot]
              rfl
            · exact hunread
        · exact hu
      · exact hsame t hw

theorem wp_notifyIoHandler {io : Io} {Q : Unit → Manager → Prop} (hw : s.watchers tw = some t)
    (hP : t.positionEntry.key.pathPattern = P) (hfile : .file tw ∉ L)
    (hu : E (.crash .unanswered)) (hd : s.slots t.positionEntry = none → E (.crash .dangling))
    (h : ∀ s' t', Local tw P s s' → s'.watchers tw = some t' → Kept t t' →
      t'.running = t.running → t'.unwatched = t.unwatched → Q () s') :
    wp (TailWatcher.notifyIoHandler cfg io tw) Q E L s := by
  refine wp_notifyIoHandler_of (fun hmem => absurd hmem hfile) hu ?_ ?_ ?_ ?_
  · intro hnone
    cases hw.symm.trans hnone
  · intro t₁ hw₁ hnone
    cases hw.symm.trans hw₁
    exact hd hnone
  · intro t₁ _
    exact h s t Local.refl hw Kept.refl rfl rfl
  · intro t₁ t' slot slot' hw₁ heq
    cases hw.symm.trans hw₁
    obtain ⟨hk, hrun, hun⟩ := Kept.of_notifyIo heq
    refine ⟨h _ t' Local.setWatcher (by simp) hk hrun hun, fun _ => ?_⟩
    exact h _ t' (Local.setWatcher.trans (Local.setSlot hP)) (by simp) hk hrun hun

theorem wp_closeIoHandler {Q : Unit → Manager → Prop} (hw : s.watchers tw = some t)
    (hfile : .file tw ∉ L)
    (h : ∀ s' t', Local tw P s s' → s'.watchers tw = some t' → Kept t t' →
      t'.running = t.running → t'.unwatched = t.unwatched → t'.Closed → Q () s') :
    wp (TailWatcher.closeIoHandler tw) Q E L s := by
  unfold TailWatcher.closeIoHandler
  rw [wp_bind, wp_getWatcher hw, wp_ite]
  cases hr : t.reader with
  | some r =>
      rw [if_pos Option.isSome_some, wp_scopedLock hfile, wp_setWatcher]
      refine h _ t.closeIo Local.setWatcher (by simp) ⟨rfl, rfl, rfl, rfl⟩ rfl rfl ?_
      intro r' hr'
      rw [TailWatcher.closeIo, hr] at hr'
      cases hr'
      rfl
  | none =>
      rw [if_neg (by simp)]
      refine h s t Local.refl hw Kept.refl rfl rfl ?_
      intro r' hr'
      rw [hr] at hr'
      cases hr'

theorem wp_stop {closeIo : Bool} {Q : Unit → Manager → Prop} (hw : s.watchers tw = some t)
    (hP : t.positionEntry.key.pathPattern = P) (hio : .ioHandler tw ∉ L) (hfile : .file tw ∉ L)
    (hu : E (.crash .unanswered)) (hd : s.slots t.positionEntry = none → E (.crash .dangling))
    (h : ∀ s' t', Local tw P s s' → s'.watchers tw = some t' → Kept t t' → t'.running = false →
      t'.unwatched = t.unwatched → (closeIo = true → t'.Closed) → Q () s') :
    wp (TailWatcher.stop cfg env tw closeIo) Q E L s := by
  have hfile' : Mutex.file tw ∉ Mutex.ioHandler tw :: L := by simpa using hfile
  unfold TailWatcher.stop
  rw [wp_bind, wp_modifyWatcher hw, wp_scopedLock hio, wp_ite]
  have hstopped : Local tw P s { s with
      watchers := Function.update s.watchers tw (some { t with running := false }) } :=
    Local.setWatcher
  split
  · next hclose =>
      rw [wp_bind]
      refine wp_notifyIoHandler (t := { t with running := false }) (by simp) hP hfile' hu hd ?_
      intro s₁ t₁ hl₁ hw₁ hk₁ hrun₁ hun₁
      refine wp_closeIoHandler (P := P) hw₁ hfile' ?_
      intro s₂ t₂ hl₂ hw₂ hk₂ hrun₂ hun₂ hclosed
      have hk : Kept t { t with running := false } := ⟨rfl, rfl, rfl, rfl⟩
      exact h s₂ t₂ (hstopped.trans (hl₁.trans hl₂)) hw₂ (hk.trans (hk₁.trans hk₂))
        (hrun₂.trans hrun₁) (hun₂.trans hun₁) fun _ => hclosed
  · next hclose =>
      refine h _ { t with running := false } hstopped (by simp) ⟨rfl, rfl, rfl, rfl⟩ rfl rfl ?_
      intro hc
      exact absurd hc hclose

theorem wp_active {Q : Bool → Manager → Prop} (hio : .ioHandler tw ∉ L)
    (hE : s.watchers tw = none → E (.crash .dangling))
    (h : ∀ t, s.watchers tw = some t → Q (t.isActive cfg env.now) s) :
    wp (TailWatcher.active cfg env tw) Q E L s := by
  simp only [TailWatcher.active, wp_bind]
  cases hw : s.watchers tw with
  | none => exact wp_getWatcher_of (hE hw) fun t ht => absurd (hw.symm.trans ht) (by simp)
  | some t =>
      rw [wp_getWatcher hw, wp_scopedLock hio, wp_pure]
      exact h t hw

theorem wp_delete {Q : Unit → Manager → Prop} (hw : s.watchers tw = some t)
    (hrotate : .rotateHandler tw ∉ L) (hio : .ioHandler tw ∉ L) :
    wp (TailWatcher.delete tw) Q E L s
      ↔ Q () { s with watchers := Function.update s.watchers tw none } := by
  unfold TailWatcher.delete
  rw [wp_bind, wp_getWatcher hw, wp_bind, wp_scopedLock hrotate, wp_pure, wp_bind,
    wp_scopedLock hio, wp_pure, wp_modify]

/-! ## Setting up and closing

Whether a setup succeeds is a matter of the codec, of the producers there are and of
what can be made.
-/

/-- `OutputKafka::init` succeeds: the codec is known, and its producer is there
or can be made. -/
def CanProduce (env : Env) (producers : List Str) (conf : TaskConf) : Prop :=
  conf.kafkaTopicConf.compressionCodec ∈ ccMap ∧
    (conf.kafkaTopicConf.compressionCodec ∈ producers ∨
      env.producerInit conf.kafkaTopicConf.compressionCodec = true)

instance : Decidable (CanProduce env ps conf) :=
  inferInstanceAs (Decidable (_ ∧ (_ ∨ _)))

/-- `setupWatcher` succeeds: `OutputKafka::init` does, and the triggers are made. -/
def Env.SetsUp (env : Env) (producers : List Str) (conf : TaskConf) : Prop :=
  CanProduce env producers conf ∧ env.triggersInit = true

instance : Decidable (env.SetsUp ps conf) := inferInstanceAs (Decidable (_ ∧ _))

/-- No producer is lost, so what could be set up can be later. -/
theorem Env.SetsUp.mono (h : env.SetsUp ps conf) (hps : ps ⊆ ps') : env.SetsUp ps' conf :=
  ⟨⟨h.1.1, h.1.2.imp_left fun hc => hps hc⟩, h.2⟩

/-- The new watcher, and nothing else but a producer. -/
def Manager.withNew (s : Manager) (producers : List Str) (t : TailWatcher) : Manager :=
  { s with
    producers := producers
    nextWatcher := s.nextWatcher + 1
    watchers := Function.update s.watchers s.nextWatcher (some t) }

theorem wp_initProducer {codec : Str} {Q : Bool → Manager → Prop} (hbroker : .brokerUrls ∉ L)
    (hok : ∀ ps, s.producers ⊆ ps → Q true { s with producers := ps })
    (hfail : ¬ (codec ∈ ccMap ∧ (codec ∈ s.producers ∨ env.producerInit codec = true)) →
      Q false s) :
    wp (initProducer env codec) Q E L s := by
  unfold initProducer
  rw [wp_ite]
  split
  · next hcodec => exact hfail fun h => hcodec h.1
  · simp only [wp_bind, wp_get, wp_ite]
    split
    · exact hok s.producers fun _ h => h
    · next hmem =>
        rw [wp_scopedLock hbroker, wp_pure]
        split
        · exact hok _ (List.subset_cons_self _ _)
        · next hinit => exact hfail fun h => h.2.elim hmem hinit

theorem wp_setupWatcher {path : Str} {pe : EntryId} {enabled : Bool}
    {Q : Option WatcherId → Manager → Prop} (hbroker : .brokerUrls ∉ L)
    (hrotate : .rotateHandler s.nextWatcher ∉ L) (hE : E (.crash .halfInitialised))
    (hnew : ∀ ps, s.producers ⊆ ps →
      Q (some s.nextWatcher) (s.withNew ps (TailWatcher.init P path pe conf)))
    (hfail : ¬ env.SetsUp s.producers conf → Q none s) :
    wp (setupWatcher env conf P path pe enabled) Q E L s := by
  unfold setupWatcher
  rw [wp_bind]
  refine wp_initProducer hbroker (fun ps hps => ?_) fun h => ?_
  · rw [if_pos rfl, wp_ite]
    split
    · simp only [wp_bind, wp_get, wp_scopedLock hrotate, wp_pure, wp_modify]
      exact hnew ps hps
    · exact hE
  · rw [if_neg (by simp), wp_pure]
    exact hfail fun hup => h hup.1

theorem wp_closeWatcher {removePosEntry : Bool} {Q : Unit → Manager → Prop}
    (hw : s.watchers tw = some t) (hs : s.EntriesOk)
    (hpe : t.positionEntry.key.pathPattern = t.pathPattern)
    (hio : .ioHandler tw ∉ L) (hfile : .file tw ∉ L)
    (hu : E (.crash .unanswered)) (hd : s.slots t.positionEntry = none → E (.crash .dangling))
    (h : ∀ s' t', Local tw t.pathPattern s s' → s'.watchers tw = some t' → Kept t t' →
      t'.running = false → t'.Closed →
      wp (if removePosEntry then removeEntry ⟨t.pathPattern, t.path⟩ else pure ()) Q E L s') :
    wp (closeWatcher cfg env tw true removePosEntry) Q E L s := by
  unfold closeWatcher
  rw [wp_bind]
  refine wp_stop hw hpe hio hfile hu hd ?_
  intro s₁ t₁ hl₁ hw₁ hk₁ hrun₁ _ hclosed
  rw [wp_bind, wp_getWatcher hw₁, hk₁.pathPattern, hk₁.path, wp_ite]
  split
  · rw [wp_bind]
    refine wp_getEntry ?_
    intro pe s₂ hl₂ hw₂ hpe₂
    obtain ⟨hkey, halive⟩ := hpe₂ (hl₁.entries hs)
    rw [wp_bind]
    refine wp_modifySlot (fun hnone => ?_) fun slot => ?_
    · rw [hnone] at halive
      cases halive
    · have hl₃ : Local tw t.pathPattern s₂
          { s₂ with slots := Function.update s₂.slots pe (some slot) } :=
        Local.setSlot (by rw [hkey])
      refine h _ t₁ ((hl₁.trans (hl₂ tw)).trans hl₃) ?_ hk₁ hrun₁ (hclosed rfl)
      exact (congrFun hw₂ tw).trans hw₁
  · exact h s₁ t₁ hl₁ hw₁ hk₁ hrun₁ (hclosed rfl)

/-! ## Rotation, up to the call of the Manager

`onRotate` gives the lock of the IO handler back before it calls the Manager, so it
is in two parts.
-/

/-- The rotate handler of `t` notices another file and opens it, and the reader
is open on a file that is not the one of the entry: `onRotate` calls the
Manager. -/
def HandsOver (env : Env) (s : Manager) (t : TailWatcher) : Prop :=
  ∃ opened slot r, env.fopen t.path = some opened ∧
    t.rotateHandler.rotated (env.stat t.path) = true ∧
    s.slots t.positionEntry = some slot ∧ t.reader = some r ∧ r.handler.fileOpen = true ∧
    opened.inode ≠ slot.readInode

instance : Decidable (HandsOver env s t) :=
  decidable_of_iff (∃ opened, env.fopen t.path = some opened ∧
      t.rotateHandler.rotated (env.stat t.path) = true ∧
      ∃ slot, s.slots t.positionEntry = some slot ∧ ∃ r, t.reader = some r ∧
      r.handler.fileOpen = true ∧ opened.inode ≠ slot.readInode)
    ⟨fun ⟨opened, hopened, hrot, slot, hslot, r, hr⟩ => ⟨opened, slot, r, hopened, hrot, hslot, hr⟩,
     fun ⟨opened, slot, r, hopened, hrot, hslot, hr⟩ => ⟨opened, hopened, hrot, slot, hslot, r, hr⟩⟩

theorem onRotate_handOver {initOk : Bool} {now : ℤ} {file : File} {slot : Slot}
    (h : t.onRotate initOk now file slot = .handOver) :
    ∃ r, t.reader = some r ∧ r.handler.fileOpen = true ∧ file.stat.inode ≠ slot.readInode := by
  have hopen : ∀ file t slot, TailWatcher.openReader initOk now file t slot ≠ .handOver := by
    intro file t slot
    unfold TailWatcher.openReader
    split
    · simp
    · simp
  unfold TailWatcher.onRotate at h
  split at h
  · exact absurd h (hopen _ _ _)
  · next r hr =>
      split at h
      · exact absurd h (hopen _ _ _)
      · next hinode =>
          split at h
          · exact absurd h (hopen _ _ _)
          · next hopened => exact ⟨r, hr, by simpa using hopened, hinode⟩

theorem Kept.of_openReader {initOk ok : Bool} {now : ℤ} {file : File} {slot slot' : Slot}
    (h : TailWatcher.openReader initOk now file t slot = .returned ok t' slot') :
    Kept t t' ∧ t'.running = t.running := by
  unfold TailWatcher.openReader at h
  split at h
  · cases h
    exact ⟨⟨rfl, rfl, rfl, rfl⟩, rfl⟩
  · cases h
    exact ⟨Kept.refl, rfl⟩

theorem Kept.of_onRotate {initOk ok : Bool} {now : ℤ} {file : File} {slot slot' : Slot}
    (h : t.onRotate initOk now file slot = .returned ok t' slot') :
    Kept t t' ∧ t'.running = t.running := by
  unfold TailWatcher.onRotate at h
  split at h
  · exact Kept.of_openReader h
  · split at h
    · exact Kept.of_openReader h
    · split at h
      · exact Kept.of_openReader h
      · cases h

/-- `onRotate` under the IO handler's lock writes the watcher and its entry, or nothing, where it
is the Manager that is to be called. -/
theorem wp_rotateIo_of {file : File} {Q : Option Bool → Manager → Prop}
    (hfile : .file tw ∈ L → E (.selfDeadlock (.file tw)))
    (hgone : s.watchers tw = none → E (.crash .dangling))
    (hd : ∀ t, s.watchers tw = some t → s.slots t.positionEntry = none → E (.crash .dangling))
    (hstay : ∀ t t' slot slot' ok, s.watchers tw = some t → s.slots t.positionEntry = some slot →
      t.onRotate (env.ioInit tw) env.now file slot = .returned ok t' slot' →
        Q (some ok) { s with
          watchers := Function.update s.watchers tw (some t')
          slots := Function.update s.slots t.positionEntry (some slot') })
    (hup : ∀ t slot, s.watchers tw = some t → s.slots t.positionEntry = some slot →
      t.onRotate (env.ioInit tw) env.now file slot = .handOver → Q none s) :
    wp (TailWatcher.rotateIo env tw file) Q E L s := by
  unfold TailWatcher.rotateIo
  rw [wp_bind]
  cases hw : s.watchers tw with
  | none => exact wp_getWatcher_of (hgone hw) fun t ht => absurd (hw.symm.trans ht) (by simp)
  | some t =>
      rw [wp_getWatcher hw, wp_bind]
      refine wp_getSlot (hd t hw) fun slot hslot => ?_
      split
      · next ok t' slot' heq =>
          have hset : wp (setSlot t.positionEntry slot') (fun _ => Q (some ok)) E L
              { s with watchers := Function.update s.watchers tw (some t') } :=
            wp_setSlot (hd t hw) fun _ => hstay t t' slot slot' ok hw hslot heq
          simp only [wp_ite, wp_bind, wp_pure, wp_setWatcher]
          split
          · exact wp_scopedLock_of hfile hset
          · exact hset
      · next heq => exact hup t slot hw hslot heq

theorem wp_rotateIo {file : File} {Q : Option Bool → Manager → Prop} (hw : s.watchers tw = some t)
    (hP : t.positionEntry.key.pathPattern = P) (hfile : .file tw ∉ L)
    (hd : s.slots t.positionEntry = none → E (.crash .dangling))
    (hstay : ∀ ok s' t', Local tw P s s' → s'.watchers tw = some t' → Kept t t' →
      t'.running = t.running → Q (some ok) s')
    (hup : ∀ slot r, s.slots t.positionEntry = some slot → t.reader = some r →
      r.handler.fileOpen = true → file.stat.inode ≠ slot.readInode → Q none s) :
    wp (TailWatcher.rotateIo env tw file) Q E L s := by
  refine wp_rotateIo_of (fun hmem => absurd hmem hfile) ?_ ?_ ?_ ?_
  · intro hnone
    cases hw.symm.trans hnone
  · intro t₁ hw₁ hnone
    cases hw.symm.trans hw₁
    exact hd hnone
  · intro t₁ t' slot slot' ok hw₁ _ heq
    cases hw.symm.trans hw₁
    obtain ⟨hk, hrun⟩ := Kept.of_onRotate heq
    exact hstay ok _ t' (Local.setWatcher.trans (Local.setSlot hP)) (by simp) hk hrun
  · intro t₁ slot hw₁ hslot heq
    cases hw.symm.trans hw₁
    obtain ⟨r, hr, hopen, hinode⟩ := onRotate_handOver heq
    exact hup slot r hslot hr hopen hinode

theorem wp_notifyRotateHandler {Q : Unit → Manager → Prop} (hw : s.watchers tw = some t)
    (hP : t.positionEntry.key.pathPattern = P) (hio : .ioHandler tw ∉ L) (hfile : .file tw ∉ L)
    (hd : s.slots t.positionEntry = none → E (.crash .dangling))
    (hstay : ∀ s' t', Local tw P s s' → s'.watchers tw = some t' → Kept t t' →
      t'.running = t.running → Q () s')
    (hup : HandsOver env s t → wp (do
      if ← updateWatcherRotate cfg env t.pathPattern t.path t.positionEntry then
        modifyWatcher tw fun t' =>
          { t' with rotateHandler := RotateHandler.record (env.stat t.path) } : M Unit) Q E L s) :
    wp (TailWatcher.notifyRotateHandler cfg env tw) Q E L s := by
  have hfile' : Mutex.file tw ∉ Mutex.ioHandler tw :: L := by simpa using hfile
  unfold TailWatcher.notifyRotateHandler
  rw [wp_bind, wp_getWatcher hw]
  simp only [wp_ite]
  split
  · next hrotated =>
      split
      · exact hstay s t Local.refl hw Kept.refl rfl
      · next opened hopened =>
          simp only [TailWatcher.rotate, wp_bind]
          rw [wp_scopedLock hio]
          refine wp_rotateIo hw hP hfile' hd ?_ ?_
          · intro ok s' t' hl hw' hk hrun
            simp only [wp_pure, wp_ite]
            split
            · rw [wp_modifyWatcher hw']
              exact hstay _ _ (hl.trans Local.setWatcher) (Function.update_self ..)
                (hk.trans ⟨rfl, rfl, rfl, rfl⟩) hrun
            · exact hstay s' t' hl hw' hk hrun
          · intro slot r hslot hr hopen hinode
            have h := hup ⟨opened, slot, r, hopened, hrotated, hslot, hr, hopen, hinode⟩
            simp only [wp_bind] at h
            simp only [wp_bind]
            rw [wp_getWatcher hw]
            exact h
  · rw [wp_setWatcher]
    exact hstay _ _ Local.setWatcher (Function.update_self ..) ⟨rfl, rfl, rfl, rfl⟩ rfl

end Logkafka
