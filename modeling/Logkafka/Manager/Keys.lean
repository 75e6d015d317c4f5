/-
# `Logkafka.Manager.Keys` — every watcher writes the entry of its own path

The key of an entry is made in three places: `startWatchers` takes the path of
the task, `closeWatcher` that of the watcher, and `updateWatchers` gives the
new watcher the path of the task and the entry under the path of the old one.
They are one key unless an edit of the output and a change of the path come
with the same refresh.

    TiedBut X s       every watcher writes the entry of its own key, and those
                      registered outside `X` have theirs alive
    Apart env P s     the round of `updateWatchers` for `P` finds no such pair
    Astray P s        the watcher of `P` writes an entry of another key

`Tied` is an invariant of all the work on the tables (`TableInv`), and of the
rounds that find their pattern `Apart`; a round that does not leaves it `Astray`.
-/
import Logkafka.Manager.Changes
import Logkafka.Manager.Sessions
import Logkafka.Manager.Start

namespace Logkafka

open Manager PositionFile Prog

variable {cfg : Config} {env : Env} {L : List Mutex} {P : Str} {tw : WatcherId}
  {t t' : TailWatcher} {s s' : Manager} {X T : Str → Prop} {ps : List Str} {pe : EntryId}

structure TiedBut (X : Str → Prop) (s : Manager) : Prop where
  wf : s.Wf
  held : s.Held
  key : ∀ v t, s.watchers v = some t → t.positionEntry.key = ⟨t.pathPattern, t.path⟩
  alive : ∀ P v t, ¬ X P → s.tails.find? P = some (some v) → s.watchers v = some t →
    (s.slots t.positionEntry).isSome

def Tied (s : Manager) : Prop := TiedBut (fun _ => False) s

/-- The entry of a registered watcher is the one the map has for its path. -/
theorem Tied.entry (h : Tied s) (htail : s.tails.find? P = some (some tw))
    (hw : s.watchers tw = some t) : s.peMap.find? ⟨P, t.path⟩ = some t.positionEntry := by
  refine (h.held _ _).mpr ⟨?_, h.alive P tw t (fun hX => hX) htail hw⟩
  rw [h.key tw t hw, h.wf.tails_pattern P tw t htail hw]

/-! ## Work on the tables

`TiedBut` with the patterns `X` that are known to be astray already; the changes
of other patterns keep it.
-/

theorem Quiet.tiedBut (hq : Quiet s s') (h : TiedBut X s) : TiedBut X s' where
  wf := hq.wf h.wf h.held
  held := hq.held h.held
  key v t' hv := by
    obtain ⟨t, hv, ht⟩ := hq.watcher v t' hv
    rw [ht.pathPattern, ht.path, ht.positionEntry]
    exact h.key v t hv
  alive P v t' hP htail hv := by
    obtain ⟨t, hv, ht⟩ := hq.watcher v t' hv
    rw [ht.positionEntry]
    exact hq.alive _ (h.alive P v t hP (hq.tails ▸ htail) hv)

theorem TiedBut.register {path : Str} (h : TiedBut X s) (ps : List Str) (conf : TaskConf)
    (hpe : s.peMap.find? ⟨P, path⟩ = some pe) :
    TiedBut X (s.register P ps (TailWatcher.init P path pe conf)) where
  wf := h.wf.register rfl (congrArg PositionEntryKey.pathPattern ((h.held _ _).mp hpe).1)
  held := h.held
  key v t hv := by
    rcases register_watcher hv with ⟨-, rfl⟩ | ⟨-, hv⟩
    · exact ((h.held _ _).mp hpe).1
    · exact h.key v t hv
  alive Q v t hQ htail hv := by
    rcases OrdMap.find?_insert_eq_some.mp htail with ⟨-, heq⟩ | ⟨-, htail⟩
    · cases heq
      rcases register_watcher hv with ⟨-, rfl⟩ | ⟨hne, -⟩
      · exact ((h.held _ _).mp hpe).2
      · exact absurd rfl hne
    · rw [register_of_lt (h.wf.tails_lt Q v htail)] at hv
      exact h.alive Q v t hQ htail hv

theorem TiedBut.insertNull (h : TiedBut X s) :
    TiedBut X { s with tails := s.tails.insert P none } where
  wf := h.wf.insertNull
  held := h.held
  key := h.key
  alive Q v t hQ htail hv := by
    rcases OrdMap.find?_insert_eq_some.mp htail with ⟨-, heq⟩ | ⟨-, htail⟩
    · cases heq
    · exact h.alive Q v t hQ htail hv

/-- The entries of other patterns stay. -/
theorem TiedBut.dropEntry (h : TiedBut X s) (path : Str) :
    TiedBut (fun Q => X Q ∨ Q = P) (s.dropEntry ⟨P, path⟩) := by
  refine ⟨h.wf.dropEntry h.held, h.held.dropEntry ⟨P, path⟩, ?_, ?_⟩
  · rw [dropEntry_watchers]
    exact h.key
  · rw [dropEntry_watchers, dropEntry_tails]
    intro Q v t hQ htail hv
    obtain ⟨hX, hne⟩ := not_or.mp hQ
    refine (dropEntry_alive h.held _ _).mpr ⟨h.alive Q v t hX htail hv, fun hkey => hne ?_⟩
    rw [h.key v t hv, h.wf.tails_pattern Q v t htail hv] at hkey
    exact congrArg PositionEntryKey.pathPattern hkey

theorem TiedBut.unregister (h : TiedBut (fun Q => X Q ∨ Q = P) s) :
    TiedBut X (s.unregister P tw) where
  wf := h.wf.unregister
  held := h.held
  key v t hv := h.key v t (of_update_none hv)
  alive Q v t hQ htail hv := by
    have htail : (s.tails.erase P).find? Q = some (some v) := htail
    refine h.alive Q v t ?_ (OrdMap.find?_of_find?_erase htail) (of_update_none hv)
    rintro (hX | rfl)
    · exact hQ hX
    · rw [OrdMap.find?_erase_self] at htail
      cases htail

theorem tableInv_tied {unwatched : Bool} : TableInv unwatched Tied where
  quiet _ _ hq h := hq.tiedBut h
  register _ _ _ _ ps conf hpe h := TiedBut.register h ps conf hpe
  unregister s s₁ P tw t htail hw hc h := by
    rw [h.wf.tails_pattern P tw t htail hw]
    exact ((hc.quiet.tiedBut h).dropEntry t.path).unregister

/-- Whatever becomes of the watchers, the map has the entries that are alive. -/
theorem tableInv_held {unwatched : Bool} : TableInv unwatched Manager.Held where
  quiet _ _ hq h := hq.held h
  register _ _ _ _ _ _ _ h := h
  unregister _ _ _ _ _ _ _ hc h := (hc.quiet.held h).dropEntry _

/-! ## Rotation -/

theorem TiedBut.handedOver {path : Str} {old : WatcherId} (h : TiedBut X s) (ps : List Str)
    (conf : TaskConf) (hpe : s.peMap.find? ⟨P, path⟩ = some pe) :
    TiedBut X (s.handedOver P ps old (TailWatcher.init P path pe conf)) := by
  have h' := h.register ps conf hpe
  exact ⟨⟨h'.wf.watchers_lt, h'.wf.tails_lt, h'.wf.tails_pattern, h'.wf.entry_pattern,
    h'.wf.entries⟩, h'.held, h'.key, h'.alive⟩

/-- The new watcher has the path and the entry of the one that hands over. -/
theorem tied_onNotify (h : Tied s) :
    wp (TailWatcher.onNotify cfg env tw) (fun _ => Tied) (fun _ => True) L s := by
  refine wp_onNotify_quiet (fun s s' hq => hq.tiedBut) ?_ h
  intro s s' t ps old conf h hw hq halive
  have h' : Tied s' := hq.tiedBut h
  exact h'.handedOver ps conf ((h'.held _ _).mpr ⟨h.key tw t hw, halive⟩)

/-! ## Updating

The round that makes a new watcher with the path of the task and the entry of the
old watcher.  The two belong together unless the path has moved.
-/

/-- If the output of `P` is changed, and its new watcher can be set up, then its
path is the same. -/
def Apart (env : Env) (P : Str) (s : Manager) : Prop :=
  ∀ task tw t, Watched s P task tw t → task.conf.sameOutput t.conf = false →
    CanProduce env s.producers task.conf → task.getPath = t.path

/-- The watcher of `P` writes the entry of another path. -/
def Astray (P : Str) (s : Manager) : Prop :=
  ∃ v t, s.tails.find? P = some (some v) ∧ s.watchers v = some t ∧
    t.positionEntry.key ≠ ⟨t.pathPattern, t.path⟩

theorem apart_iff_of_frame (hP : ¬ T P) (hf : Frame T s s') (hs : s.Wf) (hs' : s'.Wf)
    (hg : Grows env s.producers s'.producers) : Apart env P s' ↔ Apart env P s := by
  unfold Apart
  simp only [hf.watched_iff hP hs hs', hg.canProduce_iff]

theorem stable_astray : Stable Astray := by
  rintro P T s s' hP hf hs _ ⟨v, t, htail, hw, hne⟩
  refine ⟨v, t, (hf.tails P hP).trans htail, ?_, hne⟩
  exact (hf.watchers v t (hs.tails_pattern P v t htail hw ▸ hP)).mpr hw

theorem tied_updateWatchersBody (hL : .tailWatchers ∈ L) (h : Tied s) (hapart : Apart env P s) :
    wp (updateWatchersBody cfg env P) (fun _ s' => Tied s' ∧ Sourced env s s' ∧ True)
      (fun _ => True) L s := by
  have hE : ∀ e, NotNull e → True := fun _ _ => trivial
  refine wp_updateWatchersBody_quiet hE hL (fun _ => trivial) ?_ ?_ ?_
  · intro task tw t hp _
    refine (tableInv_tied.moveWatcher hE (fun _ _ _ => trivial) hp.task h).conseq
      fun _ s₁ hwp => hwp.conseq fun _ s' h' => ⟨h'.1, h'.2, trivial⟩
  · exact fun task tw t s' _ _ hq => ⟨hq.tiedBut h, hq.sourced, trivial⟩
  · intro task tw t s₁ s' pe hp hout hq₁ hpe
    have h₁ : Tied s₁ := hq₁.tiedBut h
    refine ⟨fun hcan ps hps hq => ?_, fun _ hq => ?_⟩
    · rw [← hapart task tw t hp hout hcan] at hpe
      exact ⟨hq.tiedBut (TiedBut.register h₁ ps task.conf hpe),
        ⟨hq.tasks.trans hq₁.tasks, hq.producers ▸ hps⟩, trivial⟩
    · exact ⟨hq.tiedBut (TiedBut.insertNull h₁),
        ⟨hq.tasks.trans hq₁.tasks, hq.producers.trans hq₁.producers ▸ Grows.refl⟩, trivial⟩

/-- A round that finds both changes leaves the new watcher with the entry of the
old path. -/
theorem astray_updateWatchersBody (hL : .tailWatchers ∈ L) (h : s.Held) :
    wp (updateWatchersBody cfg env P) (fun _ s' => s'.Held ∧ Sourced env s s' ∧
      (¬ Apart env P s → Astray P s')) (fun _ => True) L s := by
  have hE : ∀ e, NotNull e → True := fun _ _ => trivial
  have hsame : ∀ {task tw t}, Watched s P task tw t → task.conf.sameOutput t.conf = true →
      Apart env P s := by
    intro task tw t hp hout task' tw' t' hp' hout'
    cases hp.task.symm.trans hp'.task
    cases hp.tail.symm.trans hp'.tail
    cases hp.watcher.symm.trans hp'.watcher
    rw [hout] at hout'
    cases hout'
  refine wp_updateWatchersBody_quiet hE hL (fun _ => trivial) ?_ ?_ ?_
  · intro task tw t hp hout
    refine (tableInv_held.moveWatcher hE (fun _ _ _ => trivial) hp.task h).conseq
      fun _ s₁ hwp => hwp.conseq fun _ s' h' => ⟨h'.1, h'.2, ?_⟩
    exact fun hnot => absurd (hsame hp hout) hnot
  · exact fun task tw t s' hp hout hq =>
      ⟨hq.held h, hq.sourced, fun hnot => absurd (hsame hp hout) hnot⟩
  · intro task tw t s₁ s' pe hp hout hq₁ hpe
    have happly : Apart env P s ↔ (CanProduce env s.producers task.conf →
        task.getPath = t.path) := by
      constructor
      · exact fun hapart => hapart task tw t hp hout
      · intro hpath task' tw' t' hp' _
        cases hp.task.symm.trans hp'.task
        cases hp.tail.symm.trans hp'.tail
        cases hp.watcher.symm.trans hp'.watcher
        exact hpath
    refine ⟨fun hcan ps hps hq => ?_, fun hcan hq => ?_⟩
    · refine ⟨hq.held (hq₁.held h), ⟨hq.tasks.trans hq₁.tasks, hq.producers ▸ hps⟩, ?_⟩
      intro hnot
      have hthere := hq.there s₁.nextWatcher (by simp [Manager.register, Manager.withNew])
      obtain ⟨t', hw'⟩ := Option.isSome_iff_exists.mp hthere
      refine ⟨s₁.nextWatcher, t', ?_, hw', ?_⟩
      · rw [hq.tails]
        exact OrdMap.find?_insert_self _ _ _
      · obtain ⟨t₁, hw₁, ht⟩ := hq.watcher _ t' hw'
        rcases register_watcher hw₁ with ⟨-, rfl⟩ | ⟨hne, -⟩
        · rw [ht.pathPattern, ht.path, ht.positionEntry]
          show pe.key ≠ ⟨P, task.getPath⟩
          rw [(((hq₁.held h) _ _).mp hpe).1]
          intro heq
          exact hnot (happly.mpr fun _ => (congrArg PositionEntryKey.path heq).symm)
        · exact absurd rfl hne
    · refine ⟨hq.held (hq₁.held h),
        ⟨hq.tasks.trans hq₁.tasks, hq.producers.trans hq₁.producers ▸ Grows.refl⟩, ?_⟩
      exact fun hnot => absurd (happly.mpr fun h' => absurd h' hcan) hnot

/-! ## A refresh

The refresh as a whole, from the state in which its tasks are done: there it can
be said which patterns will be edited and which have moved.
-/

theorem TasksRefreshed.tied {confs : OrdMap Str TaskConf} (hr : TasksRefreshed confs s s')
    (h : Tied s) : Tied s' where
  wf := hr.wf h.wf
  held := by
    intro pek pe
    rw [hr.peMap, hr.slots]
    exact h.held pek pe
  key v t hv := h.key v t (hr.watcher hv)
  alive P v t hP htail hv := by
    rw [hr.slots]
    exact h.alive P v t hP (hr.tails ▸ htail) (hr.watcher hv)

theorem mem_keptKeys_of_watched {task : Task} (hp : Watched s P task tw t) : P ∈ s.keptKeys :=
  OrdSet.mem_inter.mpr
    ⟨OrdMap.mem_keys.mpr ⟨_, hp.tail⟩, OrdMap.mem_keys.mpr ⟨_, hp.task⟩⟩

theorem tied_refreshWatchers (h : Tied s)
    (hapart : ∀ s₁, TasksDone cfg env s s₁ → ∀ P, Apart env P s₁) :
    wp (refreshWatchers cfg env) (fun _ => Tied) (fun _ => True) [] s := by
  refine tableInv_tied.refreshWatchers h.wf (fun _ _ => trivial) (fun _ _ _ _ => trivial) h ?_ ?_ ?_
  · exact fun _ confs => ⟨h.wf.setTaskConfs, h.held, h.key, h.alive⟩
  · exact fun members s₁ _ hr => hr.tied h
  · intro members s₁ s₃ _ _ hdone hs₁ hs₃ h₃ hsrc hf
    refine (wp_updateWatchers_rounds (I := Tied) (C := Apart env) (R := fun _ _ => True) ?_ ?_ ?_ _
      s₃ (OrdSet.nodup _) hs₃ h₃ fun P hP => ?_).conseq fun _ _ h' => h'.2.1
    · intro P T s s' hP hf hs hs' hsrc hC
      exact (apart_iff_of_frame hP hf hs hs' hsrc.grows).mpr hC
    · exact fun _ _ _ _ _ _ _ _ _ => trivial
    · exact fun P s _ h hC => tied_updateWatchersBody (by simp) h hC
    · have hkept : ¬ P ∉ s₁.keptKeys := fun hnot => hnot hP
      exact (apart_iff_of_frame hkept hf hs₁ hs₃ hsrc.grows).mpr (hapart s₁ hdone P)

theorem astray_refreshWatchers (h : Tied s)
    (hnot : ¬ ∀ s₁, TasksDone cfg env s s₁ → ∀ P, Apart env P s₁) :
    wp (refreshWatchers cfg env) (fun _ s' => s'.Wf ∧ ∃ P, Astray P s') (fun _ => True) [] s := by
  simp only [not_forall] at hnot
  obtain ⟨s₁', hdone', P, hapart⟩ := hnot
  refine tableInv_held.refreshWatchers h.wf (fun _ _ => trivial) (fun _ _ _ _ => trivial) h.held
    ?_ ?_ ?_
  · intro hdoc _
    obtain ⟨members, hdoc'⟩ := hdone'.document
    exact absurd hdoc' (hdoc members)
  · exact fun members s₁ _ hr => (hr.tied h).held
  · intro members s₁ s₃ _ _ hdone hs₁ hs₃ h₃ hsrc hf
    obtain rfl : s₁ = s₁' := hdone.unique hdone'
    have hmem : P ∈ s₁.keptKeys := by
      by_contra hP
      exact hapart fun task tw t hp => absurd (mem_keptKeys_of_watched hp) hP
    have hapart₃ : ¬ Apart env P s₃ := by
      rwa [apart_iff_of_frame (fun hnot => hnot hmem) hf hs₁ hs₃ hsrc.grows]
    refine (wp_updateWatchers_rounds (I := Manager.Held)
      (C := fun Q s => Apart env Q s ↔ Apart env Q s₃)
      (R := fun Q s' => ¬ Apart env Q s₃ → Astray Q s') ?_ ?_ ?_ _ s₃ (OrdSet.nodup _) hs₃ h₃
      fun _ _ => Iff.rfl).conseq fun _ s₄ h' => ⟨h'.1, P, h'.2.2.2 P hmem hapart₃⟩
    · intro Q T s s' hQ hf hs hs' hsrc hC
      exact (apart_iff_of_frame hQ hf hs hs' hsrc.grows).trans hC
    · exact fun Q T s s' hQ hf hs hs' hC hnot => stable_astray Q T s s' hQ hf hs hs' (hC hnot)
    · intro Q s _ h hC
      refine (astray_updateWatchersBody (by simp) h).conseq ?_
      rintro _ s' ⟨h', hsrc', hstray⟩
      exact ⟨h', hsrc', fun hnot => hstray fun hapart => hnot (hC.mp hapart)⟩

/-! ## Closing

What `stopWatchers` does to the entry of the watcher, under the assumption that it
is the watcher's own.
-/

/-- The part of `stopWatchers` that closes a watcher as unwatched. -/
def Manager.unwatch (cfg : Config) (env : Env) (tw : WatcherId) (removePosEntry : Bool) :
    M Unit := do
  modifyWatcher tw fun t => { t with unwatched := true }
  closeWatcher cfg env tw true removePosEntry

/-- A round of `stopWatchers` for a watcher that is no longer wanted. -/
theorem stopWatchers_unwatch {ps : List Str} (htail : s.tails.find? P = some (some tw)) :
    stopWatchers cfg env true true (P :: ps) L s = (do
      unwatch cfg env tw true
      TailWatcher.delete tw
      modify fun s => { s with tails := s.tails.erase P }
      stopWatchers cfg env true true ps : M Unit) L s := by
  have hget : (get : M Manager) L s = .ok (s, s) := rfl
  conv_lhs => unfold stopWatchers
  simp only [unwatch, run_bind, if_true, hget, Except.bind, htail]
  cases modifyWatcher tw (fun t => { t with unwatched := true }) L s with
  | ok r => rfl
  | error e => rfl

/-- The watcher's own entry is marked, and no other is touched. -/
structure Marks (s : Manager) (pe : EntryId) (s' : Manager) : Prop where
  peMap : s'.peMap = s.peMap
  marked : ∃ slot : Slot, s'.slots pe = some (slot.updatePos unwatchedPosition)
  others : ∀ pe', pe' ≠ pe → s'.slots pe' = s.slots pe'

theorem wp_unwatch {removePosEntry : Bool} {Q : Unit → Manager → Prop}
    (hw : s.watchers tw = some t)
    (hpe : s.peMap.find? ⟨t.pathPattern, t.path⟩ = some t.positionEntry)
    (h : ∀ s₁, Marks s t.positionEntry s₁ → wp (if removePosEntry then
      removeEntry ⟨t.pathPattern, t.path⟩ else pure ()) Q (fun _ => True) L s₁) :
    wp (unwatch cfg env tw removePosEntry) Q (fun _ => True) L s := by
  unfold unwatch closeWatcher
  rw [wp_bind, wp_modifyWatcher hw, wp_bind]
  refine (halted_stop (fun _ _ => trivial) (Function.update_self ..)).conseq fun _ s₁ hh => ?_
  obtain ⟨t₁, hw₁, ht, hun⟩ := hh.watcher
  rw [wp_bind, wp_getWatcher hw₁, ht.pathPattern, ht.path, hun, if_pos rfl, wp_bind]
  have hfound : s₁.peMap.find? ⟨t.pathPattern, t.path⟩ = some t.positionEntry := hh.peMap ▸ hpe
  simp only [getEntry, wp_bind, wp_get, hfound, wp_pure]
  unfold modifySlot
  rw [wp_bind]
  refine wp_getSlot (fun _ => trivial) fun slot _ => ?_
  refine wp_setSlot (fun _ => trivial) fun _ => ?_
  refine h _ ⟨hh.peMap, ⟨slot, Function.update_self ..⟩, fun pe' hne => ?_⟩
  exact (Function.update_of_ne hne ..).trans (hh.slots pe' hne)

/-- The entry `pe` is marked and removed, and no other is touched. -/
structure Removes (s : Manager) (pe : EntryId) (s' : Manager) : Prop where
  peMap : s'.peMap = s.peMap.erase pe.key
  removed : s'.slots pe = none
  others : ∀ pe', pe' ≠ pe → s'.slots pe' = s.slots pe'

theorem Tied.unwatch_marks (h : Tied s) (htail : s.tails.find? P = some (some tw))
    (hw : s.watchers tw = some t) (hok : unwatch cfg env tw false L s = .ok ((), s')) :
    Marks s t.positionEntry s' := by
  have hentry := h.wf.tails_pattern P tw t htail hw ▸ h.entry htail hw
  have hmarks : wp (unwatch cfg env tw false) (fun _ => Marks s t.positionEntry)
      (fun _ => True) L s := by
    refine wp_unwatch hw hentry fun s₁ hm => ?_
    rw [if_neg (by simp)]
    exact hm
  exact hmarks.ok hok

theorem Tied.unwatch_removes (h : Tied s) (htail : s.tails.find? P = some (some tw))
    (hw : s.watchers tw = some t) (hok : unwatch cfg env tw true L s = .ok ((), s')) :
    Removes s t.positionEntry s' := by
  have hentry := h.wf.tails_pattern P tw t htail hw ▸ h.entry htail hw
  have hremoves : wp (unwatch cfg env tw true) (fun _ => Removes s t.positionEntry)
      (fun _ => True) L s := by
    refine wp_unwatch hw hentry fun s₁ hm => ?_
    have hfound : s₁.peMap.find? ⟨t.pathPattern, t.path⟩ = some t.positionEntry :=
      hm.peMap ▸ hentry
    rw [if_pos rfl, wp_removeEntry_iff, dropEntry_of_some hfound, ← h.key tw t hw]
    refine ⟨?_, Function.update_self .., fun pe' hne => ?_⟩
    · show s₁.peMap.erase t.positionEntry.key = s.peMap.erase t.positionEntry.key
      rw [hm.peMap]
    · exact (Function.update_of_ne hne ..).trans (hm.others pe' hne)
  exact hremoves.ok hok

/-! ## The next session

The next session parses the lines of the file, and `getPath` gives it a path
whose line it has read.  That line was made for the path, and what it says is
what the entry held, in the map or when it was removed.
-/

theorem find?_of_getPath {peMap : OrdMap PositionEntryKey EntryId} {path : Str}
    (h : getPath peMap P = some path) : ∃ pe, peMap.find? ⟨P, path⟩ = some pe := by
  obtain ⟨⟨⟨P', path'⟩, pe⟩, hfound, rfl⟩ := Option.map_eq_some_iff.mp h
  have hsome := List.find?_some hfound
  obtain rfl : P' = P := of_decide_eq_true hsome
  exact ⟨pe, OrdMap.mem_entries.mp (List.mem_reverse.mp (List.mem_of_find?_eq_some hfound))⟩

theorem find?_eq_none_of_getPath {peMap : OrdMap PositionEntryKey EntryId}
    (h : getPath peMap P = none) (path : Str) : peMap.find? ⟨P, path⟩ = none := by
  have hnone := List.find?_eq_none.mp (Option.map_eq_none_iff.mp h)
  cases hpe : peMap.find? ⟨P, path⟩ with
  | none => rfl
  | some pe =>
      have hmem := List.mem_reverse.mpr (OrdMap.mem_entries.mpr hpe)
      exact absurd (decide_eq_true rfl) (hnone _ hmem)

/-- The path that the next session finds, and the entry that it reads there. -/
theorem exists_entry_of_getPath {path : Str} (hls : ∀ l ∈ s.lines, Legible l.1)
    (hpath : getPath (Manager.init (reread s.text)).peMap P = some path) :
    ∃ pe slot, pe.key = ⟨P, path⟩ ∧ (s.slots pe = some slot ∨ (pe, slot) ∈ s.removed) ∧
      (reread s.text).find? ⟨P, path⟩
        = some ⟨slot.readPos.toUInt64, slot.readInode.toUInt32⟩ := by
  obtain ⟨pe', hpe'⟩ := find?_of_getPath hpath
  have hinit : ((reread s.text).mapWithKey fun pek _ => (⟨pek, 0⟩ : EntryId)).find? ⟨P, path⟩
      = some pe' := hpe'
  rw [OrdMap.find?_mapWithKey] at hinit
  obtain ⟨read, hread, -⟩ := Option.map_eq_some_iff.mp hinit
  obtain ⟨slot, hkept, -, rfl⟩ := find?_reread hls hread
  rcases mem_lines.mp (live_of_mem_kept hkept).1 with ⟨pek, pe, -, hslot, hkey⟩ | ⟨pe, hl, hkey⟩
  · exact ⟨pe, slot, hkey, Or.inl hslot, hread⟩
  · exact ⟨pe, slot, hkey, Or.inr hl, hread⟩

/-! ## Every run

The property has a part about the watchers, one about closing and one about the
next session; each follows from `Tied`, and fails where a watcher is `Astray`.
-/

/-- The watchers write the entries of their own paths, closing one as unwatched
marks and removes its own, and the next session reads back what they wrote. -/
structure RecordsOwn (cfg : Config) (s : Manager) : Prop where
  /-- of every watcher there is, registered or not -/
  writes : ∀ v t, s.watchers v = some t → t.positionEntry.key = ⟨t.pathPattern, t.path⟩
  entry : ∀ P v t, s.tails.find? P = some (some v) → s.watchers v = some t →
    s.peMap.find? ⟨P, t.path⟩ = some t.positionEntry
  marks : ∀ env L P v t s', s.tails.find? P = some (some v) → s.watchers v = some t →
    unwatch cfg env v false L s = .ok ((), s') → Marks s t.positionEntry s'
  removes : ∀ env L P v t s', s.tails.find? P = some (some v) → s.watchers v = some t →
    unwatch cfg env v true L s = .ok ((), s') → Removes s t.positionEntry s'
  /-- what a restart reads for the path it finds is from an entry of that path -/
  restart : ∀ P path, (∀ l ∈ s.lines, Legible l.1) →
    getPath (Manager.init (reread s.text)).peMap P = some path →
    ∃ pe slot, pe.key = ⟨P, path⟩ ∧ (s.slots pe = some slot ∨ (pe, slot) ∈ s.removed) ∧
      (reread s.text).find? ⟨P, path⟩ = some ⟨slot.readPos.toUInt64, slot.readInode.toUInt32⟩

theorem Tied.recordsOwn (h : Tied s) : RecordsOwn cfg s where
  writes := h.key
  entry _ _ _ htail hw := h.entry htail hw
  marks _ _ _ _ _ _ htail hw hok := h.unwatch_marks htail hw hok
  removes _ _ _ _ _ _ htail hw hok := h.unwatch_removes htail hw hok
  restart _ _ hls hpath := exists_entry_of_getPath hls hpath

theorem Astray.not_recordsOwn (hs : s.Wf) (h : Astray P s) : ¬ RecordsOwn cfg s := by
  obtain ⟨v, t, htail, hw, hne⟩ := h
  intro hown
  refine hne ?_
  rw [hs.tails_pattern P v t htail hw]
  exact (hs.entries _ _ (hown.entry P v t htail hw)).1

/-- Once a refresh has done the tasks, the patterns whose output it changes, and
whose new watchers can be set up, have the paths their watchers have. -/
def Separate (cfg : Config) (s : Manager) : Event → Prop
  | .refresh env => ∀ s₁, TasksDone cfg env s s₁ → ∀ P, Apart env P s₁
  | _ => True

instance (s : Manager) : (e : Event) → Decidable (Separate cfg s e)
  | .refresh env => decidable_of_iff (∀ s₁, tasksDone? cfg env s = some s₁ →
        ∀ P tw, s₁.tails.find? P = some (some tw) → ∀ t, s₁.watchers tw = some t →
        ∀ task, s₁.tasks.find? P = some task → task.conf.sameOutput t.conf = false →
        CanProduce env s₁.producers task.conf → task.getPath = t.path)
      ⟨fun h s₁ hdone P task tw t hp =>
        h s₁ (tasksDone?_eq_some.mpr hdone) P tw hp.tail t hp.watcher task hp.task,
       fun h s₁ hdone P tw htail t hw task htask =>
        h s₁ (tasksDone?_eq_some.mp hdone) P task tw t ⟨htask, htail, hw⟩⟩
  | .notify .. | .upload | .stop _ => isTrue trivial

theorem tied_init (pf : OrdMap PositionEntryKey Slot) : Tied (Manager.init pf) where
  wf := wf_init pf
  held pek pe := by
    show (pf.mapWithKey fun pek _ => (⟨pek, 0⟩ : EntryId)).find? pek = some pe ↔
      pe.key = pek ∧ (if pe.serial = 0 then pf.find? pe.key else none).isSome
    rw [OrdMap.find?_mapWithKey]
    constructor
    · intro h
      obtain ⟨slot, hslot, rfl⟩ := Option.map_eq_some_iff.mp h
      refine ⟨rfl, ?_⟩
      rw [if_pos rfl, hslot]
      rfl
    · rintro ⟨rfl, halive⟩
      by_cases hserial : pe.serial = 0
      · rw [if_pos hserial] at halive
        obtain ⟨slot, hslot⟩ := Option.isSome_iff_exists.mp halive
        rw [hslot, ← hserial]
        rfl
      · rw [if_neg hserial] at halive
        cases halive
  key _ _ h := by cases h
  alive _ _ _ _ h := by cases h

theorem tied_exec {e : Event} (h : Tied s) (hC : Separate cfg s e) :
    wp (exec cfg e) (fun _ => Tied) (fun _ => True) [] s := by
  cases e with
  | refresh env =>
      unfold exec
      rw [wp_bind]
      exact (tied_refreshWatchers h hC).conseq fun _ _ h' => h'
  | notify env tw => exact tied_onNotify h
  | upload => exact wp_uploadCollectingState (fun _ => trivial) h
  | stop env =>
      unfold exec Manager.stop
      rw [wp_bind, wp_modify]
      refine wp_scopedLock_any trivial ?_
      rw [wp_bind, wp_get, wp_bind]
      have hoff : Tied { s with refreshTrigger := false } :=
        ⟨h.wf.stopTrigger, h.held, h.key, h.alive⟩
      refine (tableInv_tied.stopWatchers (fun _ _ => trivial) _ _ (fun _ _ _ _ _ => trivial)
        hoff).conseq fun _ s' h' => ?_
      exact wp_scopedLock_any trivial h'.1

theorem astray_exec {e : Event} (h : Tied s) (hC : ¬ Separate cfg s e) :
    wp (exec cfg e) (fun _ s' => s'.Wf ∧ ∃ P, Astray P s') (fun _ => True) [] s := by
  cases e with
  | refresh env =>
      unfold exec
      rw [wp_bind]
      exact (astray_refreshWatchers h hC).conseq fun _ _ h' => h'
  | notify _ _ => exact absurd trivial hC
  | upload => exact absurd trivial hC
  | stop _ => exact absurd trivial hC

/-- **Every watcher records under its own key.**  The entries are those of the
watchers' own paths, in every state of a run, if and only if no refresh of the
run brings a pattern both a new output and a new path. -/
theorem records_own_iff (cfg : Config) (pf : OrdMap PositionEntryKey Slot) (es : List Event)
    (t : Manager) (hr : run (step cfg) es (Manager.init pf) = some t) :
    (∀ u, Visits (step cfg) es (Manager.init pf) u → RecordsOwn cfg u) ↔
      Along (step cfg) (Separate cfg) es (Manager.init pf) := by
  refine visits_iff_along (I := Tied) ?_ ?_ (tied_init pf) (tied_init pf).recordsOwn hr
  · intro e s s' h hC hstep
    have h' : Tied s' := of_step hstep fun _ => tied_exec h hC
    exact ⟨h', h'.recordsOwn⟩
  · intro e s s' h hC hstep
    obtain ⟨hs', P, hstray⟩ := of_step hstep fun _ => astray_exec h hC
    exact hstray.not_recordsOwn hs'

/-- A refresh at which "%H" stands for `path`, with the topic as it is set. -/
def hourlyRefresh (path topic : Str) : Event :=
  .refresh { idle (.object [([37, 72], some { plainConf true [37, 72] with
      kafkaTopicConf := ⟨[], topic, [110, 111, 110, 101], 1, [], 0, 0⟩ })]) with
    expandPath := fun p => if p = [37, 72] then path else p }

/-- The hour passes, the topic is changed at the refresh after that, and logkafka
is stopped. -/
def apartByARefresh : List Event :=
  [hourlyRefresh [48, 49] [116], hourlyRefresh [48, 50] [116], hourlyRefresh [48, 50] [117],
    .stop (idle .parseError)]

/-- "02" has an entry of its own, whose line is left by the time logkafka stops. -/
theorem records_own_iff_hours :
    ∃ t, run (step sizes) apartByARefresh (Manager.init OrdMap.empty) = some t ∧
      (t.removed.map fun l => (l.1.key.path, l.2.readPos)) =
        [([48, 49], unwatchedPosition), ([48, 50], 0)] ∧
      ∀ u, Visits (step sizes) apartByARefresh (Manager.init OrdMap.empty) u →
        RecordsOwn sizes u := by
  have halong : Along (step sizes) (Separate sizes) apartByARefresh (Manager.init OrdMap.empty) := by
    decide +kernel
  have h : (run (step sizes) apartByARefresh (Manager.init OrdMap.empty)).any (fun t => decide
      ((t.removed.map fun l => (l.1.key.path, l.2.readPos)) =
        [([48, 49], unwatchedPosition), ([48, 50], 0)])) = true := by
    decide +kernel
  obtain ⟨t, ht, h⟩ := (Option.any_eq_true _ _).mp h
  exact ⟨t, ht, of_decide_eq_true h,
    (records_own_iff sizes OrdMap.empty apartByARefresh t ht).mpr halong⟩

/-- "%H" is collected as "01"; the refresh that finds it to be "02" finds another
topic too, and the watcher of "02" writes the entry of "01". -/
theorem records_own_fails :
    ∃ s t, run (step sizes) [hourlyRefresh [48, 49] [116], hourlyRefresh [48, 50] [117]]
        (Manager.init OrdMap.empty) = some s ∧
      s.tails.find? [37, 72] = some (some 1) ∧ s.watchers 1 = some t ∧ t.path = [48, 50] ∧
      t.positionEntry.key = ⟨[37, 72], [48, 49]⟩ ∧ s.peMap.find? ⟨[37, 72], t.path⟩ = none ∧
      ¬ RecordsOwn sizes s := by
  refine ⟨_, _, rfl, rfl, rfl, rfl, rfl, rfl, fun h => ?_⟩
  have hentry := h.entry [37, 72] 1 _ rfl rfl
  cases hentry

end Logkafka
