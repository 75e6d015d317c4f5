/-
# `Logkafka.Manager.Edits` — an edit of the configuration and the watcher

A refresh reads the entry of a pattern that is collected and compares it with
the settings of the pattern's watcher.  Where they differ, by the `operator==`
of the source, the watcher is set up again; where they are the same and the
path of the task is another one, it is stopped and one is started; and else it
keeps its settings, but for `valid`.

So an edit comes through if the watcher is `Rebuilt`.  The comparison leaves
`read_from_head` out, and an edit of it alone is not seen.
-/
import Logkafka.Manager.Start
import Logkafka.Output

namespace Logkafka

open Manager PositionFile Prog

variable {cfg : Config} {env : Env} {P : Str} {tw : WatcherId} {t : TailWatcher}
  {s s' : Manager} {conf : TaskConf} {f : Setting}

/-- The document that `refreshTaskConfs` makes of the log config; `none` where
the parser fails. -/
def readDocument (queueMax : UInt64) (unset : Str → String → Bool) : Option Json → Document
  | none => .parseError
  | some (.object members) => .object (members.map fun m =>
      (cstr m.1, readItem queueMax (unset (cstr m.1)) (cstr m.1) m.2))
  | some _ => .notObject

/-! ## A round of `updateWatchers`

A watcher that is made anew has all settings of the task; any other keeps what it
had.  So what a round leaves is told by whether the watcher is another one.
-/

/-- The watcher `t` is made anew for `conf` and `path`. -/
def Rebuilt (conf : TaskConf) (path : Str) (t : TailWatcher) : Prop :=
  conf.sameOutput t.conf = false ∨ conf.valid = t.conf.valid ∧ path ≠ t.path

instance {path : Str} : Decidable (Rebuilt conf path t) :=
  inferInstanceAs (Decidable (_ = false ∨ _ = _ ∧ _ ≠ _))

/-- The watcher of `P` has the settings `conf` if `t` was rebuilt, and those of
`t` if it was not, but for `valid`. -/
def Settled (P : Str) (conf : TaskConf) (path : Str) (t : TailWatcher) (s : Manager) : Prop :=
  ∃ tw' t', s.tails.find? P = some (some tw') ∧ s.watchers tw' = some t' ∧
    (Rebuilt conf path t → t'.conf = conf) ∧
    (¬ Rebuilt conf path t → t'.conf = { t.conf with valid := conf.valid })

theorem Started.registered {T : Str → Prop} {task : Task} {v : WatcherId} (h : Started T s s')
    (hnone : s.tails.find? P = none) (htask : s'.tasks.find? P = some task)
    (hv : s'.tails.find? P = some (some v)) :
    ∃ t', s'.watchers v = some t' ∧ t'.conf = task.conf := by
  rcases h.tails P with heq | ⟨-, v', t', hv', hw', hfresh⟩
  · rw [heq, hnone] at hv
    cases hv
  · cases hv.symm.trans hv'
    refine ⟨t', hw', ?_⟩
    rcases h.new v t' hw' with hold | hnew
    · rw [hfresh] at hold
      cases hold
    · obtain ⟨task', htask', -, hconf⟩ := hnew.task
      rw [h.wf.tails_pattern P v t' hv' hw'] at htask'
      cases htask.symm.trans htask'
      exact hconf

theorem settled_of_updated {task : Task} (hp : Watched s P task tw t)
    (henabled : t.conf.valid = true) (hup : env.SetsUp s.producers task.conf)
    (hf : Frame (· = P) s s') (h : Updated env P s s') : Settled P task.conf task.getPath t s' := by
  have hunique {task' : Task} {tw' : WatcherId} {t' : TailWatcher}
      (hp' : Watched s P task' tw' t') : task' = task ∧ tw' = tw ∧ t' = t := by
    obtain rfl := Option.some.inj (hp'.task.symm.trans hp.task)
    obtain rfl := Option.some.inj (Option.some.inj (hp'.tail.symm.trans hp.tail))
    exact ⟨rfl, rfl, Option.some.inj (hp'.watcher.symm.trans hp.watcher)⟩
  have htask : s'.tasks.find? P = some task := hf.tasks.symm ▸ hp.task
  cases h with
  | same hp' hsame hpath heq =>
      obtain ⟨rfl, rfl, rfl⟩ := hunique hp'
      obtain ⟨hvalid, hout⟩ := (TaskConf.same_iff _ _).mp hsame
      refine ⟨_, _, heq ▸ hp.tail, heq ▸ hp.watcher, ?_, fun _ => by rw [hvalid]⟩
      rintro (hdiff | ⟨-, hne⟩)
      · rw [hout] at hdiff
        cases hdiff
      · exact absurd hpath hne
  | moved hp' hsame hpath hstop hstart hnew =>
      obtain ⟨rfl, rfl, rfl⟩ := hunique hp'
      obtain ⟨hvalid, hout⟩ := (TaskConf.same_iff _ _).mp hsame
      obtain ⟨v, hv⟩ := hnew (hvalid.trans henabled) hup
      obtain ⟨t', hw', hconf⟩ := hstart.registered (hstop.tails P rfl) htask hv
      exact ⟨v, t', hv, hw', fun _ => hconf, fun hnot => absurd (Or.inr ⟨hvalid, hpath⟩) hnot⟩
  | toggled hp' hne hout hl hw' hfollows =>
      obtain ⟨rfl, rfl, rfl⟩ := hunique hp'
      refine ⟨_, _, hl.tails ▸ hp.tail, hw', ?_, fun _ => hfollows.conf⟩
      rintro (hdiff | ⟨hvalid, -⟩)
      · rw [hout] at hdiff
        cases hdiff
      · exact absurd hvalid hne
  | replaced hp' hout _ _ _ _ hnew =>
      obtain ⟨rfl, rfl, rfl⟩ := hunique hp'
      rcases hnew with ⟨pe, htail, hw', -⟩ | ⟨hfail, -⟩
      · exact ⟨_, _, htail, hw', fun _ => rfl, fun hnot => absurd (Or.inl hout) hnot⟩
      · exact absurd hup hfail

/-! ## A refresh

The rounds for other patterns come before and after, and none of them touches the
watcher of `P`.
-/

/-- Whatever the watcher and the task of `P` are, they are `t` and one with the
settings `conf` and the path `path`. -/
def FoundAs (P : Str) (conf : TaskConf) (path : Str) (t : TailWatcher) (s : Manager) : Prop :=
  ∀ task tw t', Watched s P task tw t' → task.conf = conf ∧ task.getPath = path ∧ t' = t

theorem FoundAs.of_frame {T : Str → Prop} {path : Str} (h : FoundAs P conf path t s) (hP : ¬ T P)
    (hf : Frame T s s') (hs : s.Wf) (hs' : s'.Wf) : FoundAs P conf path t s' :=
  fun task v t' hp => h task v t' ((hf.watched_iff hP hs hs').mp hp)

/-- The task of `P` has another path than `path` when the refresh comes to the
watchers. -/
def PathMoves (cfg : Config) (env : Env) (s : Manager) (P path : Str) : Prop :=
  ∃ s₁ task, TasksDone cfg env s s₁ ∧ s₁.tasks.find? P = some task ∧ task.getPath ≠ path

theorem settled_refreshWatchers {members : List (Str × Option TaskConf)} (hs : s.Wf)
    (htail : s.tails.find? P = some (some tw)) (hw : s.watchers tw = some t)
    (henabled : t.conf.valid = true) (hdoc : env.document = .object members)
    (hconf : (newConfs members).find? P = some conf) (hup : env.SetsUp s.producers conf) :
    wp (refreshWatchers cfg env) (fun _ s' => ∃ s₁ task, TasksDone cfg env s s₁ ∧
      s₁.tasks.find? P = some task ∧ Settled P conf task.getPath t s') (fun _ => True) [] s := by
  refine wp_refreshWatchers_parts hs trivial (fun _ => trivial)
    (fun hnot => absurd hdoc (hnot members)) ?_
  intro members' s₁ hdoc' hr hdone hs₁
  cases hdoc.symm.trans hdoc'
  obtain ⟨task, htask, rfl⟩ := Option.map_eq_some_iff.mp ((hr.tasks P).trans hconf)
  have htail₁ : s₁.tails.find? P = some (some tw) := hr.tails ▸ htail
  have hkept : P ∈ s₁.keptKeys :=
    OrdSet.mem_inter.mpr ⟨OrdMap.mem_keys.mpr ⟨_, htail₁⟩, OrdMap.mem_keys.mpr ⟨_, htask⟩⟩
  have hfound₁ : FoundAs P task.conf task.getPath t s₁ := by
    intro task' v t' hp
    cases htask.symm.trans hp.task
    cases htail₁.symm.trans hp.tail
    exact ⟨rfl, rfl, Option.some.inj ((hr.watcher hp.watcher).symm.trans hw)⟩
  refine (wp_stopWatchers (fun _ => trivial) _ s₁ hs₁).conseq fun _ s₂ hstop => ?_
  have hfound₂ : FoundAs P task.conf task.getPath t s₂ :=
    hfound₁.of_frame (fun hmem => (OrdSet.mem_diff.mp hmem).2 (OrdSet.mem_inter.mp hkept).2)
      hstop.frame hs₁ hstop.wf
  refine (wp_startWatchers (fun _ => trivial) _ s₂ hstop.wf).conseq fun _ s₃ hstart => ?_
  have hfound₃ : FoundAs P task.conf task.getPath t s₃ :=
    hfound₂.of_frame (fun hmem => (OrdSet.mem_diff.mp hmem).2 (OrdSet.mem_inter.mp hkept).1)
      hstart.frame hstop.wf hstart.wf
  have hmade₃ : s.producers ⊆ s₃.producers := fun _ hc =>
    hstart.frame.producers (hstop.frame.producers (hr.producers ▸ hc))
  have hpre : Stable fun Q u => s.producers ⊆ u.producers ∧
      (Q = P → FoundAs P task.conf task.getPath t u) := by
    refine fun Q T u u' hQ hf hu hu' h => ⟨List.Subset.trans h.1 hf.producers, ?_⟩
    rintro rfl
    exact (h.2 rfl).of_frame hQ hf hu hu'
  have hpost : Stable fun Q u => Q = P → Settled P task.conf task.getPath t u := by
    rintro Q T u u' hQ hf hu hu' h rfl
    obtain ⟨tw', t', htail', hw', hcases⟩ := h rfl
    have ht' := hu.tails_pattern Q tw' t' htail' hw'
    exact ⟨tw', t', (hf.tails Q hQ).trans htail', (hf.watchers tw' t' (ht' ▸ hQ)).mpr hw', hcases⟩
  refine (wp_updateWatchers (fun _ => trivial) hpre hpost (fun _ _ _ _ => trivial) ?_ _ s₃
    (OrdSet.nodup _) hstart.wf fun _ _ => ⟨hmade₃, fun _ => hfound₃⟩).conseq ?_
  · rintro Q u u' hu hu' hf ⟨hmade, hfound⟩ hupdated rfl
    have hp : ∃ task' v t', Watched u Q task' v t' := by
      cases hupdated with
      | same hp | moved hp | toggled hp | replaced hp => exact ⟨_, _, _, hp⟩
    obtain ⟨task', v, t', hp⟩ := hp
    obtain ⟨hconf', hpath', rfl⟩ := hfound rfl task' v t' hp
    have hsettled := settled_of_updated hp henabled (hconf' ▸ hup.mono hmade) hf hupdated
    rwa [hconf', hpath'] at hsettled
  · rintro _ s₄ ⟨-, -, hall⟩
    exact ⟨s₁, task, hdone, htask, hall P hkept rfl⟩

/-! ## Settings

What is written in the entry, in the type of the field, beside what the watcher
has.  The code comes between the two with its defaults, its limits and its types.
-/

/-- Settings that the comparison finds the same are the same, but for
`read_from_head`. -/
theorem setting_of_sameOutput {a b : TaskConf} (h : a.sameOutput b = true)
    (hf : f ≠ .readFromHead) : a.setting f = b.setting f := by
  simp only [TaskConf.sameOutput, LogConf.same, KafkaTopicConf.same, FilterConf.same,
    Bool.and_eq_true, decide_eq_true_eq] at h
  obtain ⟨⟨⟨⟨⟨⟨-, -⟩, hsize⟩, hdelimiter⟩, hremove⟩,
    ⟨⟨⟨⟨⟨⟨-, htopic⟩, hcodec⟩, hacks⟩, hkey⟩, hpartition⟩, htimeout⟩⟩, hregex⟩ := h
  cases f with
  | readFromHead => exact absurd rfl hf
  | batchsize => exact congrArg Setting.Value.int hsize
  | lineDelimiter => exact congrArg Setting.Value.char hdelimiter
  | removeDelimiter => exact congrArg Setting.Value.bool hremove
  | topic => exact congrArg Setting.Value.text htopic
  | key => exact congrArg Setting.Value.text hkey
  | partition => exact congrArg Setting.Value.int hpartition
  | compressionCodec => exact congrArg Setting.Value.text hcodec
  | requiredAcks => exact congrArg Setting.Value.int hacks
  | messageTimeoutMs => exact congrArg Setting.Value.int htimeout
  | regexFilterPattern => exact congrArg Setting.Value.text hregex

/-- The watcher of `P` shows the value `v` of the setting. -/
def WatcherShows (cfg : Config) (P : Str) (f : Setting) (v : Setting.Value) (s : Manager) : Prop :=
  ∃ tw t, s.tails.find? P = some (some tw) ∧ s.watchers tw = some t ∧ t.Shows cfg f v

/-- The watcher of `P` shows the value that is written, in the type of the field. -/
def ShowsWritten (cfg : Config) (P : Str) (f : Setting) (w : Setting.Written) (s : Manager) :
    Prop :=
  ∃ v, v.written = w ∧ WatcherShows cfg P f v s

theorem showsWritten_iff {w : Setting.Written} (htail : s.tails.find? P = some (some tw))
    (hw : s.watchers tw = some t) (htext : (t.conf.setting f).IsCString) :
    ShowsWritten cfg P f w s ↔ f ≠ .requiredAcks ∧ (t.conf.setting f).written = w := by
  constructor
  · rintro ⟨v, rfl, tw', t', htail', hw', hshows⟩
    cases htail.symm.trans htail'
    cases hw.symm.trans hw'
    obtain ⟨hacks, heq⟩ := (TailWatcher.shows_iff htext).mp hshows
    exact ⟨hacks, congrArg Setting.Value.written heq⟩
  · rintro ⟨hacks, heq⟩
    exact ⟨_, heq, tw, t, htail, hw, (TailWatcher.shows_iff htext).mpr ⟨hacks, rfl⟩⟩

/-- The setting of the watcher is the one that was read, but for a `read_from_head`
that did not make it anew. -/
theorem Settled.setting {path : Str} (h : Settled P conf path t s) (f : Setting) :
    ∃ tw' t', s.tails.find? P = some (some tw') ∧ s.watchers tw' = some t' ∧
      t'.conf.setting f = if f = .readFromHead ∧ ¬ Rebuilt conf path t then t.conf.setting f
        else conf.setting f := by
  obtain ⟨tw', t', htail, hw, hmade, hkept⟩ := h
  refine ⟨tw', t', htail, hw, ?_⟩
  by_cases hrebuilt : Rebuilt conf path t
  · rw [if_neg fun hstays => hstays.2 hrebuilt, hmade hrebuilt]
  · have hvalue : t'.conf.setting f = t.conf.setting f := by
      rw [hkept hrebuilt]
      cases f <;> rfl
    rw [hvalue]
    split
    · rfl
    · next hother =>
        have hf : f ≠ .readFromHead := fun hf => hother ⟨hf, hrebuilt⟩
        refine (setting_of_sameOutput ?_ hf).symm
        cases hout : conf.sameOutput t.conf with
        | true => rfl
        | false => exact absurd (Or.inl hout) hrebuilt

/-- The refresh leaves the watcher as it is: only `valid` is edited among the
settings that are compared, and not the path of the task without it. -/
def Stays (cfg : Config) (env : Env) (s : Manager) (P : Str) (conf : TaskConf) (t : TailWatcher) :
    Prop :=
  conf.sameOutput t.conf = true ∧ ¬ (conf.valid = t.conf.valid ∧ PathMoves cfg env s P t.path)

/-- **An edit of a setting.**  In every state of a run, a refresh that reads an
entry for a collected pattern, and can set it up, leaves the pattern with a
watcher that shows what is written for the setting, if and only if this is not
`required_acks` and what is written is taken; but for `read_from_head`, where the
watcher stays, if and only if it had that value. -/
theorem setting_shown_iff (cfg : Config) (queueMax : UInt64) (unset : Str → String → Bool)
    (env : Env) (pf : OrdMap PositionEntryKey Slot) (es : List Event) (members : List (Str × Json))
    (P : Str) (logItem : Json) (f : Setting) (w : Setting.Written)
    (hrun : run (step cfg) es (Manager.init pf) = some s)
    (htail : s.tails.find? P = some (some tw)) (hw : s.watchers tw = some t)
    (henabled : t.conf.valid = true)
    (hdoc : env.document = readDocument queueMax unset (some (.object members)))
    (hitem : readItem queueMax (unset P) P logItem = some conf)
    (hconf : ∀ ms, env.document = .object ms → (newConfs ms).find? P = some conf)
    (hwrites : f.writes logItem = some w) (hup : env.SetsUp s.producers conf)
    (hstep : step cfg (.refresh env) s = some s') :
    ShowsWritten cfg P f w s' ↔ f ≠ .requiredAcks ∧
      (f = .readFromHead ∧ Stays cfg env s P conf t ∧ (t.conf.setting f).written = w ∨
        ¬ (f = .readFromHead ∧ Stays cfg env s P conf t) ∧ f.Takes queueMax logItem w) := by
  have hs : s.Wf := run_inv wf_step es _ s (wf_init pf) hrun
  let after (s' : Manager) := ∃ s₁ task, TasksDone cfg env s s₁ ∧ s₁.tasks.find? P = some task ∧
    Settled P conf task.getPath t s'
  have hsettled : after s' := by
    refine of_step (R := after) hstep fun _ => ?_
    unfold exec
    rw [wp_bind]
    exact settled_refreshWatchers hs htail hw henabled hdoc (hconf _ hdoc) hup
  obtain ⟨s₁, task, hdone, htask, hsettled⟩ := hsettled
  have hstays : Stays cfg env s P conf t ↔ ¬ Rebuilt conf task.getPath t := by
    have hmoves : PathMoves cfg env s P t.path ↔ task.getPath ≠ t.path := by
      constructor
      · rintro ⟨s₂, task₂, hdone₂, htask₂, hne⟩
        cases hdone.unique hdone₂
        cases htask.symm.trans htask₂
        exact hne
      · exact fun hne => ⟨s₁, task, hdone, htask, hne⟩
    unfold Stays Rebuilt
    rw [hmoves, not_or, Bool.not_eq_false]
  have hsaid := readItem_setting hitem f
  have hread : (f.said queueMax (unset P) logItem).written = w ↔ f.Takes queueMax logItem w :=
    said_written_iff hwrites
  rw [← hsaid] at hread
  obtain ⟨tw', t', htail', hw', hvalue⟩ := hsettled.setting f
  by_cases hkept : f = .readFromHead ∧ Stays cfg env s P conf t
  · obtain ⟨rfl, hkept⟩ := hkept
    rw [if_pos ⟨rfl, hstays.mp hkept⟩] at hvalue
    have hbool : (t'.conf.setting .readFromHead).IsCString := trivial
    rw [showsWritten_iff htail' hw' hbool, hvalue]
    simp [hkept]
  · rw [if_neg fun h => hkept ⟨h.1, hstays.mpr h.2⟩] at hvalue
    have htext : (t'.conf.setting f).IsCString := by
      rw [hvalue, hsaid]
      exact f.said_isCString _ _ _
    rw [showsWritten_iff htail' hw' htext, hvalue, hread, or_iff_right fun h => hkept ⟨h.1, h.2.1⟩,
      and_iff_right hkept]

/-- An entry with the topic `topic`, and what else. -/
def entry (topic : Str) (members : List (Str × Json)) : Json :=
  .object ((ascii "topic", .string topic) :: members)

/-- What is read of the log config with the one entry `logItem` for "b". -/
def soleEntry (logItem : Json) : Document :=
  readDocument 100000 (fun _ _ => true) (some (.object [([98], logItem)]))

/-- An entry with a batch size. -/
def sizedEntry : Json := entry [116] [(ascii "batchsize", .string (ascii "300"))]

/-- The batch size of "b" is edited, and the new watcher shows it. -/
theorem setting_shown_iff_batchsize :
    ∃ s s', run (step sizes) [.refresh (idle (soleEntry (entry [116] [])))]
        (Manager.init OrdMap.empty) = some s ∧
      step sizes (.refresh (idle (soleEntry sizedEntry))) s = some s' ∧
      ShowsWritten sizes [98] .batchsize (.int 300) s' := by
  let env : Env := idle (soleEntry sizedEntry)
  have h : ((run (step sizes) [.refresh (idle (soleEntry (entry [116] [])))]
      (Manager.init OrdMap.empty)).any fun s =>
        decide (s.tails.find? [98] = some (some 0)) &&
        ((s.watchers 0).any fun t => t.conf.valid) &&
        ((readItem 100000 (fun _ => true) [98] sizedEntry).any fun conf =>
          decide (env.SetsUp s.producers conf)) &&
        (step sizes (.refresh env) s).isSome) = true := by
    decide +kernel
  obtain ⟨s, hrun, h⟩ := (Option.any_eq_true _ _).mp h
  simp only [Bool.and_eq_true, decide_eq_true_eq, Option.any_eq_true, Option.isSome_iff_exists] at h
  obtain ⟨⟨⟨htail, t, hw, henabled⟩, conf, hitem, hup⟩, s', hstep⟩ := h
  have hconf : ∀ ms, env.document = .object ms → (newConfs ms).find? [98] = some conf := by
    rintro _ ⟨⟩
    exact hitem
  have hwrites : Setting.writes sizedEntry .batchsize = some (.int 300) := by decide +kernel
  have htakes : Setting.Takes 100000 sizedEntry .batchsize (.int 300) :=
    ⟨by decide +kernel, Or.inl (by decide +kernel)⟩
  exact ⟨s, s', hrun, hstep, (setting_shown_iff sizes 100000 (fun _ _ => true) env OrdMap.empty _ _
    [98] sizedEntry .batchsize (.int 300) hrun htail hw henabled rfl hitem hconf hwrites hup
    hstep).mpr ⟨by decide, Or.inr ⟨fun hhead => absurd hhead.1 (by decide), htakes⟩⟩⟩

/-- The entry of "b" gets "read_from_head", which was true by default, and the
watcher stays as it was. -/
theorem setting_shown_fails :
    ∃ s s', run (step sizes) [.refresh (idle (soleEntry (entry [116] [])))]
        (Manager.init OrdMap.empty) = some s ∧
      step sizes (.refresh (idle (soleEntry (entry [116]
        [(ascii "read_from_head", .string (ascii "false"))])))) s = some s' ∧
      Setting.writes (entry [116] [(ascii "read_from_head", .string (ascii "false"))])
        .readFromHead = some (.bool false) ∧
      ¬ ShowsWritten sizes [98] .readFromHead (.bool false) s' := by
  refine ⟨_, _, rfl, rfl, by decide, ?_⟩
  rintro ⟨v, hv, tw, t, htail, hw, hshows⟩
  cases htail
  cases hw
  have hvalue := hshows _ trivial fun _ _ => rfl
  rw [← hvalue] at hv
  exact absurd hv (by decide)

end Logkafka
