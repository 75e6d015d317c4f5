/-
# `Logkafka.AdminUtils` — editing the log config with log_config.php

`createConfig` and `deleteConfig` get the whole JSON document of a logkafka id
from zookeeper, change the item of one log path in it, and set the whole
document.  The set has no version, so that it takes effect whatever has been
set since the get.

A document is what `json_decode` makes of the text, and `json_encode` writes
back what was decoded; the items are values of any type that settings can be
(`OfFields`), as nothing looks into them.  What a command brings `json_encode`
takes only if it is UTF-8: otherwise it returns false, the node is set to "",
and the command reports success.  Any number of commands run on one id; a `get`
and a `set` are steps.

    UpToDate s a     the set writes what it would write had it got the
                     document just now

A run whose sets are all `UpToDate` is the commands one after the other, in
the order of their sets.  Where what they bring is UTF-8, and the document at
the start takes items, what is created is there.
-/
import Logkafka.Run
import Logkafka.Tools
import Mathlib.Data.List.Permutation
import Mathlib.Logic.Function.Basic

namespace Logkafka

/-! ## Documents

What `json_decode` makes of the text of the node, and how PHP puts an item into
it.  Arrays and objects have items; of the other values some become an object
when they are given one, and the rest stay.
-/

/-- Strings by name: the settings a command brings. -/
abbrev Fields := List (Str × Str)

/-- An item of a document may be the settings that were put there. -/
class OfFields (V : Type*) where
  ofFields : Fields → V

open OfFields (ofFields)

instance : OfFields Fields := ⟨id⟩

/-- A value of JSON without items. -/
inductive Scalar
  | bool (b : Bool)
  | number (n : Rat)
  | string (s : Str)
  deriving DecidableEq

/-- `$info->$log_path = ..` makes an object of such a value, as of `NULL`; any
other stays what it is, with a warning. -/
def Scalar.isBlank : Scalar → Bool
  | .bool b => !b
  | .number _ => false
  | .string s => s = []

variable {V : Type*}

/-- What the node has: nothing or no JSON, a value without items, an array or
an object. -/
inductive Info (V : Type*)
  | null
  | scalar (v : Scalar)
  | array (elems : List V)
  | object (items : List (Str × V))
  deriving DecidableEq

/-- `$items[$key] = $value`: in place, or at the end. -/
def setItem (key : Str) (value : V) : List (Str × V) → List (Str × V)
  | [] => [(key, value)]
  | (k, v) :: items =>
      if k = key then (key, value) :: items else (k, v) :: setItem key value items

def getItem (key : Str) : List (Str × V) → Option V
  | [] => none
  | (k, v) :: items => if k = key then some v else getItem key items

section Items

variable {key key' : Str}

theorem getItem_setItem_self (value : V) (items : List (Str × V)) :
    getItem key (setItem key value items) = some value := by
  induction items with
  | nil => simp [setItem, getItem]
  | cons e items ih =>
      obtain ⟨k, v⟩ := e
      by_cases hk : k = key
      · simp [setItem, getItem, hk]
      · simp [setItem, getItem, hk, ih]

theorem getItem_setItem_ne (h : key' ≠ key) (value : V) (items : List (Str × V)) :
    getItem key' (setItem key value items) = getItem key' items := by
  induction items with
  | nil => simp [setItem, getItem, Ne.symm h]
  | cons e items ih =>
      obtain ⟨k, v⟩ := e
      by_cases hk : k = key
      · subst hk
        simp [setItem, getItem, Ne.symm h]
      · simp [setItem, getItem, hk, ih]

theorem getItem_filter_ne (h : key' ≠ key) (items : List (Str × V)) :
    getItem key' (items.filter (·.1 ≠ key)) = getItem key' items := by
  induction items with
  | nil => rfl
  | cons e items ih =>
      obtain ⟨k, v⟩ := e
      by_cases hk : k = key
      · subst hk
        rw [List.filter_cons_of_neg (by simp), ih, getItem, if_neg (Ne.symm h)]
      · rw [List.filter_cons_of_pos (by simpa using hk), getItem, getItem, ih]

end Items

def decimal (n : ℕ) : Str := (Nat.toDigits 10 n).map fun c => c.toNat.toUInt8

/-- The items of an array under their indices. -/
def numbered (elems : List V) : List (Str × V) :=
  elems.zipIdx.map fun e => (decimal e.2, e.1)

namespace Info

/-- The item of a log path. -/
def get (logPath : Str) : Info V → Option V
  | .array elems => getItem logPath (numbered elems)
  | .object items => getItem logPath items
  | .null | .scalar _ => none

/-- An item can be put into it. -/
def TakesItems : Info V → Prop
  | .scalar v => v.isBlank = true
  | _ => True

/-- The items once one is put at a log path: an array that is given a path for a
key is written as an object. -/
def assign (logPath : Str) (item : V) : Info V → Option (List (Str × V))
  | .null => some [(logPath, item)]
  | .scalar v => if v.isBlank then some [(logPath, item)] else none
  | .array elems => some (setItem logPath item (numbered elems))
  | .object items => some (setItem logPath item items)

end Info

/-! ## UTF-8

`json_encode` fails on a text that is not UTF-8, so this is where a command may
set nothing at all.
-/

/-- A byte that goes on with a character. -/
def goesOn (b : Byte) : Bool := 128 ≤ b && b ≤ 191

/-- The second byte may come after the first: not a longer form of a shorter one,
no surrogate, and nothing beyond U+10FFFF. -/
def follows (a b : Byte) : Bool :=
  goesOn b && (a ≠ 224 || 160 ≤ b) && (a ≠ 237 || b ≤ 159) && (a ≠ 240 || 144 ≤ b) &&
    (a ≠ 244 || b ≤ 143)

/-- The text is UTF-8, as `json_encode` tests it. -/
def isUtf8 : Str → Bool
  | [] => true
  | a :: s =>
      if a ≤ 127 then isUtf8 s
      else match s with
        | [] => false
        | b :: s =>
            if 194 ≤ a && a ≤ 223 then goesOn b && isUtf8 s
            else match s with
              | [] => false
              | c :: s =>
                  if 224 ≤ a && a ≤ 239 then follows a b && goesOn c && isUtf8 s
                  else match s with
                    | [] => false
                    | d :: s =>
                        240 ≤ a && a ≤ 244 && follows a b && goesOn c && goesOn d && isUtf8 s

/-- "é", "€" and an emoji, but no surrogate and no Latin-1. -/
example : isUtf8 [195, 169, 226, 130, 172, 240, 159, 152, 128] = true ∧
    isUtf8 [237, 160, 128] = false ∧ isUtf8 [47, 233] = false := by
  decide

/-! ## The commands

A command gets the document in one step and sets it in another.  Between the two
other commands may do the same, and a set does not look at what is there.
-/

/-- A path that `isFilePathValid` admits: its first char is a slash, so that it
is no index of an array. -/
abbrev LogPath := { path : Str // path.head? = some 47 }

/-- A `--create` or `--delete` command. -/
inductive Edit
  | create (logPath : LogPath) (configs : Fields)
  | delete (logPath : LogPath)
deriving DecidableEq

namespace Edit

def logPath : Edit → LogPath
  | .create logPath _ => logPath
  | .delete logPath => logPath

/-- What the command brings is UTF-8. -/
def isUtf8 : Edit → Bool
  | .create logPath configs =>
      Logkafka.isUtf8 logPath.1 && configs.all fun c => Logkafka.isUtf8 c.1 && Logkafka.isUtf8 c.2
  | .delete _ => true

variable [OfFields V]

/-- The document a command sets after it got one. -/
def apply : Edit → Info V → Info V
  | .create logPath configs, info =>
      match info.assign logPath.1 (ofFields configs) with
      | none => info
      | some items =>
          if (create logPath configs).isUtf8 then .object items
          else .null -- `json_encode` fails, and "" is set
  | .delete logPath, .object items => .object (items.filter (·.1 ≠ logPath.1))
  | .delete _, info => info

end Edit

/-- The commands one after the other. -/
def oneByOne [OfFields V] (edits : List Edit) (info : Info V) : Info V :=
  edits.foldl (fun info edit => edit.apply info) info

/-- The config node of one logkafka id, what each running command has got from
it, and the commands that have reported success, in the order of their sets. -/
structure ConfigNode (V : Type*) where
  info : Info V
  got : ℕ → Option (Edit × Info V)
  succeeded : List Edit

inductive AdminEvent
  | get (command : ℕ) (edit : Edit)
  | set (command : ℕ)

namespace ConfigNode

variable [OfFields V]

def init (info : Info V) : ConfigNode V := ⟨info, fun _ => none, []⟩

def step : AdminEvent → ConfigNode V → Option (ConfigNode V)
  | .get command edit, s =>
      match s.got command with
      | none => some { s with got := Function.update s.got command (some (edit, s.info)) }
      | some _ => none
  | .set command, s =>
      match s.got command with
      | none => none
      | some (edit, info) => some
          { info := edit.apply info
            got := Function.update s.got command none
            succeeded := s.succeeded ++ [edit] }

def UpToDate (s : ConfigNode V) : AdminEvent → Prop
  | .get _ _ => True
  | .set command =>
      ∀ edit info, s.got command = some (edit, info) → edit.apply info = edit.apply s.info

/-- The document is that of the commands in the order of their sets. -/
def InOrder (info : Info V) (s : ConfigNode V) : Prop := s.info = oneByOne s.succeeded info

variable {s s' : ConfigNode V} {edit : Edit} {edits : List Edit} {info got : Info V}
  {command : ℕ} {key key' : Str}

/-! ## The order of the sets

A set writes what its command makes of the document it got; so the document is
that of the commands in order as long as each set would have written the same
after a `get` at its own moment.
-/

theorem oneByOne_concat : oneByOne (edits ++ [edit]) info = edit.apply (oneByOne edits info) :=
  List.foldl_concat _ _ _ _

/-- A set keeps the order when it is up to date, and only then. -/
theorem inOrder_set_iff (h : InOrder info s) (hgot : s.got command = some (edit, got))
    (hstep : step (.set command) s = some s') :
    InOrder info s' ↔ edit.apply got = edit.apply s.info := by
  simp only [step, hgot] at hstep
  cases hstep
  rw [InOrder, oneByOne_concat, ← h]

theorem inOrder_get (h : InOrder info s) (hstep : step (.get command edit) s = some s') :
    InOrder info s' := by
  simp only [step] at hstep
  split at hstep
  · cases hstep
    exact h
  · cases hstep

/-- The sets in their order give the document, exactly when each is `UpToDate`. -/
theorem inOrder_iff (info : Info V) (as : List AdminEvent) (t : ConfigNode V)
    (hr : run step as (init info) = some t) :
    (∀ u, Visits step as (init info) u → InOrder info u) ↔
      Along step UpToDate as (init info) := by
  refine visits_iff_along (I := InOrder info) (fun a s s' h ha hstep => ?_)
    (fun a s s' h ha hstep => ?_) rfl rfl hr
  · have h' : InOrder info s' := by
      cases a with
      | get command edit => exact inOrder_get h hstep
      | set command =>
          cases hgot : s.got command with
          | none =>
              simp only [step, hgot] at hstep
              cases hstep
          | some e => exact (inOrder_set_iff h hgot hstep).mpr (ha e.1 e.2 hgot)
    exact ⟨h', h'⟩
  · cases a with
    | get command edit => exact absurd trivial ha
    | set command =>
        simp only [UpToDate] at ha
        push Not at ha
        obtain ⟨edit, got, hgot, hne⟩ := ha
        exact fun h' => hne ((inOrder_set_iff h hgot hstep).mp h')

/-! ## What is present afterwards

A command whose text can be encoded leaves the items of the other paths alone,
and the document stays one that takes items.
-/

theorem apply_create (logPath : LogPath) (configs : Fields) (info : Info V) :
    (Edit.create logPath configs).apply info =
      match info.assign logPath.1 (ofFields configs) with
      | none => info
      | some items => if (Edit.create logPath configs).isUtf8 then .object items else .null := rfl

/-- Where the text can be encoded, a document that takes items has the new one. -/
theorem get_apply_create {logPath : LogPath} {configs : Fields} (h : info.TakesItems)
    (hutf8 : (Edit.create logPath configs).isUtf8 = true) :
    ((Edit.create logPath configs).apply info).get logPath.1 = some (ofFields configs) := by
  rw [apply_create, hutf8]
  cases info with
  | null => simp [Info.assign, Info.get, getItem]
  | scalar v =>
      have hblank : v.isBlank = true := h
      simp [Info.assign, Info.get, getItem, hblank]
  | array elems => exact getItem_setItem_self (ofFields configs) _
  | object items => exact getItem_setItem_self (ofFields configs) items

/-- And the other paths are left alone. -/
theorem get_apply_ne (hutf8 : edit.isUtf8 = true) (h : edit.logPath.1 ≠ key) (info : Info V) :
    (edit.apply info).get key = info.get key := by
  cases edit with
  | create logPath configs =>
      rw [apply_create, hutf8]
      have hne : logPath.1 ≠ key := h
      cases info with
      | null => simp [Info.assign, Info.get, getItem, hne]
      | scalar v => cases hblank : v.isBlank <;> simp [Info.assign, Info.get, getItem, hblank, hne]
      | array elems => exact getItem_setItem_ne (Ne.symm h) (ofFields configs) _
      | object items => exact getItem_setItem_ne (Ne.symm h) (ofFields configs) items
  | delete logPath =>
      cases info with
      | null | scalar _ | array _ => rfl
      | object items => exact getItem_filter_ne (Ne.symm h) items

theorem takesItems_apply (edit : Edit) (h : info.TakesItems) : (edit.apply info).TakesItems := by
  cases edit with
  | create logPath configs =>
      rw [apply_create]
      split
      · exact h
      · split <;> trivial
  | delete logPath =>
      cases info with
      | null | scalar _ | array _ => exact h
      | object items => trivial

theorem takesItems_oneByOne (edits : List Edit) (h : info.TakesItems) :
    (oneByOne edits info).TakesItems := by
  induction edits generalizing info with
  | nil => exact h
  | cons edit edits ih => exact ih (takesItems_apply edit h)

theorem get_oneByOne_ne (hutf8 : ∀ edit ∈ edits, edit.isUtf8 = true)
    (h : ∀ edit ∈ edits, edit.logPath.1 ≠ key) (info : Info V) :
    (oneByOne edits info).get key = info.get key := by
  induction edits generalizing info with
  | nil => rfl
  | cons edit edits ih =>
      obtain ⟨hedit, hutf8⟩ := List.forall_mem_cons.mp hutf8
      obtain ⟨hpath, h⟩ := List.forall_mem_cons.mp h
      exact (ih hutf8 h (edit.apply info)).trans (get_apply_ne hedit hpath info)

/-- What is created is there, unless the same path is edited later. -/
theorem get_oneByOne_create {earlier later : List Edit} {logPath : LogPath} {configs : Fields}
    (hutf8 : ∀ edit ∈ Edit.create logPath configs :: later, edit.isUtf8 = true)
    (hlater : ∀ edit ∈ later, edit.logPath ≠ logPath) (h : info.TakesItems) :
    (oneByOne (earlier ++ .create logPath configs :: later) info).get logPath.1 =
      some (ofFields configs) := by
  have hsplit : oneByOne (earlier ++ .create logPath configs :: later) info =
      oneByOne later ((Edit.create logPath configs).apply (oneByOne earlier info)) := by
    simp [oneByOne, List.foldl_append]
  obtain ⟨hcreate, hutf8⟩ := List.forall_mem_cons.mp hutf8
  rw [hsplit, get_oneByOne_ne hutf8 fun edit he heq => hlater edit he (Subtype.ext heq)]
  exact get_apply_create (takesItems_oneByOne earlier h) hcreate

/-- In every run whose sets are up to date, the document is at any moment that
of the commands that have succeeded, one after the other in some order; and, if
it takes items, it has what was created by one after which no other edited its
path, where this and what was brought later is UTF-8. -/
theorem edits_serial (info : Info V) (as : List AdminEvent) (t : ConfigNode V)
    (hr : run step as (init info) = some t) (hup : Along step UpToDate as (init info))
    (u : ConfigNode V) (hu : Visits step as (init info) u) :
    ∃ edits, edits.Perm u.succeeded ∧ u.info = oneByOne edits info ∧
      (info.TakesItems → ∀ earlier logPath configs later,
        edits = earlier ++ .create logPath configs :: later →
          (∀ edit ∈ Edit.create logPath configs :: later, edit.isUtf8 = true) →
          (∀ edit ∈ later, edit.logPath ≠ logPath) →
            u.info.get logPath.1 = some (ofFields configs)) := by
  have horder : u.info = oneByOne u.succeeded info := (inOrder_iff info as t hr).mpr hup u hu
  refine ⟨u.succeeded, .refl _, horder,
    fun hinfo earlier logPath configs later hedits hutf8 hlater => ?_⟩
  rw [horder, hedits]
  exact get_oneByOne_create hutf8 hlater hinfo

instance [DecidableEq V] (s : ConfigNode V) : (a : AdminEvent) → Decidable (UpToDate s a)
  | .get _ _ => isTrue trivial
  | .set command =>
      match h : s.got command with
      | none => isTrue (by simp [UpToDate, h])
      | some (edit, info) =>
          decidable_of_iff (edit.apply info = edit.apply s.info) (by simp [UpToDate, h])

/-- The topic "t". -/
def topicT : Fields := [(ascii "topic", [116])]

def createA : Edit := .create ⟨[47, 97], rfl⟩ topicT

def createB : Edit := .create ⟨[47, 98], rfl⟩ topicT

def deleteC : Edit := .delete ⟨[47, 99], rfl⟩

/-- While "/a" is created "/c" is deleted, which is not there; then "/b" is created. -/
def apart : List AdminEvent :=
  [.get 0 createA, .get 1 deleteC, .set 1, .set 0, .get 1 createB, .set 1]

/-- Both are there. -/
theorem edits_serial_apart : ∃ t : ConfigNode Fields,
    run step apart (init (.object [])) = some t ∧ t.succeeded = [deleteC, createA, createB] ∧
      t.info.get [47, 97] = some topicT ∧ t.info.get [47, 98] = some topicT := by
  have hrun : (run step apart (init (.object []) : ConfigNode Fields)).map succeeded =
      some [deleteC, createA, createB] := by
    decide +kernel
  obtain ⟨t, ht, hsucceeded⟩ := Option.map_eq_some_iff.mp hrun
  obtain ⟨edits, hperm, -, hpresent⟩ :=
    edits_serial (.object []) apart t ht (by decide +kernel) t (visits_of_run ht)
  rw [hsucceeded] at hperm
  have hutf8 : ∀ edit ∈ [deleteC, createA, createB], edit.isUtf8 = true := by decide
  have hnodup : (edits.map Edit.logPath).Nodup := (hperm.map _).nodup_iff.mpr (by decide)
  have hget : ∀ logPath, Edit.create logPath topicT ∈ [deleteC, createA, createB] →
      t.info.get logPath.1 = some topicT := by
    intro logPath hedit
    obtain ⟨earlier, later, hsplit⟩ := List.append_of_mem (hperm.mem_iff.mpr hedit)
    refine hpresent trivial earlier logPath topicT later hsplit (fun edit he => ?_) fun edit he => ?_
    · exact hutf8 edit (hperm.mem_iff.mp (hsplit ▸ List.mem_append_right _ he))
    · rw [hsplit, List.map_append, List.map_cons] at hnodup
      have hlater := (List.nodup_cons.mp (List.Nodup.of_append_right hnodup)).1
      exact fun heq => hlater (List.mem_map.mpr ⟨edit, he, heq⟩)
  exact ⟨t, ht, hsucceeded, hget createA.logPath (by decide), hget createB.logPath (by decide)⟩

/-- Both commands get the document before either sets it. -/
def together : List AdminEvent := [.get 0 createA, .get 1 createB, .set 0, .set 1]

/-- "/a" is not there, as it would be in either order. -/
theorem edits_lost : ∃ t : ConfigNode Fields,
    run step together (init (.object [])) = some t ∧
    t.info.get [47, 97] = none ∧ t.got 0 = none ∧ t.got 1 = none ∧
    ¬ ∃ edits, edits.Perm t.succeeded ∧ t.info = oneByOne edits (.object []) := by
  have hrun : (run step together (init (.object []) : ConfigNode Fields)).map ConfigNode.info =
      some (.object [([47, 98], topicT)]) := by
    decide +kernel
  obtain ⟨t, ht, hinfo⟩ := Option.map_eq_some_iff.mp hrun
  cases ht
  refine ⟨_, rfl, rfl, rfl, rfl, ?_⟩
  rintro ⟨edits, hperm, hserial⟩
  have hnone : ∀ edits ∈ [[createA, createB], [createB, createA]],
      Info.object [([47, 98], topicT)] ≠ oneByOne edits (.object []) := by
    decide +kernel
  refine hnone edits ?_ (hinfo.symm.trans hserial)
  have hmem : edits ∈ [createA, createB].permutations' := List.mem_permutations'.mpr hperm
  simpa [List.permutations'] using hmem

end ConfigNode

end Logkafka
