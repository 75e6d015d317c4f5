/-
# `Logkafka.Producer` — the bytes `Producer::send` hands to librdkafka

For each message `Producer::send` makes a payload with `strndup`, and says that
it is as long as the message: the copy ends at the first zero byte, the length
does not.  The messages that librdkafka has no room for are made anew from their
payloads, and go back to be sent again.

    createMessages    the batch, and the heap with its payloads and keys
    ProduceBatch      `rd_kafka_produce_batch`, an error for each message
    sendMessages      `Producer::send`; `none` where it reads what is not there

A payload is the message, byte for byte, exactly when the message has no zero
byte before its last one (`load_strndup_iff`).
-/
import Logkafka.Memory
import Logkafka.Output

namespace Logkafka.Producer

open Memory

/-- `rd_kafka_resp_err_t`, as far as it is looked at. -/
inductive RespErr
  | noError
  | queueFull
  | other
deriving DecidableEq

/-- `rd_kafka_message_t`; `msgid` is what `_private` points to. -/
structure Rkmessage where
  payload : Ptr
  len : ℕ
  key : Ptr
  keyLen : ℕ
  msgid : ℕ

/-- `strndup(s.c_str(), n)`: the block it fills. -/
def strndup (s : Str) (n : ℕ) : List Byte := (cstr s).take n ++ [0]

/-- "Create messages": the loop from message `i` on. -/
def createMessages (key : Str) : ℕ → List Str → Heap Byte → List Rkmessage × Heap Byte
  | _, [], heap => ([], heap)
  | i, message :: messages, heap =>
      let payload := malloc (strndup message message.length) heap
      let keyCopy := malloc (strndup key key.length) payload.2
      let rest := createMessages key (i + 1) messages keyCopy.2
      (⟨payload.1, message.length, keyCopy.1, key.length, i⟩ :: rest.1, rest.2)

/-- `rd_kafka_produce_batch` with `RD_KAFKA_MSG_F_FREE`: an error for each
message, and the heap after it.  The payload of a message that is taken is
librdkafka's to free; that of one which is not stays as it was. -/
structure ProduceBatch where
  errs : List Rkmessage → Heap Byte → List RespErr
  heap : List Rkmessage → Heap Byte → Heap Byte
  length_errs : ∀ ms h, (errs ms h).length = ms.length
  untouched : ∀ ms h, ∀ r ∈ ms.zip (errs ms h), r.2 ≠ .noError →
    block (heap ms h) r.1.payload = block h r.1.payload

/-- "Scan through messages to check for errors." -/
def unsentMessages (heap : Heap Byte) : List (Rkmessage × RespErr) → List Str → Option (List Str)
  | [], unsent => some unsent
  | (m, err) :: rest, unsent =>
      if err = .queueFull then
        (load heap m.payload m.len).bind fun msg => unsentMessages heap rest (unsent ++ [msg])
      else unsentMessages heap rest unsent

/-- `Producer::send`: what it returns, `unsent_messages` and the heap. -/
def sendMessages (batch : ProduceBatch) (messages unsent : List Str) (key : Str)
    (heap : Heap Byte) : Option (Bool × List Str × Heap Byte) :=
  let created := createMessages key 0 messages heap
  let produced := batch.heap created.1 created.2
  (unsentMessages produced (created.1.zip (batch.errs created.1 created.2)) unsent).map
    fun unsent => (true, unsent, created.1.foldl (fun heap m => free m.key heap) produced)

variable {key message : Str} {messages unsent : List Str} {heap heap' : Heap Byte} {m : Rkmessage}
  {ms : List Rkmessage} {errs : List RespErr}

/-! ## The payloads -/

/-- What `createMessages` makes of a message. -/
structure Copied (key : Str) (heap : Heap Byte) (message : Str) (m : Rkmessage) : Prop where
  len : m.len = message.length
  payload : block heap m.payload = some (strndup message message.length)
  keyLen : m.keyLen = key.length
  key : block heap m.key = some (strndup key key.length)

theorem createMessages_spec (key : Str) (messages : List Str) :
    ∀ (i : ℕ) (heap : Heap Byte), heap <+: (createMessages key i messages heap).2 ∧
      List.Forall₂ (Copied key (createMessages key i messages heap).2) messages
        (createMessages key i messages heap).1 := by
  induction messages with
  | nil => exact fun _ heap => ⟨List.prefix_refl heap, .nil⟩
  | cons message messages ih =>
      intro i heap
      let payload := malloc (strndup message message.length) heap
      let keyCopy := malloc (strndup key key.length) payload.2
      obtain ⟨hrest, hcopied⟩ := ih (i + 1) keyCopy.2
      have hpayload : payload.2 <+: (createMessages key (i + 1) messages keyCopy.2).2 :=
        (initial_malloc _ _).trans hrest
      refine ⟨(initial_malloc _ heap).trans hpayload, .cons ?_ hcopied⟩
      exact ⟨rfl, block_malloc_initial hpayload, rfl, block_malloc_initial hrest⟩

theorem strndup_length (message : Str) : strndup message message.length = cstr message ++ [0] := by
  have hle : (cstr message).length ≤ message.length := (List.takeWhile_prefix _).length_le
  rw [strndup, List.take_of_length_le hle]

/-- A message is its text up to the first zero byte, and what begins there. -/
theorem cstr_or_zero (message : Str) :
    message = cstr message ∨ ∃ rest, message = cstr message ++ 0 :: rest := by
  have hsplit : cstr message ++ message.dropWhile (· ≠ 0) = message :=
    List.takeWhile_append_dropWhile
  cases hrest : message.dropWhile (· ≠ 0) with
  | nil =>
      rw [hrest, List.append_nil] at hsplit
      exact Or.inl hsplit.symm
  | cons b rest =>
      have hhead := List.head?_dropWhile_not (fun x : Byte => decide (x ≠ 0)) message
      rw [hrest] at hhead
      obtain rfl : b = 0 := by simpa using hhead
      rw [hrest] at hsplit
      exact Or.inr ⟨rest, hsplit.symm⟩

/-- The bytes of a payload are those of its message. -/
theorem load_strndup_iff (h : Copied key heap message m) :
    load heap m.payload m.len = some message ↔ 0 ∉ message.dropLast := by
  have hblock := h.payload
  rw [strndup_length] at hblock
  rw [load_eq_some hblock, h.len, List.length_append, List.length_singleton]
  have hzero := zero_not_mem_cstr message
  rcases cstr_or_zero message with heq | ⟨rest, heq⟩
  · -- no zero byte
    refine iff_of_true ⟨?_, ?_⟩ fun hmem => hzero (heq ▸ List.mem_of_mem_dropLast hmem)
    · rw [← heq]
      exact Nat.le_succ _
    · rw [← heq, List.take_left]
  · generalize cstr message = body at heq hzero
    subst heq
    cases rest with
    | nil =>
        -- one at the end, where `strndup` puts one too
        refine iff_of_true ⟨by simp, by simp⟩ ?_
        rwa [List.dropLast_concat]
    | cons b rest =>
        refine iff_of_false (fun h => ?_) fun h => h ?_
        · have hle := h.1
          simp at hle
        · rw [List.dropLast_append_of_ne_nil (List.cons_ne_nil _ _), List.dropLast_cons_cons]
          simp

/-- The batch of `Producer.send`, as it lies on the heap: a zero byte behind each
text, and lengths of their own. -/
theorem createMessages_produceBatch (key : Str) (messages : List Str) (heap : Heap Byte) :
    let created := createMessages key 0 messages heap
    List.Forall₂ (fun (r : RdKafkaMessage) (m : Rkmessage) =>
        m.len = r.len ∧ block created.2 m.payload = some (r.payload ++ [0]) ∧
          m.keyLen = r.keyLen ∧ block created.2 m.key = some (r.key ++ [0]))
      (messages.map fun message => ⟨cstr message, message.length, cstr key, key.length⟩)
      created.1 := by
  intro created
  rw [List.forall₂_map_left_iff]
  refine (createMessages_spec key messages 0 heap).2.imp fun message m h => ?_
  exact ⟨h.len, strndup_length message ▸ h.payload, h.keyLen, strndup_length key ▸ h.key⟩

/-! ## The messages that come back

librdkafka answers for each message; what comes back is what it has no room for,
in the order of the batch.
-/

/-- Those of some things whose error is `err`. -/
def withErr {α : Type*} (err : RespErr) (xs : List α) (errs : List RespErr) : List α :=
  ((xs.zip errs).filter fun r => r.2 = err).map Prod.fst

section WithErr

variable {α β : Type*} {err e : RespErr} {x : α} {xs : List α} {errs : List RespErr}

theorem withErr_cons : withErr err (x :: xs) (e :: errs)
    = (if e = err then [x] else []) ++ withErr err xs errs := by
  unfold withErr
  rw [List.zip_cons_cons, List.filter_cons]
  split
  · next h => rw [if_pos (of_decide_eq_true h)]; rfl
  · next h => rw [if_neg (fun heq => h (decide_eq_true heq))]; rfl

@[simp] theorem withErr_nil : withErr err xs [] = [] := by
  simp [withErr]

theorem withErr_map (f : α → β) : withErr err (xs.map f) errs = (withErr err xs errs).map f := by
  induction xs generalizing errs with
  | nil => rfl
  | cons x xs ih =>
      cases errs with
      | nil => simp
      | cons e errs =>
          rw [List.map_cons, withErr_cons, withErr_cons, ih, List.map_append]
          split <;> rfl

/-- With an error for each, the things are those of the three errors. -/
theorem withErr_perm (hlen : errs.length = xs.length) :
    xs.Perm (withErr .noError xs errs ++ withErr .queueFull xs errs ++ withErr .other xs errs) := by
  induction xs generalizing errs with
  | nil => simp [withErr]
  | cons x xs ih =>
      cases errs with
      | nil => cases hlen
      | cons e errs =>
          have ih := (@ih errs (Nat.succ.inj hlen)).cons x
          rw [withErr_cons, withErr_cons, withErr_cons]
          cases e with
          | noError => simpa using ih
          | queueFull =>
              refine ih.trans ?_
              simpa using (List.perm_middle (a := x)).symm
          | other =>
              refine ih.trans ?_
              have hmove := @List.perm_middle _ x
                (withErr .noError xs errs ++ withErr .queueFull xs errs) (withErr .other xs errs)
              simpa using hmove.symm

theorem withErr_eq_nil_iff (hlen : errs.length = xs.length) :
    withErr err xs errs = [] ↔ err ∉ errs := by
  induction xs generalizing errs with
  | nil =>
      obtain rfl := List.length_eq_zero_iff.mp hlen
      simp
  | cons x xs ih =>
      cases errs with
      | nil => cases hlen
      | cons e errs =>
          rw [withErr_cons, List.append_eq_nil_iff, ih (Nat.succ.inj hlen), List.mem_cons, not_or]
          refine and_congr_left fun _ => ?_
          split
          · next h => simp [h]
          · next h => simpa using Ne.symm h

end WithErr

theorem unsentMessages_eq (hcopied : List.Forall₂ (Copied key heap) messages ms)
    (hwhole : ∀ message ∈ messages, 0 ∉ message.dropLast) :
    ∀ {errs : List RespErr} {unsent : List Str},
      (∀ r ∈ ms.zip errs, r.2 ≠ .noError → block heap' r.1.payload = block heap r.1.payload) →
      unsentMessages heap' (ms.zip errs) unsent
        = some (unsent ++ withErr .queueFull messages errs) := by
  induction hcopied with
  | nil => exact fun _ => by simp [unsentMessages, withErr]
  | @cons message m messages ms hm _ ih =>
      intro errs unsent huntouched
      obtain ⟨hfirst, hrest⟩ := List.forall_mem_cons.mp hwhole
      cases errs with
      | nil => simp [unsentMessages]
      | cons err errs =>
          rw [List.zip_cons_cons] at huntouched ⊢
          obtain ⟨hkeep, huntouched⟩ := List.forall_mem_cons.mp huntouched
          have ih : ∀ unsent, unsentMessages heap' (ms.zip errs) unsent
              = some (unsent ++ withErr .queueFull messages errs) := fun unsent => ih hrest huntouched
          by_cases hfull : err = .queueFull
          · have hload : load heap' m.payload m.len = some message := by
              rw [load_congr (hkeep (by simp [hfull]))]
              exact (load_strndup_iff hm).mpr hfirst
            rw [unsentMessages, if_pos hfull, hload, Option.bind_some, ih, withErr_cons,
              if_pos hfull, List.append_assoc]
          · rw [unsentMessages, if_neg hfull, ih, withErr_cons, if_neg hfull, List.nil_append]

/-! ## Every byte

What librdkafka reads and what is sent back, against what was handed in.
-/

/-- The bytes that librdkafka is told to send, for each message. -/
def submitted (key : Str) (messages : List Str) (heap : Heap Byte) : List (Option Str) :=
  let created := createMessages key 0 messages heap
  created.1.map fun m => load created.2 m.payload m.len

/-- Each payload is its message, and the messages that come back are those there
was no room for. -/
def Faithful (batch : ProduceBatch) (messages unsent : List Str) (key : Str) (heap : Heap Byte) :
    Prop :=
  let created := createMessages key 0 messages heap
  submitted key messages heap = messages.map some ∧ ∃ heap',
    sendMessages batch messages unsent key heap =
      some (true, unsent ++ withErr .queueFull messages (batch.errs created.1 created.2), heap')

theorem submitted_iff (hcopied : List.Forall₂ (Copied key heap) messages ms) :
    (ms.map fun m => load heap m.payload m.len) = messages.map some ↔
      ∀ message ∈ messages, 0 ∉ message.dropLast := by
  induction hcopied with
  | nil => simp
  | cons hm _ ih =>
      rw [List.map_cons, List.map_cons, List.cons.injEq, ih, load_strndup_iff hm,
        List.forall_mem_cons]

theorem faithful_of_whole (batch : ProduceBatch) (unsent : List Str) (heap : Heap Byte)
    (hwhole : ∀ message ∈ messages, 0 ∉ message.dropLast) :
    Faithful batch messages unsent key heap := by
  obtain ⟨-, hcopied⟩ := createMessages_spec key messages 0 heap
  refine ⟨(submitted_iff hcopied).mpr hwhole, ?_⟩
  have hunsent := @unsentMessages_eq key messages _ _ _ hcopied hwhole _ unsent
    (batch.untouched (createMessages key 0 messages heap).1 (createMessages key 0 messages heap).2)
  exact ⟨_, by rw [sendMessages, hunsent, Option.map_some]⟩

/-- **When `Producer::send` keeps every byte.**  Whatever librdkafka answers for
the messages of a batch: if and only if none of them has a zero byte before its
last byte. -/
theorem send_faithful_iff (batch : ProduceBatch) (messages unsent : List Str) (key : Str)
    (heap : Heap Byte) : Faithful batch messages unsent key heap ↔
      ∀ message ∈ messages, 0 ∉ message.dropLast := by
  obtain ⟨-, hcopied⟩ := createMessages_spec key messages 0 heap
  constructor
  · rintro ⟨hsubmitted, -⟩
    exact (submitted_iff hcopied).mp hsubmitted
  · exact faithful_of_whole batch unsent heap

/-- librdkafka with a queue that is full, and no delivery yet. -/
def fullQueue : ProduceBatch where
  errs ms _ := ms.map fun _ => .queueFull
  heap _ heap := heap
  length_errs _ _ := List.length_map _
  untouched _ _ _ _ _ := rfl

/-- The payload of "a", zero, "b" is two bytes long, and three are read. -/
theorem send_faithful_fails :
    submitted [] [[97, 0, 98]] [] = [none] ∧ sendMessages fullQueue [[97, 0, 98]] [] [] [] = none ∧
      ¬ Faithful fullQueue [[97, 0, 98]] [] [] [] := by
  refine ⟨by decide, by decide, fun h => ?_⟩
  exact absurd h.1 (by decide)

end Logkafka.Producer
