/-
# `Logkafka.Memory` — blocks on a heap

A heap is the list of the blocks that were ever allocated, in their order; a
block that was freed is `none`.  A pointer is the number of a block.

    malloc bytes heap    a new block with `bytes` stored in it
    free p heap          the block is gone
    load heap p n        the first `n` bytes of a block

Only what was stored can be read: `load` has no value behind the end of a block,
and none in a block that was freed.  A heap that others were allocated on has the
first one as its prefix (`block_of_initial`).
-/
import Mathlib.Data.List.Basic
import Mathlib.Tactic.Common

namespace Logkafka.Memory

variable {α : Type*}

abbrev Heap (α : Type*) := List (Option (List α))

abbrev Ptr := ℕ

def malloc (bytes : List α) (heap : Heap α) : Ptr × Heap α := (heap.length, heap ++ [some bytes])

def free (p : Ptr) (heap : Heap α) : Heap α := heap.set p none

/-- The bytes of a block; `none` when there is no such block, or none any more. -/
def block (heap : Heap α) (p : Ptr) : Option (List α) := heap[p]?.join

def load (heap : Heap α) (p : Ptr) (n : ℕ) : Option (List α) :=
  (block heap p).bind fun bytes => if n ≤ bytes.length then some (bytes.take n) else none

variable {heap heap' : Heap α} {p q : Ptr} {n : ℕ} {bytes : List α}

theorem block_of_initial (h : heap <+: heap') (hp : p < heap.length) :
    block heap' p = block heap p := by
  obtain ⟨more, rfl⟩ := h
  rw [block, List.getElem?_append_left hp, block]

@[simp] theorem block_malloc (bytes : List α) (heap : Heap α) :
    block (malloc bytes heap).2 (malloc bytes heap).1 = some bytes := by
  simp [block, malloc]

theorem initial_malloc (bytes : List α) (heap : Heap α) : heap <+: (malloc bytes heap).2 :=
  List.prefix_append _ _

theorem malloc_lt (bytes : List α) (heap : Heap α) :
    (malloc bytes heap).1 < (malloc bytes heap).2.length := by
  simp [malloc]

/-- A block that was stored before others stays. -/
theorem block_malloc_initial (h : (malloc bytes heap).2 <+: heap') :
    block heap' (malloc bytes heap).1 = some bytes :=
  (block_of_initial h (malloc_lt bytes heap)).trans (block_malloc bytes heap)

theorem load_congr (h : block heap' p = block heap p) (n : ℕ) : load heap' p n = load heap p n := by
  rw [load, load, h]

/-- The bytes that are there to be read. -/
theorem load_eq_some {xs : List α} (h : block heap p = some bytes) :
    load heap p n = some xs ↔ n ≤ bytes.length ∧ bytes.take n = xs := by
  rw [load, h, Option.bind_some]
  split
  · next hle => simp [hle]
  · next hle => simp [hle]

end Logkafka.Memory
