import Xos.Lib.Bytes
import Xos.Lib.Chain

/-!
# The kernel heap

`kernel/memory/heap.c`: a first-fit allocator over one arena.  A block starts with a header of two
words, its size and, while it is free, the address of the next free block.  The headers are bytes of
the memory that the blocks are cut from, and the model stores them there, so that a store through a
wrong address does to it what it does to the machine.

* **Words** — `Heap.size`, `Heap.link` and the stores `setSize`, `setLink`; a pointer to a pointer
  is a `Cell`, the word `free_head` or the `next` word of a block;
* **Calls** — `kmalloc`, `kfree`, `kcalloc` and `krealloc`.  Their loops walk the free list with a
  bound on the number of turns, and give nothing if it is reached;
* **Runs** — a state has, beside the heap, the pointers that were handed out and not given back, and
  whoever holds one may write to its payload.

The spin lock makes each call one step.
-/

namespace Xos.Kheap

open Xos.Lib

/-- `HEAP_FRAMES * PAGE_SIZE`. -/
def arenaSz : ℕ := 64 * 1024 * 1024

/-- `HDR_SIZE`. -/
def hdrSize : ℕ := 16

/-- `MIN_SPLIT`. -/
def minSplit : ℕ := hdrSize + 16

/-- `ALIGN16`. -/
def align16 (x : ℕ) : ℕ := (x + 15) % 2 ^ 64 / 16 * 16

/-- Enough turns for any list of disjoint blocks. -/
def turns : ℕ := arenaSz + 1

/-- Memory, with the variables of the allocator. -/
structure Heap where
  mem : Bytes
  freeHead : ℕ
  arena : ℕ
  usedSz : ℕ

/-- `NULL` or a block. -/
def ptr (a : ℕ) : Option ℕ := if a = 0 then none else some a

namespace Heap

variable (h : Heap)

/-- `b->size`. -/
def size (b : ℕ) : ℕ := readLE h.mem b 8

/-- `free_head` and the `next` words. -/
def link : Links Unit ℕ
  | .head _ => ptr h.freeHead
  | .next b => ptr (readLE h.mem (b + 8) 8)

def setSize (b n : ℕ) : Heap := { h with mem := writeLE h.mem b 8 n }

/-- `*pp = p`. -/
def setLink : Cell Unit ℕ → Option ℕ → Heap
  | .head _, p => { h with freeHead := p.getD 0 }
  | .next b, p => { h with mem := writeLE h.mem (b + 8) 8 (p.getD 0) }

/-- The free list, with the sizes of its blocks. -/
def freeList : Option (List (ℕ × ℕ)) :=
  (traverse h.link turns (.head ())).map fun l => l.map fun b => (b, h.size b)

end Heap

/-- `heap_init`, with the arena at `arena`. -/
def heapInit (mem : Bytes) (arena : ℕ) : Heap :=
  let h : Heap := { mem := mem, freeHead := arena, arena := arena, usedSz := 0 }
  (h.setSize arena arenaSz).setLink (.next arena) none

/-! ## Taking a block -/

/-- The block `b`, to which `pp` points, is taken for `need` bytes. -/
def takeBlock (h : Heap) (pp : Cell Unit ℕ) (b need : ℕ) : Heap :=
  if minSplit ≤ h.size b - need then
    let rest := (b + need) % 2 ^ 64
    let h := h.setSize rest (h.size b - need)
    let h := h.setLink (.next rest) (h.link (.next b))
    let h := h.setSize b need
    h.setLink pp (some rest)
  else h.setLink pp (h.link (.next b))

/-- `kmalloc`. -/
def kmalloc (h : Heap) (size : ℕ) : Option (ℕ × Heap) :=
  if size = 0 then some (0, h)
  else
    let need := (align16 size + hdrSize) % 2 ^ 64
    match scan (fun b => decide (need ≤ h.size b)) h.link turns (.head ()) with
    | none => none
    | some none => some (0, h)
    | some (some (pp, b)) =>
      let h := takeBlock h pp b need
      some (b + hdrSize, { h with usedSz := (h.usedSz + h.size b) % 2 ^ 64 })

/-! ## Giving a block back -/

/-- The loop of `insert_free`: the word behind the last block below `blk`. -/
def findPlace (h : Heap) (blk : ℕ) : Option (Cell Unit ℕ) :=
  match scan (fun b => decide (blk ≤ b)) h.link turns (.head ()) with
  | none => none
  | some none => tailCell h.link turns (.head ())
  | some (some (pp, _)) => some pp

/-- Coalesce with next. -/
def mergeNext (h : Heap) (blk : ℕ) : Heap :=
  match h.link (.next blk) with
  | none => h
  | some n =>
    if (blk + h.size blk) % 2 ^ 64 = n then
      let h := h.setSize blk (h.size blk + h.size n)
      h.setLink (.next blk) (h.link (.next n))
    else h

/-- Coalesce with previous. -/
def mergePrev (h : Heap) (pp : Cell Unit ℕ) (blk : ℕ) : Heap :=
  match pp with
  | .head _ => h
  | .next prev =>
    if (prev + h.size prev) % 2 ^ 64 = blk then
      let h := h.setSize prev (h.size prev + h.size blk)
      h.setLink (.next prev) (h.link (.next blk))
    else h

/-- `insert_free`. -/
def insertFree (h : Heap) (blk : ℕ) : Option Heap :=
  match findPlace h blk with
  | none => none
  | some pp =>
    let h := h.setLink (.next blk) (h.link pp)
    let h := h.setLink pp (some blk)
    some (mergePrev (mergeNext h blk) pp blk)

/-- `kfree`. -/
def kfree (h : Heap) (p : ℕ) : Option Heap :=
  if p = 0 then some h
  else
    let blk := p - hdrSize
    insertFree { h with usedSz := (h.usedSz + (2 ^ 64 - h.size blk)) % 2 ^ 64 } blk

/-! ## The other calls -/

/-- `kcalloc`. -/
def kcalloc (h : Heap) (n size : ℕ) : Option (ℕ × Heap) :=
  let total := n * size % 2 ^ 64
  match kmalloc h total with
  | none => none
  | some (p, h) => if p = 0 then some (0, h) else some (p, { h with mem := zeroFill h.mem p total })

/-- The `n` bytes from `p` on. -/
def Heap.bytes (h : Heap) (p n : ℕ) : List Byte := (List.range n).map fun j => h.mem (p + j)

/-- `krealloc`. -/
def krealloc (h : Heap) (p size : ℕ) : Option (ℕ × Heap) :=
  if p = 0 then kmalloc h size
  else if size = 0 then (kfree h p).map fun h => (0, h)
  else
    let old := (h.size (p - hdrSize) + (2 ^ 64 - hdrSize)) % 2 ^ 64
    if size ≤ old then some (p, h)
    else
      match kmalloc h size with
      | none => none
      | some (np, h) =>
        if np = 0 then some (0, h)
        else
          let h := { h with mem := memcpy h.mem np (h.bytes p old) }
          (kfree h p).map fun h => (np, h)

/-! ## Runs -/

/-- The heap, and the pointers that somebody holds. -/
structure State where
  heap : Heap
  held : List ℕ

inductive Label where
  | malloc (size : ℕ)
  | calloc (n size : ℕ)
  | realloc (p size : ℕ)
  | free (p : ℕ)
  /-- Somebody writes to a block. -/
  | store (p offset : ℕ) (data : List Byte)

/-- The pointers after a call that returned `p` and took `old`. -/
def State.handOut (s : State) (old p : ℕ) (h : Heap) : State where
  heap := h
  held := if p = 0 then s.held.erase old else p :: s.held.erase old

/-- The state after a call, and what it returned. -/
def exec (s : State) : Label → Option (ℕ × State)
  | .malloc size => (kmalloc s.heap size).map fun r => (r.1, s.handOut 0 r.1 r.2)
  | .calloc n size => (kcalloc s.heap n size).map fun r => (r.1, s.handOut 0 r.1 r.2)
  | .realloc p size => (krealloc s.heap p size).map fun r =>
    -- a call that fails leaves the old block to its holder
    (r.1, if r.1 = 0 ∧ size ≠ 0 then { s with heap := r.2 } else s.handOut p r.1 r.2)
  | .free p => (kfree s.heap p).map fun h => (0, s.handOut p 0 h)
  | .store p offset data =>
    some (0, { s with heap := { s.heap with mem := memcpy s.heap.mem (p + offset) data } })

def Step (s : State) (l : Label) (t : State) : Prop := ∃ r, exec s l = some (r, t)

end Xos.Kheap
