import Mathlib.Algebra.Order.Group.Nat
import Mathlib.Data.Finset.Card
import Mathlib.Data.Finset.Range
import Mathlib.Logic.Function.Basic
import Mathlib.Tactic.Simps.Basic

/-!
# The physical memory manager

`kernel/memory/pmm.c`: a bitmap with one bit per 4 KiB frame (set means used), a reference
count per frame, the number of used frames and a hint where to look for the next free frame.
A frame is named by its number; the source returns `f * PAGE_SIZE`, so the number 0 is both
frame 0 and the answer "no memory", here as there.

* **handing out** — `allocFrame`, one frame from the hint onwards, and `allocContig`, the first
  run of free frames;
* **counting** — `refFrame` and `unrefFrame` (`pmm_free_frame` is the same function); a count
  stops growing at `refMax`, but nothing stops it from falling again;
* **boot** — `pmmInit` builds the bitmap from the boot memory map and carves the table of
  counts out of the pool, `heapInit` takes the kernel heap's arena.

The loops of the source over a range of bits are one update of the bitmap here (`setRange`).
-/

namespace Xos.Mem

open Function

/-- `MAX_FRAMES`: the bitmap covers 8 GiB. -/
def maxFrames : ℕ := 2 ^ 21

/-- `REF_MAX`. -/
def refMax : ℕ := 255

/-- The frames below 1 MiB are never handed out. -/
def lowFrames : ℕ := 256

/-- `HEAP_FRAMES`: 64 MiB. -/
def heapFrames : ℕ := 16384

/-- The state of the manager. -/
structure Pmm where
  /-- `total_frames`: one more than the highest usable frame. -/
  total : ℕ
  /-- `bitmap`. -/
  used : ℕ → Bool
  refcnt : ℕ → ℕ
  /-- `used_frames`, a 64-bit counter. -/
  usedFrames : ℕ
  /-- `alloc_hint`. -/
  hint : ℕ

namespace Pmm

variable (p : Pmm)

/-- What `pmm_alloc_frame` does with the frame it found. -/
@[simps -fullyApplied]
def take (f : ℕ) : Pmm :=
  { p with
    used := update p.used f true
    usedFrames := (p.usedFrames + 1) % 2 ^ 64
    hint := f + 1
    refcnt := update p.refcnt f 1 }

/-- `pmm_alloc_frame`. -/
def allocFrame : ℕ × Pmm :=
  match (List.range p.total).find? fun scan => !p.used ((p.hint + scan) % p.total) with
  | some scan => ((p.hint + scan) % p.total, p.take ((p.hint + scan) % p.total))
  | none => (0, p)

/-- The loop of `pmm_alloc_contig` that looks for `n` free frames in a row: `run` of them end
just before the next frame to look at, the first of them being `start`. -/
def contigScan (used : ℕ → Bool) (n : ℕ) : List ℕ → ℕ → ℕ → Option ℕ
  | [], _, _ => none
  | f :: fs, run, start =>
    if used f then contigScan used n fs 0 start
    else
      let start := if run = 0 then f else start
      if run + 1 = n then some start else contigScan used n fs (run + 1) start

/-- Store a bit into a range of frames. -/
def setRange (used : ℕ → Bool) (start stop : ℕ) (b : Bool) : ℕ → Bool := fun f =>
  if start ≤ f ∧ f < stop then b else used f

/-- `pmm_alloc_contig`. -/
def allocContig (n : ℕ) : ℕ × Pmm :=
  if n = 0 then (0, p)
  else match contigScan p.used n (List.range p.total) 0 0 with
    | some start =>
      (start, { p with
        used := setRange p.used start (start + n) true
        refcnt := fun f => if start ≤ f ∧ f < start + n then 1 else p.refcnt f
        usedFrames := (p.usedFrames + n) % 2 ^ 64 })
    | none => (0, p)

/-- `pmm_ref_frame`. -/
def refFrame (f : ℕ) : Pmm :=
  if maxFrames ≤ f then p
  else if f < p.total ∧ p.refcnt f ≠ 0 ∧ p.refcnt f < refMax then
    { p with refcnt := update p.refcnt f (p.refcnt f + 1) }
  else p

/-- The end of `pmm_unref_frame`: the frame goes back to the pool. -/
def release (f : ℕ) : Pmm :=
  { p with
    used := update p.used f false
    usedFrames := if p.used f then (p.usedFrames + (2 ^ 64 - 1)) % 2 ^ 64 else p.usedFrames
    hint := if f < p.hint then f else p.hint }

/-- `pmm_unref_frame`.  The source goes on to leave a frame alone whose count is `REF_MAX`,
but asks only after it has decremented every count above one. -/
def unrefFrame (f : ℕ) : Pmm :=
  if maxFrames ≤ f then p
  else if f < p.total then
    if 1 < p.refcnt f then { p with refcnt := update p.refcnt f (p.refcnt f - 1) }
    else if p.refcnt f = refMax then p
    else { p with refcnt := update p.refcnt f 0 }.release f
  else p.release f

/-- `pmm_refcount`. -/
def refcount (f : ℕ) : ℕ := if p.total ≤ f then 0 else p.refcnt f

/-- The number of set bits of the managed frames. -/
def usedCount : ℕ := ((Finset.range p.total).filter fun f => p.used f = true).card

end Pmm

/-! ## Boot -/

/-- An entry of the boot memory map. -/
structure Region where
  base : ℕ
  length : ℕ
  /-- `type == HAND_MEM_USABLE`. -/
  usable : Bool

/-- The first frame that starts inside the region (64-bit arithmetic). -/
def Region.first (e : Region) : ℕ := (e.base + 4095) % 2 ^ 64 / 4096

/-- The frame after the last one that ends inside the region. -/
def Region.stop (e : Region) : ℕ := (e.base + e.length) % 2 ^ 64 / 4096

/-- One round of the loop over the memory map. -/
def freeRegion (p : Pmm) (e : Region) : Pmm :=
  if e.usable ∧ e.first < min e.stop maxFrames then
    { p with
      used := Pmm.setRange p.used e.first (min e.stop maxFrames) false
      total := max p.total (min e.stop maxFrames) }
  else p

/-- The bitmap before the table of counts is carved out. -/
def pmmBitmap (memmap : List Region) : Pmm :=
  let p := memmap.foldl freeRegion
    { total := 0, used := fun _ => true, refcnt := fun _ => 0, usedFrames := 0, hint := 0 }
  let p := { p with used := Pmm.setRange p.used 0 lowFrames true }
  { p with usedFrames := p.usedCount }

/-- `pmm_init`: the manager and the first frame of the table of counts.  A machine without room
for the table stops. -/
def pmmInit (memmap : List Region) : Option (ℕ × Pmm) :=
  let p := pmmBitmap memmap
  match p.allocContig ((p.total + 4095) / 4096) with
  | (0, _) => none
  | (table, p) =>
    some (table, { p with refcnt := fun f => if f < p.total ∧ p.used f then 1 else 0 })

/-- `heap_init`: the manager and the first frame of the arena. -/
def heapInit (p : Pmm) : Option (ℕ × Pmm) :=
  match p.allocContig heapFrames with
  | (0, _) => none
  | (arena, p) => some (arena, p)

/-! ## What each call changes -/

namespace Pmm

variable {p : Pmm} {f g : ℕ}

/-- A frame that `pmm_alloc_frame` hands out was free. -/
theorem allocFrame_cases (p : Pmm) :
    (∃ f, f < p.total ∧ p.used f = false ∧ p.allocFrame = (f, p.take f)) ∨
      p.allocFrame = (0, p) := by
  unfold allocFrame
  split
  · next scan h =>
      left
      have hfree := List.find?_some h
      have hscan := List.mem_range.mp (List.mem_of_find?_eq_some h)
      exact ⟨_, Nat.mod_lt _ (by omega), by simpa using hfree, rfl⟩
  · exact .inr rfl

theorem refFrame_cases (p : Pmm) (f : ℕ) : p.refFrame f = p ∨
    p.refcnt f ≠ 0 ∧ p.refFrame f = { p with refcnt := update p.refcnt f (p.refcnt f + 1) } := by
  unfold refFrame
  split
  · exact .inl rfl
  split
  · next h => exact .inr ⟨h.2.1, rfl⟩
  · exact .inl rfl

@[simp]
theorem refFrame_total : (p.refFrame f).total = p.total := by
  rcases p.refFrame_cases f with h | ⟨-, h⟩ <;> rw [h]

@[simp]
theorem refFrame_used : (p.refFrame f).used = p.used := by
  rcases p.refFrame_cases f with h | ⟨-, h⟩ <;> rw [h]

theorem refFrame_of_lt (hf : f < p.total) (hm : p.total ≤ maxFrames) (h0 : p.refcnt f ≠ 0)
    (h1 : p.refcnt f < refMax) :
    p.refFrame f = { p with refcnt := update p.refcnt f (p.refcnt f + 1) } := by
  unfold refFrame
  rw [if_neg (by omega), if_pos ⟨hf, h0, h1⟩]

@[simp]
theorem unrefFrame_total : (p.unrefFrame f).total = p.total := by
  unfold unrefFrame
  split
  · rfl
  split
  · split
    · rfl
    · split <;> rfl
  · rfl

theorem unrefFrame_of_max (h : maxFrames ≤ f) : p.unrefFrame f = p := if_pos h

section

variable (hf : f < p.total) (hm : p.total ≤ maxFrames)
include hf hm

/-- A frame with further references keeps its bit. -/
theorem unrefFrame_shared (h : 1 < p.refcnt f) :
    p.unrefFrame f = { p with refcnt := update p.refcnt f (p.refcnt f - 1) } := by
  unfold unrefFrame
  rw [if_neg (by omega), if_pos hf, if_pos h]

/-- The last reference releases the frame. -/
theorem unrefFrame_last (h : p.refcnt f ≤ 1) :
    p.unrefFrame f = { p with refcnt := update p.refcnt f 0 }.release f := by
  have hne : p.refcnt f ≠ refMax := by
    unfold refMax
    omega
  unfold unrefFrame
  rw [if_neg (by omega), if_pos hf, if_neg (by omega), if_neg hne]

/-- **Dropping a reference**: the count falls, and the bit goes with the last one. -/
theorem unrefFrame_spec (hu : p.used f = true)
    (h0 : 0 < p.refcnt f) : (p.unrefFrame f).refcnt = update p.refcnt f (p.refcnt f - 1) ∧
      (p.unrefFrame f).used = update p.used f (decide (1 < p.refcnt f)) := by
  rcases Nat.lt_or_ge 1 (p.refcnt f) with h1 | h1
  · rw [unrefFrame_shared hf hm h1, decide_eq_true h1, ← hu, update_eq_self]
    exact ⟨rfl, rfl⟩
  · rw [unrefFrame_last hf hm h1, decide_eq_false (by omega), show p.refcnt f - 1 = 0 by omega]
    exact ⟨rfl, rfl⟩

end

end Pmm

/-! ## The used frames are counted -/

/-- `used_frames` is the number of set bits of the managed frames. -/
def Balanced (p : Pmm) : Prop := p.usedFrames = p.usedCount % 2 ^ 64

section Balance

variable {p q : Pmm} {f : ℕ}

theorem usedCount_take (hf : f < p.total) (hu : p.used f = false) :
    (p.take f).usedCount = p.usedCount + 1 := by
  unfold Pmm.usedCount
  have hset : (Finset.range p.total).filter (fun g => update p.used f true g = true) =
      insert f ((Finset.range p.total).filter fun g => p.used g = true) := by
    ext g
    by_cases hg : g = f
    · subst hg; simp [hf]
    · simp [hg]
  rw [Pmm.take_total, Pmm.take_used, hset, Finset.card_insert_of_notMem (by simp [hu])]

theorem usedCount_release (hf : f < p.total) (hu : p.used f = true) :
    (p.release f).usedCount + 1 = p.usedCount := by
  unfold Pmm.usedCount
  have hset : (Finset.range p.total).filter (fun g => update p.used f false g = true) =
      ((Finset.range p.total).filter fun g => p.used g = true).erase f := by
    ext g
    by_cases hg : g = f
    · subst hg; simp
    · simp [hg]
  have hmem : f ∈ (Finset.range p.total).filter fun g => p.used g = true := by simp [hf, hu]
  show ((Finset.range p.total).filter (fun g => update p.used f false g = true)).card + 1 = _
  rw [hset, Finset.card_erase_add_one hmem]

theorem usedCount_congr (ht : q.total = p.total) (h : ∀ f, f < p.total → q.used f = p.used f) :
    q.usedCount = p.usedCount := by
  unfold Pmm.usedCount
  rw [ht]
  congr 1
  exact Finset.filter_congr fun f hf => by rw [h f (Finset.mem_range.mp hf)]

theorem Balanced.take (h : Balanced p) (hf : f < p.total) (hu : p.used f = false) :
    Balanced (p.take f) := by
  unfold Balanced at h ⊢
  rw [usedCount_take hf hu]
  show (p.usedFrames + 1) % 2 ^ 64 = _
  omega

theorem Balanced.refFrame (h : Balanced p) : Balanced (p.refFrame f) := by
  rcases p.refFrame_cases f with heq | ⟨-, heq⟩ <;> rw [heq] <;> exact h

theorem Balanced.release (h : Balanced p) (hf : f < p.total) : Balanced (p.release f) := by
  cases hu : p.used f with
  | true =>
    have hc := usedCount_release hf hu
    show (if p.used f then (p.usedFrames + (2 ^ 64 - 1)) % 2 ^ 64 else p.usedFrames) = _
    rw [if_pos hu, h]
    omega
  | false =>
    have hsame : (p.release f).usedCount = p.usedCount := by
      refine usedCount_congr rfl fun g _ => ?_
      by_cases hg : g = f
      · subst hg; simp [Pmm.release, hu]
      · simp [Pmm.release, hg]
    unfold Balanced at h ⊢
    rw [hsame]
    show (if p.used f then (p.usedFrames + (2 ^ 64 - 1)) % 2 ^ 64 else p.usedFrames) = _
    rw [hu]
    exact h

/-- Dropping a reference keeps the balance for a managed frame, and for a frame beyond the
bitmap.  (For one in between it does not: such a frame is not among the counted ones.) -/
theorem Balanced.unrefFrame (h : Balanced p) (hm : p.total ≤ maxFrames)
    (hf : f < p.total ∨ maxFrames ≤ f) : Balanced (p.unrefFrame f) := by
  rcases hf with hf | hf
  · rcases Nat.lt_or_ge 1 (p.refcnt f) with h1 | h1
    · rw [Pmm.unrefFrame_shared hf hm h1]
      exact h
    rw [Pmm.unrefFrame_last hf hm h1]
    have h' : Balanced { p with refcnt := update p.refcnt f 0 } := h
    exact h'.release hf
  · rw [Pmm.unrefFrame_of_max hf]
    exact h

end Balance

end Xos.Mem
