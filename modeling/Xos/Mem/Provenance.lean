import Mathlib.Order.Interval.Finset.Nat
import Xos.Mem.Lifetime

/-!
# Where frames come from

`pmm_init` frees the usable regions of the boot memory map, keeps the first mebibyte and takes
the table of counts out of what is left; `heap_init` takes the arena of the kernel heap.  What
remains is the `pool`.

* **`Stocked P p`** — the manager's own invariant: free frames are in `P`, a managed frame is used
  if and only if it is counted, and `used_frames` is right.  The boot code establishes it for
  the pool (`boot_stocked`), and every allocation keeps it.
* **`frames_from_pool`** — along every run of allowed calls after boot, what the manager hands out
  is in the pool, and `used_frames` is the number of used frames.

A process that maps reserved memory and frees it puts it into circulation
(`reserved_frame_handed_out`).
-/

namespace Xos.Mem

open Xos.Lib Xos.Lib.Radix

/-! ## Runs of free frames -/

section Contig

variable {p q : Pmm} {used : ℕ → Bool} {n a f : ℕ}

/-- The scan finds free frames only: `run` frames from `start` on have been seen to be free. -/
theorem contigScan_spec (hrun : run < n)
    (hfree : 0 < run → start + run = k ∧ ∀ f, start ≤ f → f < k → used f = false)
    (h : Pmm.contigScan used n (List.range' k m) run start = some a) :
    a + n ≤ k + m ∧ ∀ f, a ≤ f → f < a + n → used f = false := by
  induction m generalizing k run start with
  | zero => cases h
  | succ m ih =>
    rw [List.range'_succ] at h
    unfold Pmm.contigScan at h
    split at h
    · obtain ⟨h1, h2⟩ := ih (by omega) (fun hc => absurd hc (by omega)) h
      exact ⟨by omega, h2⟩
    next hk =>
    -- the run now ends after frame `k`
    generalize hs : (if run = 0 then k else start) = start' at h
    have hfree' : start' + (run + 1) = k + 1 ∧ ∀ f, start' ≤ f → f < k + 1 → used f = false := by
      split at hs
      · next h0 =>
          refine ⟨by omega, fun f h1 h2 => ?_⟩
          obtain rfl : f = k := by omega
          simpa using hk
      next h0 =>
        subst hs
        obtain ⟨h1, h2⟩ := hfree (by omega)
        refine ⟨by omega, fun f h3 h4 => ?_⟩
        by_cases hfk : f = k
        · subst hfk
          simpa using hk
        · exact h2 f h3 (by omega)
    split at h
    · cases h
      exact ⟨by omega, fun f h1 h2 => hfree'.2 f h1 (by omega)⟩
    · obtain ⟨h1, h2⟩ := ih (by omega) (fun _ => hfree') h
      exact ⟨by omega, h2⟩

/-- What `pmm_alloc_contig` does with the run it found. -/
def Pmm.takeRange (p : Pmm) (a n : ℕ) : Pmm :=
  { p with
    used := Pmm.setRange p.used a (a + n) true
    refcnt := fun f => if a ≤ f ∧ f < a + n then 1 else p.refcnt f
    usedFrames := (p.usedFrames + n) % 2 ^ 64 }

/-- `pmm_alloc_contig` hands out free frames. -/
theorem allocContig_cases (p : Pmm) (n : ℕ) :
    (∃ a, a + n ≤ p.total ∧ (∀ f, a ≤ f → f < a + n → p.used f = false) ∧
      p.allocContig n = (a, p.takeRange a n)) ∨ p.allocContig n = (0, p) := by
  unfold Pmm.allocContig
  split
  · exact .inr rfl
  split
  · next a h =>
      rw [List.range_eq_range'] at h
      obtain ⟨h1, h2⟩ := contigScan_spec (by omega) (fun hc => absurd hc (by omega)) h
      exact .inl ⟨a, by omega, h2, rfl⟩
  · exact .inr rfl

theorem takeRange_used : (p.takeRange a n).used f = true ↔ p.used f = true ∨ a ≤ f ∧ f < a + n := by
  show Pmm.setRange p.used a (a + n) true f = true ↔ _
  unfold Pmm.setRange
  split
  · next h => simp [h]
  · next h => simp [h]

theorem usedCount_takeRange (ha : a + n ≤ p.total)
    (hfree : ∀ f, a ≤ f → f < a + n → p.used f = false) :
    (p.takeRange a n).usedCount = p.usedCount + n := by
  unfold Pmm.usedCount
  have hset : (Finset.range p.total).filter (fun f => (p.takeRange a n).used f = true) =
      (Finset.range p.total).filter (fun f => p.used f = true) ∪ Finset.Ico a (a + n) := by
    ext f
    simp only [Finset.mem_filter, Finset.mem_union, Finset.mem_range, Finset.mem_Ico,
      takeRange_used]
    constructor
    · rintro ⟨h1, h2 | h2⟩
      · exact .inl ⟨h1, h2⟩
      · exact .inr h2
    · rintro (⟨h1, h2⟩ | h2)
      · exact ⟨h1, .inl h2⟩
      · exact ⟨by omega, .inr h2⟩
  have hdisj : Disjoint ((Finset.range p.total).filter fun f => p.used f = true)
      (Finset.Ico a (a + n)) := by
    refine Finset.disjoint_left.mpr fun f h1 h2 => ?_
    have hused := (Finset.mem_filter.mp h1).2
    obtain ⟨h3, h4⟩ := Finset.mem_Ico.mp h2
    rw [hfree f h3 h4] at hused
    cases hused
  show ((Finset.range p.total).filter fun f => (p.takeRange a n).used f = true).card = _
  rw [hset, Finset.card_union_of_disjoint hdisj, Nat.card_Ico]
  omega

end Contig

/-! ## The manager's invariant -/

/-- Free frames are in `P`, and the books are right. -/
structure Stocked (P : Set ℕ) (p : Pmm) : Prop where
  total_le : p.total ≤ maxFrames
  counted : ∀ f, f < p.total → (p.used f = true ↔ 0 < p.refcnt f)
  free : ∀ f, f < p.total → p.used f = false → f ∈ P
  balanced : Balanced p

section Stock

variable {P Q : Set ℕ} {p : Pmm} {n a : ℕ}

theorem Stocked.mono (h : Stocked P p) (hPQ : P ⊆ Q) : Stocked Q p :=
  ⟨h.total_le, h.counted, fun f hf hu => hPQ (h.free f hf hu), h.balanced⟩

theorem Stocked.take (h : Stocked P p) (hf : f < p.total) (hu : p.used f = false) :
    Stocked P (p.take f) := by
  refine ⟨h.total_le, fun g hg => ?_, fun g hg hgu => ?_, h.balanced.take hf hu⟩
  · by_cases hgf : g = f
    · subst hgf
      simp
    · simp only [Pmm.take_used, Pmm.take_refcnt, Function.update_of_ne hgf]
      exact h.counted g hg
  · by_cases hgf : g = f
    · subst hgf
      simp at hgu
    · simp only [Pmm.take_used, Function.update_of_ne hgf] at hgu
      exact h.free g hg hgu

/-- A range that is taken is no longer in the pool. -/
theorem Stocked.takeRange (h : Stocked P p) (ha : a + n ≤ p.total)
    (hfree : ∀ f, a ≤ f → f < a + n → p.used f = false) :
    Stocked (P \ {f | a ≤ f ∧ f < a + n}) (p.takeRange a n) := by
  refine ⟨h.total_le, fun f hf => ?_, fun f hf hu => ?_, ?_⟩
  · rw [takeRange_used]
    show _ ↔ 0 < if a ≤ f ∧ f < a + n then 1 else p.refcnt f
    split
    · next hin => simp [hin]
    · next hin => simpa [hin] using h.counted f hf
  · have hnot : ¬(p.used f = true ∨ a ≤ f ∧ f < a + n) := fun hc => by
      rw [takeRange_used.mpr hc] at hu
      cases hu
    exact ⟨h.free f hf (by simpa using fun hc => hnot (.inl hc)), fun hc => hnot (.inr hc)⟩
  · have hb : p.usedFrames = p.usedCount % 2 ^ 64 := h.balanced
    unfold Balanced
    rw [usedCount_takeRange ha hfree]
    show (p.usedFrames + n) % 2 ^ 64 = _
    omega

end Stock

/-! ## Boot -/

/-- A frame of a usable region. -/
def Usable (memmap : List Region) (f : ℕ) : Prop :=
  ∃ e, e ∈ memmap ∧ e.usable = true ∧ e.base ≤ f * 4096 ∧ (f + 1) * 4096 ≤ e.base + e.length

/-- The memory map stays below the end of the 64-bit address space. -/
def Sane (memmap : List Region) : Prop :=
  ∀ e, e ∈ memmap → e.base + e.length + 4096 ≤ 2 ^ 64

/-- The number of frames of the table of counts. -/
def tableFrames (memmap : List Region) : ℕ := ((pmmBitmap memmap).total + 4095) / 4096

/-- What is there to be handed out, if the table of counts starts at `table` and the heap at
`arena`. -/
def pool (memmap : List Region) (table arena : ℕ) : Set ℕ :=
  {f | Usable memmap f ∧ lowFrames ≤ f ∧ ¬(table ≤ f ∧ f < table + tableFrames memmap) ∧
    ¬(arena ≤ f ∧ f < arena + heapFrames)}

section Boot

variable {memmap : List Region} {e : Region} {p : Pmm}

theorem usable_region (he : e ∈ memmap) (hu : e.usable = true)
    (hsane : e.base + e.length + 4096 ≤ 2 ^ 64) (h1 : e.first ≤ f) (h2 : f < e.stop) :
    Usable memmap f := by
  refine ⟨e, he, hu, ?_, ?_⟩
  · unfold Region.first at h1
    omega
  · unfold Region.stop at h2
    omega

/-- The loop over the memory map frees usable frames. -/
theorem freeRegions_spec (hsane : Sane memmap) :
    let p := memmap.foldl freeRegion
      { total := 0, used := fun _ => true, refcnt := fun _ => 0, usedFrames := 0, hint := 0 }
    p.total ≤ maxFrames ∧ ∀ f, p.used f = false → Usable memmap f := by
  suffices h : ∀ (es : List Region) (p : Pmm), es ⊆ memmap →
      (p.total ≤ maxFrames ∧ ∀ f, p.used f = false → Usable memmap f) →
      ((es.foldl freeRegion p).total ≤ maxFrames ∧
        ∀ f, (es.foldl freeRegion p).used f = false → Usable memmap f) from
    h memmap _ (List.Subset.refl _) ⟨Nat.zero_le _, fun f hf => by cases hf⟩
  intro es
  induction es with
  | nil => exact fun p _ hp => hp
  | cons e es ih =>
    intro p hsub hp
    refine ih (freeRegion p e) (fun x hx => hsub (List.mem_cons_of_mem _ hx)) ?_
    have he : e ∈ memmap := hsub List.mem_cons_self
    unfold freeRegion
    split
    · next hc =>
        refine ⟨max_le hp.1 (min_le_right _ _), fun f hf => ?_⟩
        simp only [Pmm.setRange] at hf
        split at hf
        · next hin =>
            exact usable_region he hc.1 (hsane e he) hin.1 (lt_of_lt_of_le hin.2 (min_le_left _ _))
        · exact hp.2 f hf
    · exact hp

theorem pmmBitmap_spec (hsane : Sane memmap) :
    (pmmBitmap memmap).total ≤ maxFrames ∧ Balanced (pmmBitmap memmap) ∧
      ∀ f, (pmmBitmap memmap).used f = false → Usable memmap f ∧ lowFrames ≤ f := by
  obtain ⟨h1, h2⟩ := freeRegions_spec hsane
  refine ⟨h1, ?_, fun f hf => ?_⟩
  · have hle : (pmmBitmap memmap).usedCount ≤ maxFrames :=
      (Finset.card_filter_le _ _).trans (by rw [Finset.card_range]; exact h1)
    unfold Balanced
    rw [Nat.mod_eq_of_lt (lt_of_le_of_lt hle (by decide))]
    rfl
  · have hf : Pmm.setRange _ 0 lowFrames true f = false := hf
    unfold Pmm.setRange at hf
    split at hf
    · cases hf
    · exact ⟨h2 f hf, by omega⟩

/-- The counts that `pmm_init` writes: one owner for every used frame. -/
def Pmm.countOnce (p : Pmm) : Pmm :=
  { p with refcnt := fun f => if f < p.total ∧ p.used f then 1 else 0 }

theorem countOnce_takeRange (ha : a + n ≤ p.total) :
    (p.takeRange a n).countOnce = p.countOnce.takeRange a n := by
  unfold Pmm.countOnce Pmm.takeRange Pmm.setRange
  congr 1
  funext f
  by_cases hf : a ≤ f ∧ f < a + n
  · simp [hf, show f < p.total by omega]
  · simp [hf]

theorem pmmBitmap_stocked (hsane : Sane memmap) :
    Stocked {f | Usable memmap f ∧ lowFrames ≤ f} (pmmBitmap memmap).countOnce := by
  obtain ⟨h1, h2, h3⟩ := pmmBitmap_spec hsane
  refine ⟨h1, fun f hf => ?_, fun f _ hu => h3 f hu, h2⟩
  have hf : f < (pmmBitmap memmap).total := hf
  show (pmmBitmap memmap).used f = true ↔
    0 < if f < (pmmBitmap memmap).total ∧ (pmmBitmap memmap).used f then 1 else 0
  by_cases hu : (pmmBitmap memmap).used f = true
  · simp [hf, hu]
  · simp [hu]

/-- **The manager after `pmm_init` and `heap_init`.** -/
theorem boot_stocked (hsane : Sane memmap) (hpmm : pmmInit memmap = some (table, p0))
    (hheap : heapInit p0 = some (arena, p)) :
    Stocked (pool memmap table arena) p := by
  -- the table of counts
  have htable : Stocked ({f | Usable memmap f ∧ lowFrames ≤ f} \
      {f | table ≤ f ∧ f < table + tableFrames memmap}) p0 := by
    unfold pmmInit at hpmm
    rcases allocContig_cases (pmmBitmap memmap) (tableFrames memmap) with ⟨a, ha, hfree, heq⟩ | heq
    · simp only [show (pmmBitmap memmap).allocContig (((pmmBitmap memmap).total + 4095) / 4096) =
        (a, (pmmBitmap memmap).takeRange a (tableFrames memmap)) from heq] at hpmm
      split at hpmm
      · cases hpmm
      next h0 =>
      cases h0
      cases hpmm
      have := (pmmBitmap_stocked hsane).takeRange ha hfree
      rw [← countOnce_takeRange ha] at this
      exact this
    · simp only [show (pmmBitmap memmap).allocContig (((pmmBitmap memmap).total + 4095) / 4096) =
        (0, pmmBitmap memmap) from heq] at hpmm
      cases hpmm
  -- the arena of the heap
  have harena : Stocked (({f | Usable memmap f ∧ lowFrames ≤ f} \
      {f | table ≤ f ∧ f < table + tableFrames memmap}) \
        {f | arena ≤ f ∧ f < arena + heapFrames}) p := by
    unfold heapInit at hheap
    rcases allocContig_cases p0 heapFrames with ⟨a, ha, hfree, heq⟩ | heq
    · rw [heq] at hheap
      split at hheap
      · cases hheap
      next h0 =>
        cases h0
        cases hheap
        exact htable.takeRange ha hfree
    · rw [heq] at hheap
      cases hheap
  refine harena.mono ?_
  rintro f ⟨⟨⟨h1, h2⟩, h3⟩, h4⟩
  exact ⟨h1, h2, h3, h4⟩

end Boot

/-! ## After boot -/

/-- What the drivers ask for before there are processes: a frame, or a run of frames. -/
def driverAlloc (p : Pmm) : Option ℕ → Pmm
  | none => p.allocFrame.2
  | some n => (p.allocContig n).2

variable {p : Pmm}

theorem Stocked.request (h : Stocked P p) (request : Option ℕ) :
    Stocked P (driverAlloc p request) := by
  cases request with
  | none =>
    rcases p.allocFrame_cases with ⟨f, hf, hu, heq⟩ | heq
    · simp only [driverAlloc, heq]
      exact h.take hf hu
    · simp only [driverAlloc, heq]
      exact h
  | some n =>
    rcases allocContig_cases p n with ⟨a, ha, hfree, heq⟩ | heq
    · simp only [driverAlloc, heq]
      exact (h.takeRange ha hfree).mono Set.sdiff_subset
    · simp only [driverAlloc, heq]
      exact h

theorem Stocked.requests (h : Stocked P p) (requests : List (Option ℕ)) :
    Stocked P (requests.foldl driverAlloc p) := by
  induction requests generalizing p with
  | nil => exact h
  | cons request requests ih => exact ih (h.request request)

/-- The frames that no process may name: what the manager covers and does not hand out, and the
kernel's PML4. -/
def outside (P : Set ℕ) (kernel : ℕ) : Set ℕ := {f | f ∉ P ∧ (f < maxFrames ∨ f = kernel)}

/-- The machine when the first process is about to start. -/
structure Booted (P : Set ℕ) (s : Sys) : Prop where
  stocked : Stocked P s.pmm
  zero : 0 ∉ P
  kernel : s.kernel ∉ P
  kernel_ne : s.kernel ≠ 0
  space : ∀ pid, s.space pid = none
  brk : ∀ pid, s.brk pid = 0

variable {P : Set ℕ} {s t : Sys} {memmap : List Region}

theorem Booted.good (h : Booted P s) : Good (outside P s.kernel) s := by
  refine good_initial h.space h.brk h.stocked.counted h.stocked.total_le (fun f hf hlt => ?_)
    ⟨h.zero, .inl (by decide)⟩ ⟨h.kernel, .inr rfl⟩ h.kernel_ne
  by_contra hu
  exact hf.1 (h.stocked.free f hlt (by simpa using hu))

/-- The frames of a manager under which no reserved frame is free come from the pool. -/
theorem Good.free_in_pool (h : Good (outside P kernel) s) (hf : f < s.pmm.total)
    (hu : s.pmm.used f = false) : f ∈ P := by
  by_contra hP
  have hmax : f < maxFrames := lt_of_lt_of_le hf h.sound.total_le
  rw [h.sound.reserved f ⟨hP, .inl hmax⟩ hf] at hu
  cases hu

/-- **Frames come from the pool.**  After boot with any sane memory map, any requests of the
drivers and any run of allowed calls: what `pmm_alloc_frame` and `pmm_alloc_contig` hand out next
lies in a usable region above the first mebibyte, outside the table of counts and the heap; so
do all frames of the bitmap that the address spaces are made of; and `used_frames` is the number
of used frames. -/
theorem frames_from_pool {memmap : List Region} {table arena : ℕ} {p0 p : Pmm}
    {requests : List (Option ℕ)} {as : List (ℕ × Call)} (hsane : Sane memmap)
    (hpmm : pmmInit memmap = some (table, p0)) (hheap : heapInit p0 = some (arena, p))
    (hs : s.pmm = requests.foldl driverAlloc p) (hkernel : s.kernel ∉ pool memmap table arena)
    (hkernel0 : s.kernel ≠ 0) (hspace : ∀ pid, s.space pid = none) (hbrk : ∀ pid, s.brk pid = 0)
    (hrun : Run Step (Allowed (outside (pool memmap table arena) s.kernel)) s as t) :
    (∀ f q, t.pmm.allocFrame = (f, q) → f ≠ 0 → f ∈ pool memmap table arena) ∧
      (∀ n f q, t.pmm.allocContig n = (f, q) → f ≠ 0 →
        ∀ k, k < n → f + k ∈ pool memmap table arena) ∧
      (∀ r ∈ t.roots, ∀ path f, UserPath path → path.length ≤ 4 →
        node follow t.mem r path = some f → f < maxFrames → f ∈ pool memmap table arena) ∧
      t.pmm.usedFrames = t.pmm.usedCount := by
  have hbooted : Booted (pool memmap table arena) s := by
    refine ⟨?_, fun hc => ?_, hkernel, hkernel0, hspace, hbrk⟩
    · rw [hs]
      exact (boot_stocked hsane hpmm hheap).requests requests
    · exact absurd hc.2.1 (by decide)
  obtain ⟨ht, hst⟩ := hbooted.good.run hrun
  refine ⟨fun f q heq h0 => ?_, fun n f q heq h0 k hk => ?_, fun r hr path f hp hl hn hf => ?_, ?_⟩
  · rcases t.pmm.allocFrame_cases with ⟨g, hg, hu, hg'⟩ | hg'
    · cases hg'.symm.trans heq
      exact ht.free_in_pool hg hu
    · cases hg'.symm.trans heq
      exact absurd rfl h0
  · rcases allocContig_cases t.pmm n with ⟨a, ha, hfree, ha'⟩ | ha'
    · cases ha'.symm.trans heq
      exact ht.free_in_pool (by omega) (hfree _ (by omega) (by omega))
    · cases ha'.symm.trans heq
      exact absurd rfl h0
  · have hview : t.view t.roots (r, path) = some f := (Ram.view_eq hr hp hl).trans hn
    by_contra hP
    exact (ht.sound.home _ f hview).1 ⟨hP, .inl hf⟩
  · have hb : t.pmm.usedFrames = t.pmm.usedCount % 2 ^ 64 := hst.balanced hbooted.stocked.balanced
    have hle : t.pmm.usedCount ≤ maxFrames :=
      (Finset.card_filter_le _ _).trans (by rw [Finset.card_range]; exact ht.sound.total_le)
    rw [hb, Nat.mod_eq_of_lt (lt_of_le_of_lt hle (by decide))]

/-! ## A machine with 67 MiB -/

/-- A bitmap whose first free run is at `a`. -/
theorem contigScan_first (hn : 0 < n) (hm : a + n ≤ m) (hlow : ∀ f, f < a → used f = true)
    (hfree : ∀ f, a ≤ f → f < a + n → used f = false) :
    Pmm.contigScan used n (List.range m) 0 0 = some a := by
  -- inside the run: `run` frames have been seen
  have hin : ∀ left run k, run + left = n → 0 < left → 0 < run →
      Pmm.contigScan used n (List.range' (a + run) (left + k)) run a = some a := by
    intro left
    induction left with
    | zero => omega
    | succ left ih =>
      intro run k hsum _ hrun
      rw [show left + 1 + k = left + k + 1 by omega, List.range'_succ]
      unfold Pmm.contigScan
      rw [if_neg (by rw [hfree _ (by omega) (by omega)]; decide)]
      simp only [if_neg (show run ≠ 0 by omega)]
      split
      · rfl
      · next hne => exact ih (run + 1) k (by omega) (by omega) (by omega)
  -- at the run, and before it
  have hat : ∀ start, Pmm.contigScan used n (List.range' a (m - a)) 0 start = some a := by
    intro start
    rw [show m - a = (m - a - 1) + 1 by omega, List.range'_succ]
    unfold Pmm.contigScan
    rw [if_neg (by rw [hfree a (by omega) (by omega)]; decide)]
    simp only [if_true]
    split
    · rfl
    next hne =>
      have := hin (n - 1) 1 (m - a - 1 - (n - 1)) (by omega) (by omega) (by omega)
      rwa [show n - 1 + (m - a - 1 - (n - 1)) = m - a - 1 by omega] at this
  have hbefore : ∀ d start, d ≤ a →
      Pmm.contigScan used n (List.range' (a - d) (m - (a - d))) 0 start = some a := by
    intro d
    induction d with
    | zero => exact fun start _ => hat start
    | succ d ih =>
      intro start hd
      rw [show m - (a - (d + 1)) = (m - (a - d)) + 1 by omega, List.range'_succ]
      unfold Pmm.contigScan
      rw [if_pos (hlow _ (by omega)), show a - (d + 1) + 1 = a - d by omega]
      exact ih start (by omega)
  have := hbefore a 0 (le_refl a)
  rwa [show a - a = 0 by omega, ← List.range_eq_range'] at this

theorem allocContig_first (hn : 0 < n) (hm : a + n ≤ p.total) (hlow : ∀ f, f < a → p.used f = true)
    (hfree : ∀ f, a ≤ f → f < a + n → p.used f = false) :
    p.allocContig n = (a, p.takeRange a n) := by
  unfold Pmm.allocContig
  rw [if_neg (by omega), contigScan_first hn hm hlow hfree]
  rfl

theorem pmmInit_eq
    (h : (pmmBitmap memmap).allocContig (((pmmBitmap memmap).total + 4095) / 4096) = (a, q))
    (ha : a ≠ 0) : pmmInit memmap = some (a, q.countOnce) := by
  unfold pmmInit
  simp only [h]
  cases a with
  | zero => exact absurd rfl ha
  | succ => rfl

theorem heapInit_eq (h : p.allocContig heapFrames = (a, q)) (ha : a ≠ 0) :
    heapInit p = some (a, q) := by
  unfold heapInit
  rw [h]
  cases a with
  | zero => exact absurd rfl ha
  | succ => rfl

/-- One usable region of 66 MiB after the first mebibyte. -/
def oneRegion : List Region := [{ base := 0x100000, length := 0x4200000, usable := true }]

theorem oneRegion_sane : Sane oneRegion := by
  intro e he
  obtain rfl := List.mem_singleton.mp he
  decide

theorem oneRegion_total : (pmmBitmap oneRegion).total = 17152 := by decide

theorem oneRegion_used (f : ℕ) :
    (pmmBitmap oneRegion).used f = if 256 ≤ f ∧ f < 17152 then false else true := by
  have hbits : (pmmBitmap oneRegion).used f =
      if 0 ≤ f ∧ f < 256 then true else if 256 ≤ f ∧ f < 17152 then false else true := rfl
  rw [hbits]
  by_cases h : f < 256
  · rw [if_pos ⟨by omega, h⟩, if_neg (by omega)]
  · rw [if_neg (by omega)]

/-- The table of counts takes five frames. -/
theorem oneRegion_pmmInit :
    pmmInit oneRegion = some (256, ((pmmBitmap oneRegion).takeRange 256 5).countOnce) := by
  have halloc : (pmmBitmap oneRegion).allocContig (((pmmBitmap oneRegion).total + 4095) / 4096) =
      (256, (pmmBitmap oneRegion).takeRange 256 5) := by
    rw [oneRegion_total]
    refine allocContig_first (by decide) (by rw [oneRegion_total]; decide) ?_ ?_
    · intro f hf
      rw [oneRegion_used, if_neg (by omega)]
    · intro f h1 h2
      rw [oneRegion_used, if_pos (by omega)]
  exact pmmInit_eq halloc (by decide)

/-- The manager after boot: frames 16645 to 17151 are free. -/
def oneRegionPmm : Pmm := ((pmmBitmap oneRegion).takeRange 256 5).countOnce.takeRange 261 heapFrames

theorem oneRegion_heapInit :
    heapInit ((pmmBitmap oneRegion).takeRange 256 5).countOnce = some (261, oneRegionPmm) := by
  have hused : ∀ f, ((pmmBitmap oneRegion).takeRange 256 5).countOnce.used f =
      if 261 ≤ f ∧ f < 17152 then false else true := by
    intro f
    show Pmm.setRange (pmmBitmap oneRegion).used 256 (256 + 5) true f = _
    unfold Pmm.setRange
    rw [oneRegion_used]
    by_cases h : 256 ≤ f ∧ f < 256 + 5
    · rw [if_pos h, if_neg (by omega)]
    rw [if_neg h]
    by_cases h2 : 261 ≤ f ∧ f < 17152
    · rw [if_pos h2, if_pos (by omega)]
    · rw [if_neg h2, if_neg (by omega)]
  have halloc : ((pmmBitmap oneRegion).takeRange 256 5).countOnce.allocContig heapFrames =
      (261, oneRegionPmm) := by
    refine allocContig_first (by decide) ?_ ?_ ?_
    · show 261 + heapFrames ≤ (pmmBitmap oneRegion).total
      decide
    · intro f hf
      rw [hused, if_neg (by omega)]
    · intro f h1 h2
      unfold heapFrames at h2
      rw [hused, if_pos (by omega)]
  exact heapInit_eq halloc (by decide)

/-- The machine with that manager; its PML4 is frame 2. -/
def oneRegionMachine : Sys where
  pmm := oneRegionPmm
  mem _ _ := 0#64
  kernel := 2
  space _ := none
  free i := 1 ≤ i
  brk _ := 0
  anonBase := 0x10000000000

theorem low_notMem_pool (hf : f < 256) : f ∉ pool memmap table arena := fun hc => by
  have := hc.2.1
  unfold lowFrames at this
  omega

/-- The first process starts, allocates a page and exits. -/
def firstProcess : List (ℕ × Call) :=
  [(0, .spawn emptyProgram true), (1, .memAlloc 0x1000 vmmRW), (1, .exit true)]

theorem firstProcess_allowed (s : Sys) :
    Run Step (Allowed R) s firstProcess (callAll s firstProcess) :=
  .cons (show emptyProgram.InUser _ from inUser_emptyProgram _) rfl <|
    .cons (fun _ => by decide) rfl <| .cons trivial rfl .nil

/-- The hypotheses of `frames_from_pool` hold over the life of the first process. -/
theorem oneRegion_frames_from_pool : (callAll oneRegionMachine firstProcess).pmm.usedFrames =
    (callAll oneRegionMachine firstProcess).pmm.usedCount := by
  have hkernel : oneRegionMachine.kernel ∉ pool oneRegion 256 261 := low_notMem_pool (by decide)
  obtain ⟨-, -, -, h⟩ := frames_from_pool oneRegion_sane oneRegion_pmmInit oneRegion_heapInit
    (show oneRegionMachine.pmm = [].foldl driverAlloc oneRegionPmm from rfl) hkernel (by decide)
    (fun _ => rfl) (fun _ => rfl) (firstProcess_allowed oneRegionMachine)
  exact h

/-- A process maps frame 1 and frees it. -/
def lowMapping : List (ℕ × Call) :=
  [(0, .spawn emptyProgram true), (1, .memMap 0x1000 0x1000 vmmRW), (1, .memFree 0x1000)]

/-- **A reserved frame is handed out**: a process maps frame 1, which is below the first mebibyte,
with `sys_mem_map` and frees it; then it is the next frame of `pmm_alloc_frame`. -/
theorem reserved_frame_handed_out : Sane oneRegion ∧ (∃ p0, pmmInit oneRegion = some (256, p0) ∧
        heapInit p0 = some (261, oneRegionMachine.pmm)) ∧
      Run Step (fun _ _ => True) oneRegionMachine lowMapping (callAll oneRegionMachine lowMapping) ∧
      (callAll oneRegionMachine lowMapping).pmm.allocFrame.1 = 1 ∧
      1 ∉ pool oneRegion 256 261 := by
  refine ⟨oneRegion_sane, ⟨_, oneRegion_pmmInit, oneRegion_heapInit⟩, ?_, ?_,
    low_notMem_pool (by decide)⟩
  · exact .cons trivial rfl <| .cons trivial rfl <| .cons trivial rfl .nil
  · decide +kernel

end Xos.Mem
