import Xos.Lib.Run
import Xos.Mem.Building

/-!
# A mapped frame is not free

The invariant of whole runs.  `Good R s` holds of a machine whose references are counted; every
call that is `Allowed` keeps it (`Good.call`), whatever the process, the arguments and the memory
that is left.  From it follow, for every run of allowed calls:

* **`mapped_not_free`** — a frame that a present entry of a live address space names is not free
  in the bitmap, and its count is at least the number of such entries;
* **`kernel_half_untouched`** — no entry that is reached through the kernel half changes.

The calls themselves do not enforce what `Allowed` asks.  `sys_mem_map` names frames without
taking references (`mapped_and_free`), and the only check of an address is against the start of
the kernel's mapping, which leaves a gap of canonical and non-canonical addresses whose PML4 slot
is the kernel's (`kernel_slot_written`).
-/

namespace Xos.Mem

open Xos.Lib Xos.Lib.Radix Function

/-- The roots of the live address spaces. -/
def Sys.roots (s : Sys) : Set ℕ := {r | ∃ pid, s.space pid = some r}

/-- The invariant of the calls. -/
structure Good (R : Set ℕ) (s : Sys) : Prop where
  sound : Sound R s.roots s.toRam
  inj : ∀ i j r, s.space i = some r → s.space j = some r → i = j
  brk : ∀ i, s.brk i = 0 ∨ userHeapBase ≤ s.brk i ∧ s.brk i < userHeapMax
  free : ∀ i, s.free i = true → s.space i = none

/-- The pages of a program and of its arguments are in the user half. -/
def Program.InUser (prog : Program) (total : ℕ) : Prop :=
  (∀ x, x ∈ prog.elf.segments → x.InUser total) ∧
    ∀ b, b ∈ prog.args → ∀ x, x ∈ b → idx 3 x.va < 256

/-- What a process must not do: name an address whose PML4 slot is the kernel's, name a frame
without a reference for it, or take more references than are counted. -/
def Allowed (R : Set ℕ) (s : Sys) (a : ℕ × Call) : Prop :=
  match a.2 with
  | .memMap vaddr paddr _ => vaddr < kernelBase → idx 3 vaddr < 256 ∧
      ∀ root, s.space a.1 = some root →
        Nameable R s.roots s.toRam (root, pagePath vaddr) (paddr / 4096 % 2 ^ 40)
  | .memAlloc vaddr _ => vaddr < kernelBase → idx 3 vaddr < 256
  | .memShare vaddr target targetVaddr _ =>
    idx 3 vaddr < 256 ∧ idx 3 targetVaddr < 256 ∧ target ≠ 0 ∧
      ∀ root, s.space a.1 = some root →
        s.pmm.refcount (s.virtToPhys root vaddr / 4096) < refMax
  | .memFree vaddr => idx 3 vaddr < 256 ∧
      ∀ root pt, s.space a.1 = some root → s.pteLookup root vaddr = some pt →
        vaddr % 4096 = 0 ∨ has (s.mem pt (idx 0 vaddr)) vmmP = true
  | .mmap addr length _ =>
    ∀ va, va ∈ mmapVas s.pmm.total (if addr = 0 then s.anonBase else addr) length →
      idx 3 va < 256
  | .fork _ => ∀ root, s.space a.1 = some root → CanClone s.roots root s.toRam
  | .exec prog => prog.InUser s.pmm.total
  | .spawn prog _ => prog.InUser s.pmm.total
  | .fault cr2 _ _ => idx 3 cr2 < 256
  | .brk _ | .exit _ | .reap => True

variable {R : Set ℕ} {s t : Sys} {pid root : ℕ} {m : Ram} {flags : Word} {vaddr f : ℕ}
  {x : ℕ × List ℕ}

/-! ## The process table -/

theorem Sys.mem_roots (h : s.space pid = some root) : root ∈ s.roots := ⟨pid, h⟩

/-- What a call has done is enough to know of its result. -/
def Holds (R : Set ℕ) (s t : Sys) : Prop := Good R t ∧ Steady R s.toRam t.toRam

/-- Only the memory changes. -/
theorem Good.setRam (h : Good R s) (hm : Keeps R s.roots s.toRam m) : Holds R s (s.setRam m) :=
  ⟨⟨hm.1, h.inj, h.brk, h.free⟩, hm.2⟩

/-- The table without the space of slot `pid`. -/
def Sys.vacate (s : Sys) (pid : ℕ) (m : Ram) : Sys :=
  { s.setRam m with space := update s.space pid none }

theorem Good.roots_vacate (h : Good R s) (hpid : s.space pid = some root) :
    (s.vacate pid m).roots = s.roots \ {root} := by
  ext r
  simp only [Sys.roots, Sys.vacate, update_apply, Set.mem_ofPred_eq]
  constructor
  · rintro ⟨i, hi⟩
    split_ifs at hi with hip
    exact ⟨⟨i, hi⟩, by rintro rfl; exact hip (h.inj i pid r hi hpid)⟩
  · rintro ⟨⟨i, hi⟩, hne⟩
    have hip : i ≠ pid := by
      rintro rfl
      exact hne (Option.some.inj (hi.symm.trans hpid))
    exact ⟨i, by rw [if_neg hip, hi]⟩

/-- A slot loses its address space. -/
theorem Good.vacate (h : Good R s) (hpid : s.space pid = some root)
    (hm : Sound R (s.roots \ {root}) m) (hst : Steady R s.toRam m) :
    Holds R s (s.vacate pid m) := by
  refine ⟨⟨by rw [h.roots_vacate hpid]; exact hm, fun i j r hi hj => ?_, h.brk, fun i hi => ?_⟩,
    hst⟩
  · simp only [Sys.vacate, update_apply] at hi hj
    split_ifs at hi hj
    exact h.inj i j r hi hj
  · simp only [Sys.vacate, update_apply]
    split_ifs
    exacts [rfl, h.free i hi]

theorem roots_occupy (hpid : s.space pid = none) :
    (s.occupy pid root).roots = insert root s.roots := by
  ext r
  simp only [Sys.roots, Sys.occupy, update_apply, Set.mem_ofPred_eq]
  constructor
  · rintro ⟨i, hi⟩
    split_ifs at hi
    exacts [.inl (Option.some.inj hi).symm, .inr ⟨i, hi⟩]
  · rintro (rfl | ⟨i, hi⟩)
    · exact ⟨pid, if_pos rfl⟩
    · exact ⟨i, by rw [if_neg (by rintro rfl; simp [hpid] at hi), hi]⟩

section

variable (h : Good R s)
include h

/-- A slot gets a new address space. -/
theorem Good.settle (hpid : s.space pid = none) (hroot : root ∉ s.roots)
    (hm : Sound R (insert root s.roots) m) (hst : Steady R s.toRam m) :
    Holds R s ((s.setRam m).occupy pid root) := by
  have hroots : ((s.setRam m).occupy pid root).roots = insert root s.roots := roots_occupy hpid
  refine ⟨⟨by rw [hroots]; exact hm, fun i j r hi hj => ?_, h.brk, fun i hi => ?_⟩, hst⟩
  · simp only [Sys.occupy, update_apply] at hi hj
    split_ifs at hi hj with hip hjp hjp
    · rw [hip, hjp]
    · exact absurd ⟨j, Option.some.inj hi ▸ hj⟩ hroot
    · exact absurd ⟨i, Option.some.inj hj ▸ hi⟩ hroot
    · exact h.inj i j r hi hj
  · simp only [Sys.occupy, update_apply] at hi ⊢
    split_ifs at hi ⊢
    exact h.free i hi

/-- A slot gets another address space. -/
theorem Good.replace (hpid : s.space pid = some root) (hnew : new ∉ s.roots)
    (hm : Sound R (insert new s.roots \ {root}) m) (hst : Steady R s.toRam m) :
    Holds R s { s.setRam m with space := update s.space pid (some new) } := by
  have hne : new ≠ root := fun hc => hnew (hc ▸ Sys.mem_roots hpid)
  have hset : insert new s.roots \ {root} = insert new (s.roots \ {root}) :=
    Set.insert_sdiff_of_notMem _ fun hc => hne hc
  rw [hset] at hm
  obtain ⟨h1, -⟩ := h.vacate hpid (hm.mono (Set.subset_insert _ _)) hst
  have hroots := h.roots_vacate (m := m) hpid
  obtain ⟨h2, -⟩ := h1.settle (m := m) (show (s.vacate pid m).space pid = none by simp [Sys.vacate])
    (by rw [hroots]; exact fun hc => hnew hc.1) (by rw [hroots]; exact hm) Steady.refl
  have hfree : s.free pid = false :=
    Bool.eq_false_iff.mpr fun hf => by simp [h.free pid hf] at hpid
  refine ⟨?_, hst⟩
  have heq : ((s.vacate pid m).setRam m).occupy pid new =
      { s.setRam m with space := update s.space pid (some new) } := by
    simp only [Sys.vacate, Sys.occupy, Sys.setRam, update_idem]
    rw [← hfree, update_eq_self]
  exact heq ▸ h2

theorem Good.freeSlot (hi : s.freeSlot = some i) : s.space i = none := by
  have := List.find?_some hi
  simp only [Bool.and_eq_true] at this
  exact h.free i this.2

theorem Good.brk_set (pid : ℕ) (hv : v = 0 ∨ userHeapBase ≤ v ∧ v < userHeapMax) :
    Good R { s with brk := update s.brk pid v } := by
  refine ⟨h.sound, h.inj, fun i => ?_, h.free⟩
  by_cases hi : i = pid
  · simpa [hi] using hv
  · simpa [hi] using h.brk i

/-! ## The calls -/

theorem Good.refl : Holds R s s := ⟨h, Steady.refl⟩

theorem Good.memMap (ha : Allowed R s (pid, .memMap vaddr paddr flags)) :
    Holds R s (sysMemMap s pid vaddr paddr flags).2 := by
  unfold sysMemMap
  split
  · exact h.refl
  obtain ⟨hu, hname⟩ := ha (by omega)
  split
  · exact h.refl
  next root hroot =>
  have hk := h.sound.mapNameable (Sys.mem_roots hroot) hu (@userFlags_mask flags)
    (hname root hroot)
  split <;> next m heq => rw [heq] at hk; exact h.setRam hk

theorem Good.memAlloc (ha : Allowed R s (pid, .memAlloc vaddr flags)) :
    Holds R s (sysMemAlloc s pid vaddr flags).2 := by
  unfold sysMemAlloc
  split
  · exact h.refl
  have hu : idx 3 vaddr < 256 := ha (by omega)
  rcases h.sound.allocFill with heq | ⟨f, hf0, -, -, heq, ht, -⟩
  · rw [heq]
    exact h.setRam h.sound.keeps
  rw [heq]
  split
  · next h0 => cases h0; exact absurd rfl hf0
  next h0 =>
  cases h0
  split
  · exact h.setRam (ht.keeps.trans (ht.sound.giveBack ht.fresh))
  next root hroot =>
  obtain ⟨h1, hst, hfr⟩ := ht.sound.mapFresh (Sys.mem_roots hroot) hu ht.fresh userFlags_mask
  have hk := ht.keeps.trans ⟨h1, hst⟩
  split
  · next m heq' =>
      rw [heq'] at hk hfr
      exact h.setRam (hk.trans (hk.1.giveBack (hfr rfl)))
  next m heq' =>
    rw [heq'] at hk
    exact h.setRam hk

theorem Good.memFree (ha : Allowed R s (pid, .memFree vaddr)) :
    Holds R s (sysMemFree s pid vaddr).2 := by
  obtain ⟨hu, hpage⟩ := ha
  unfold sysMemFree
  split
  · exact h.refl
  next root hroot =>
  simp only
  split
  · exact h.refl
  next hpa =>
  have hr := Sys.mem_roots hroot
  obtain ⟨pt, hpt, hframe, hcase⟩ := h.sound.virtToPhys_cases hr hu hpa
  have hlook : s.pteLookup root vaddr = some pt := ((h.sound.walks hr hu).1).trans hpt
  rcases hcase with ⟨-, hview⟩ | ⟨h0, hal⟩
  · rw [hframe]
    obtain ⟨h1, hc⟩ := h.sound.freePage hr hu hpt hview
    exact h.setRam ⟨h1, hc.toSteady⟩
  rcases hpage root pt hroot hlook with hal' | hp
  · exact absurd hal' hal
  · simp [h0, show has 0#64 vmmP = false by decide] at hp

end

theorem follow_shared : follow (e ||| vmmSHARED) = follow e := by
  unfold follow
  rw [has_or, frameOf_or (by decide), show has vmmSHARED vmmP = false by decide, Bool.or_false]

theorem Good.memShare (h : Good R s)
    (ha : Allowed R s (pid, .memShare vaddr target targetVaddr flags)) :
    Holds R s (sysMemShare s pid vaddr target targetVaddr flags).2 := by
  obtain ⟨hu, hut, htarget, hmax⟩ := ha
  unfold sysMemShare
  split
  · exact h.refl
  split
  · exact h.refl
  next root hroot =>
  simp only
  split
  · exact h.refl
  next hpa =>
  split
  · exact h.refl
  next dst hdst =>
  have hr := Sys.mem_roots hroot
  have hdst : dst ∈ s.roots := by
    unfold Sys.rootOf at hdst
    rw [if_neg htarget] at hdst
    exact Sys.mem_roots hdst
  obtain ⟨pt, hpt, hframe, hcase⟩ := h.sound.virtToPhys_cases hr hu hpa
  have hmax := hmax root hroot
  unfold Pmm.refcount at hmax
  rcases hcase with ⟨-, hpage⟩ | ⟨-, hne⟩
  swap
  · exact absurd (by omega : vaddr % 4096 = 0) hne
  rw [hframe] at hmax ⊢
  generalize hf : frameOf (s.mem pt (idx 0 vaddr)) = f at *
  have h1 : Sound R s.roots (s.toRam.ref f) := h.sound.ref
  obtain ⟨m, hm, hg, hmap⟩ :=
    h1.mapPage_cases hdst hut f (userFlags flags ||| vmmSHARED)
  have hst : Steady R s.toRam m := Steady.ref.trans hg.toSteady
  have hpage' : m.view s.roots (root, pagePath vaddr) = some f := hg.view _ _ hpage
  have hspare : f < m.pmm.total → m.held s.roots f < m.pmm.refcnt f := fun hlt => by
    rw [hst.total] at hlt
    rw [if_neg (by omega)] at hmax
    have h2 := h.sound.spare_ref hpage (fun _ => hmax) hlt
    have h3 := hg.slack f (by rw [Ram.ref_pmm, Pmm.refFrame_total]; exact hlt)
    omega
  rcases hmap with heq | ⟨pt', hpt', heq⟩
  · -- no memory for a table: the reference is given back
    rw [heq]
    have hhome := hm.home _ f hpage'
    have hplace := hhome.2.imp_right And.right
    exact h.setRam ⟨hm.unref hhome.1 hplace hspare, hst.trans (Steady.unref hm.total_le hplace)⟩
  rw [heq]
  have hmask : (userFlags flags ||| vmmSHARED) &&& physMask = 0#64 :=
    or_mask userFlags_mask (by decide)
  have hfol : follow (mkEntry f (userFlags flags ||| vmmSHARED ||| vmmP)) = some f := by
    rw [follow_mkEntry_present hmask, Nat.mod_eq_of_lt (hf ▸ frameOf_lt)]
  obtain ⟨h2, hst2, hview⟩ := hm.enterLeaf hpt' rfl (userPath_pagePath hut) hfol
    (hm.nameable_spare hpage' rfl hspare _)
  have hst' := hst.trans hst2
  simp only
  split
  · exact h.setRam ⟨h2, hst'⟩
  next pt2 hlook =>
  -- the entry of the caller is marked, whether or not it is the one just written
  generalize m.setWord pt' (idx 0 targetVaddr)
    (mkEntry f (userFlags flags ||| vmmSHARED ||| vmmP)) = u at *
  have hpt2 : u.view s.roots (root, upper vaddr) = some pt2 := ((h2.walks hr hu).1).symm.trans hlook
  have hpg : u.view s.roots (root, pagePath vaddr) = some f := by
    rw [hview]
    by_cases hx : ((root, pagePath vaddr) : ℕ × List ℕ) = (dst, pagePath targetVaddr)
    · rw [hx]
      exact update_self _ _ _
    · exact (update_of_ne hx _ _).trans hpage'
  have hfol2 := view_snoc_follow hpt2 (by simp [upper]) (userPath_pagePath hu)
  have hpres : has (u.mem pt2 (idx 0 vaddr)) vmmP = true :=
    (follow_some_iff.mp (hfol2.symm.trans hpg)).1
  obtain ⟨h3, hst3, -⟩ := h2.setFlags hu hpt2 hpres follow_shared
  exact h.setRam ⟨h3, hst'.trans hst3⟩

theorem idx_heap (hva : va < userHeapMax + 4096) : idx 3 va < 256 := by
  unfold userHeapMax at hva
  unfold idx
  omega

theorem idx_pagesFrom (hb : b < userHeapMax) :
    ∀ va, va ∈ pagesFrom a (pageUp b) → idx 3 va < 256 := by
  intro va hva
  simp only [pagesFrom, List.mem_map, List.mem_range] at hva
  obtain ⟨i, hi, rfl⟩ := hva
  refine idx_heap ?_
  unfold pageUp at hi
  omega

section

variable (h : Good R s)
include h

/-- `sys_brk` after the break is set up. -/
theorem Good.brkFrom (hroot : s.space pid = some root) (h1 : userHeapBase ≤ addr)
    (h2 : addr < userHeapMax) :
    Holds R s (if pageUp (s.brk pid) < pageUp addr then
        match mapRun root (vmmU ||| vmmRW) (fun _ => none) false
          (pagesFrom (pageUp (s.brk pid)) (pageUp addr)) s.toRam with
        | (false, m) => (s.brk pid, s.setRam m)
        | (true, m) => (addr, { s.setRam m with brk := update s.brk pid addr })
      else
        (addr, { s.setRam ((pagesFrom (pageUp addr) (pageUp (s.brk pid))).foldl
          (fun m va => m.unmapPage root va) s.toRam) with
            brk := update s.brk pid addr })).2 := by
  have hr := Sys.mem_roots hroot
  have hbrk : s.brk pid < userHeapMax := by
    rcases h.brk pid with h0 | h0
    exacts [h0 ▸ by decide, h0.2]
  split
  · have hk := (h.sound.mapRun hr (show (vmmU ||| vmmRW) &&& physMask = 0#64 by decide)
      (idx_pagesFrom (a := pageUp (s.brk pid)) h2) (fun _ => none) false).1.keeps
    split
    · next m heq => rw [heq] at hk; exact h.setRam hk
    next m heq =>
      rw [heq] at hk
      exact (h.setRam hk).imp_left fun h4 => h4.brk_set pid (.inr ⟨h1, h2⟩)
  · exact (h.setRam (h.sound.unmapRun hr (idx_pagesFrom hbrk))).imp_left fun h4 =>
      h4.brk_set pid (.inr ⟨h1, h2⟩)

/-- A field that the memory does not depend on may be set first. -/
theorem Good.first {c : Prop} [Decidable c] (hv : Good R v) (hram : v.toRam = s.toRam)
    (hspace : v.space = s.space) :
    ∃ u, (if c then v else s) = u ∧ Good R u ∧ u.toRam = s.toRam ∧ u.space = s.space ∧
      ∀ t, Holds R u t → Holds R s t := by
  split
  · exact ⟨v, rfl, hv, hram, hspace, fun t ht => ⟨ht.1, hram ▸ ht.2⟩⟩
  · exact ⟨s, rfl, h, rfl, rfl, fun _ => id⟩

theorem Good.sysBrk : Holds R s (sysBrk s pid addr).2 := by
  unfold Xos.Mem.sysBrk
  split
  · exact h.refl
  next root hroot =>
  split
  · exact h.refl
  -- the break starts at the base of the heap
  obtain ⟨u, hu, hgood, -, hspace, hback⟩ := h.first (c := s.brk pid = 0)
    (h.brk_set pid (v := userHeapBase) (.inr (by decide))) rfl rfl
  rw [hu]
  apply hback
  split
  · exact hgood.refl
  split
  · exact hgood.refl
  exact hgood.brkFrom (hspace ▸ hroot) (show userHeapBase ≤ addr by omega) (by omega)

theorem Good.sysMmap (ha : Allowed R s (pid, .mmap addr length prot)) :
    Holds R s (sysMmap s pid addr length prot).2 := by
  unfold Xos.Mem.sysMmap
  obtain ⟨u, hu, hgood, hram, -, hback⟩ := h.first (c := addr = 0)
    (v := { s with anonBase := (s.anonBase + (length + 4095) % 2 ^ 64 / 4096 * 4096) % 2 ^ 64 })
    ⟨h.sound, h.inj, h.brk, h.free⟩ rfl rfl
  simp only
  rw [hu]
  apply hback
  split
  · exact hgood.refl
  next root hroot =>
  have hvas : ∀ va, va ∈ mmapVas u.pmm.total (if addr = 0 then s.anonBase else addr) length →
      idx 3 va < 256 := by
    rw [hram]
    exact ha
  have hk := (hgood.sound.mapRun (Sys.mem_roots hroot) (mmapFlags_mask prot) hvas
    (fun _ => none) true).1.keeps
  split <;> next m heq => rw [heq] at hk; exact hgood.setRam hk

theorem Good.fork (ha : Allowed R s (pid, .fork kstack)) :
    Holds R s (fork s pid kstack).2 := by
  unfold Xos.Mem.fork
  split
  · exact h.refl
  next root hroot =>
  rcases h.sound.cloneUser (Sys.mem_roots hroot) (ha root hroot) with
    ⟨m, heq, hm, hf⟩ | ⟨dst, m, hd0, hdA, heq, hm, hf⟩
  · rw [heq]
    exact h.setRam ⟨hm, hf.toSteady⟩
  rw [heq]
  -- without a slot or a stack the copy is given up again
  have hdrop : Holds R s (s.setRam (m.dropSpace dst)) := by
    obtain ⟨h1, hd⟩ := hm.dropSpace (Set.mem_insert dst _)
    rw [Set.insert_sdiff_self_of_notMem hdA] at h1
    exact h.setRam ⟨h1, hf.toSteady.trans hd.toSteady⟩
  split
  · next h0 => cases h0; exact absurd rfl hd0
  next h0 =>
  cases h0
  split
  · split
    · exact hdrop
    · next i hi => exact h.settle (h.freeSlot hi) hdA hm hf.toSteady
  · exact hdrop

end

/-- `proc_brk_reset`. -/
def Sys.brkReset (s : Sys) (pid : ℕ) : Sys :=
  if pid < brkSlots then { s with brk := update s.brk pid 0 } else s

theorem Sys.brkReset_ram : (s.brkReset pid).toRam = s.toRam := by
  unfold Sys.brkReset
  split <;> rfl

theorem Sys.brkReset_space : (s.brkReset pid).space = s.space := by
  unfold Sys.brkReset
  split <;> rfl

theorem Sys.brkReset_eq (h : pid < brkSlots → s.brk pid = 0) : s.brkReset pid = s := by
  unfold Sys.brkReset
  split
  · next hlt => rw [← h hlt, update_eq_self]
  · rfl

section

variable (h : Good R s)
include h

/-- The call as its three ends: before there is a new space, with one that could not be completed,
and with one that could. -/
theorem exec_cases (pid : ℕ) (prog : Program) :
    exec s pid prog = (failed, s.brkReset pid) ∨
    ∃ old root m, s.space pid = some old ∧ s.createPml4 = (root, m) ∧ root ≠ 0 ∧ root ∉ s.roots ∧
      Sound R (insert root s.roots) m ∧ Created R s.roots root s.toRam m ∧
      ((loadImage prog root m).1 = false ∧ exec s pid prog =
          (failed, (s.brkReset pid).setRam ((loadImage prog root m).2.dropSpace root)) ∨
        (loadImage prog root m).1 = true ∧ exec s pid prog =
          (0, { (s.brkReset pid).setRam ((prog.args.foldl (fun m block => writeBlock root block m)
              (loadImage prog root m).2).dropSpace old) with
            space := update s.space pid (some root) })) := by
  unfold exec
  rw [show (if pid < brkSlots then { s with brk := update s.brk pid 0 } else s) =
    s.brkReset pid from rfl]
  dsimp only
  rw [Sys.brkReset_space, Sys.brkReset_ram]
  split
  · exact .inl rfl
  next old hold =>
  split
  swap
  · exact .inl rfl
  rcases h.sound.createPml4 with heq | ⟨root, m, h0, hrA, heq, hm, hc⟩
  · rw [heq]
    refine .inl ?_
    have hram : (s.brkReset pid).toRam = s.toRam := Sys.brkReset_ram
    rw [← hram]
    rfl
  refine .inr ⟨old, root, m, hold, heq, h0, hrA, hm, hc, ?_⟩
  rw [heq]
  split
  · next h0' => cases h0'; exact absurd rfl h0
  next h0' =>
  cases h0'
  split
  · next m' hload =>
      rw [hload]
      exact .inl ⟨rfl, rfl⟩
  next m' hload =>
    rw [hload]
    exact .inr ⟨rfl, rfl⟩

theorem Good.brkReset : Good R (s.brkReset pid) := by
  unfold Sys.brkReset
  split
  · exact h.brk_set pid (.inl rfl)
  · exact h

theorem Good.exec (ha : Allowed R s (pid, .exec prog)) :
    Holds R s (exec s pid prog).2 := by
  obtain ⟨hseg, hargs⟩ : prog.InUser s.pmm.total := ha
  have hreset : ∀ t, Holds R s t → Holds R s (t.brkReset pid) := fun t ht =>
    ⟨ht.1.brkReset, by rw [Sys.brkReset_ram]; exact ht.2⟩
  rcases exec_cases h pid prog with heq | ⟨old, new, m, hold, -, -, hnA, hm, hc, hcase⟩
  · rw [heq]
    exact hreset s h.refl
  have hr : new ∈ insert new s.roots := Set.mem_insert _ _
  obtain ⟨h1, hst1⟩ := (hm.loadImage hr (hc.total ▸ hseg)).1.keeps
  have hst := hc.toSteady.trans hst1
  rcases hcase with ⟨-, heq⟩ | ⟨-, heq⟩ <;> rw [heq]
  · obtain ⟨h2, hd⟩ := h1.dropSpace hr
    rw [Set.insert_sdiff_self_of_notMem hnA] at h2
    convert hreset _ (h.setRam ⟨h2, hst.trans hd.toSteady⟩) using 1
    unfold Sys.brkReset
    split <;> rfl
  · obtain ⟨⟨h2, hst2⟩, -⟩ := h1.writeArgs hr hargs
    obtain ⟨h3, hd⟩ := h2.dropSpace (Set.mem_insert_of_mem _ (Sys.mem_roots hold))
    convert hreset _ (h.replace hold hnA h3 ((hst.trans hst2).trans hd.toSteady)) using 1
    unfold Sys.brkReset
    split <;> rfl

theorem Good.spawn (ha : Allowed R s (pid, .spawn prog kstack)) :
    Holds R s (spawn s prog kstack).2 := by
  unfold Xos.Mem.spawn
  obtain ⟨hseg, -⟩ : prog.InUser s.pmm.total := ha
  split
  swap
  · exact h.refl
  rcases h.sound.createPml4 with heq | ⟨new, m, hn0, hnA, heq, hm, hc⟩
  · rw [heq]
    exact h.setRam h.sound.keeps
  rw [heq]
  split
  · next h0 => cases h0; exact absurd rfl hn0
  next h0 =>
  cases h0
  obtain ⟨h1, hst1⟩ := (hm.loadImage (Set.mem_insert _ _) (hc.total ▸ hseg)).1.keeps
  have hst := hc.toSteady.trans hst1
  -- a failed call leaves the new space behind, and nothing leads to it
  have hleft := h.setRam ⟨h1.mono (Set.subset_insert _ _), hst⟩
  split
  · next m' heq' => rw [heq'] at hleft; exact hleft
  next m' heq' =>
    rw [heq'] at h1 hst hleft
    split
    · split
      · exact hleft
      · next i hi => exact h.settle (h.freeSlot hi) hnA h1 hst
    · exact hleft

theorem Good.exit : Holds R s (exit s pid byCall).2 := by
  unfold Xos.Mem.exit
  obtain ⟨u, hu, hgood, -, -, hback⟩ := h.first (c := byCall = true ∧ pid < brkSlots)
    (h.brk_set pid (.inl rfl)) rfl rfl
  simp only
  rw [hu]
  apply hback
  split
  · exact hgood.refl
  next root hroot =>
  obtain ⟨h1, hd⟩ := hgood.sound.dropSpace (Sys.mem_roots hroot)
  exact hgood.vacate hroot h1 hd.toSteady

theorem Good.reap : Holds R s (reap s pid).2 := by
  unfold Xos.Mem.reap
  split
  · next hnone =>
      refine ⟨{ h with free := fun i hi => ?_ }, Steady.refl⟩
      simp only [update_apply] at hi
      split_ifs at hi with hip
      exacts [hip ▸ hnone, h.free i hi]
  · exact h.refl

theorem Good.fault (ha : Allowed R s (pid, .fault cr2 present write)) :
    Holds R s (fault s pid cr2 present write).2 := by
  unfold Xos.Mem.fault
  split
  · exact h.refl
  next root hroot =>
  exact h.setRam (h.sound.handlePageFault (Sys.mem_roots hroot) ha present write)

/-- **Every allowed call keeps the invariant.** -/
theorem Good.call (ha : Allowed R s a) :
    Holds R s (call s a.1 a.2).2 := by
  obtain ⟨pid, c⟩ := a
  cases c with
  | memMap => exact h.memMap ha
  | memAlloc => exact h.memAlloc ha
  | memShare => exact h.memShare ha
  | memFree => exact h.memFree ha
  | brk => exact h.sysBrk
  | mmap => exact h.sysMmap ha
  | fork => exact h.fork ha
  | exec => exact h.exec ha
  | spawn => exact h.spawn ha
  | exit => exact h.exit
  | reap => exact h.reap
  | fault => exact h.fault ha

/-- What holds along a run of allowed calls. -/
theorem Good.run (hrun : Run Step (Allowed R) s as t) :
    Holds R s t := by
  refine hrun.invariant (I := Holds R s) h.refl ?_
  rintro u a u' ⟨hu, hst⟩ ha rfl
  obtain ⟨h1, h2⟩ := hu.call ha
  exact ⟨h1, hst.trans h2⟩

end

/-! ## Mapped frames -/

/-- The present entries of live address spaces that name the frame `f` as a page: each is given
by the PML4 and the indices that lead to it. -/
def Sys.leaves (s : Sys) (f : ℕ) : Set (ℕ × List ℕ) :=
  {x | x.1 ∈ s.roots ∧ UserPath x.2 ∧ x.2.length = 4 ∧ node follow s.mem x.1 x.2 = some f}

theorem leaves_subset (f : ℕ) : s.leaves f ⊆ holders (s.view s.roots) f := by
  rintro ⟨r, p⟩ ⟨hr, hp, hl, hn⟩
  exact (Ram.view_eq hr hp (le_of_eq hl)).trans hn

/-- **No mapped frame is free.**  Along every run of allowed calls, a frame that some address
space maps is marked used, and it is counted at least once for every entry that names it. -/
theorem mapped_not_free {as : List (ℕ × Call)} {f : ℕ} (h : Good R s)
    (hrun : Run Step (Allowed R) s as t) (hf : f < maxFrames) (hmapped : (t.leaves f).Nonempty) :
    t.pmm.used f = true ∧ (t.leaves f).ncard ≤ t.pmm.refcnt f := by
  have ht := (h.run hrun).1.sound
  obtain ⟨x, hx⟩ := hmapped
  have hview := leaves_subset f hx
  have hlt : f < t.pmm.total := (ht.home x f hview).2.resolve_right fun hmax => by omega
  refine ⟨ht.used hview hlt, ?_⟩
  exact (Set.ncard_le_ncard (leaves_subset f) ht.finite_holders).trans (ht.refs f hlt)

/-- A machine with 64 free frames after the first mebibyte, before the first process.  The kernel
half of its PML4, which is frame 1, leads to frame 2. -/
def smallMachine : Sys where
  pmm :=
    { total := 320, used := fun f => f < 256, refcnt := fun f => if f < 256 then 1 else 0,
      usedFrames := 256, hint := 256 }
  mem f i := if f = 1 ∧ i = 256 then mkEntry 2 (vmmP ||| vmmRW) else 0#64
  kernel := 1
  space _ := none
  free i := 1 ≤ i
  brk _ := 0
  anonBase := 0x10000000000

/-- Without processes the invariant is about the manager only. -/
theorem good_initial (hspace : ∀ pid, s.space pid = none) (hbrk : ∀ pid, s.brk pid = 0)
    (hcounted : ∀ f, f < s.pmm.total → (s.pmm.used f = true ↔ 0 < s.pmm.refcnt f))
    (htotal : s.pmm.total ≤ maxFrames)
    (hreserved : ∀ f, f ∈ R → f < s.pmm.total → s.pmm.used f = true) (hzero : 0 ∈ R)
    (hkernel : s.kernel ∈ R) (hkernel0 : s.kernel ≠ 0) : Good R s := by
  have hroots : s.roots = ∅ := by
    simp [Sys.roots, hspace]
  have hview : ∀ x, s.view s.roots x = none := fun x =>
    view_none fun hc => by rw [hroots] at hc; exact hc.1
  have hheld : ∀ f, s.held s.roots f = 0 := fun f => by
    have hnone : holders (s.view s.roots) f = ∅ := by
      simp [holders, hview]
    unfold Ram.held
    rw [hnone, Set.ncard_empty]
  refine ⟨?_, fun i j r hi => ?_, fun i => .inl (hbrk i), fun i _ => hspace i⟩
  · exact {
      finite := by rw [hroots]; exact Set.finite_empty
      sole := fun x y f hx => by simp [hview] at hx
      home := fun x f hx => by simp [hview] at hx
      refs := fun f _ => by rw [hheld]; exact Nat.zero_le _
      counted := hcounted
      total_le := htotal
      reserved := hreserved
      zero := hzero
      kernel := hkernel
      kernel_ne := hkernel0
      half := fun r hr => by simp [hroots] at hr
      tidy := fun x f i hx => by simp [hview] at hx }
  · simp [hspace] at hi

theorem smallMachine_good : Good {f | f < 256} smallMachine := by
  refine good_initial (fun _ => rfl) (fun _ => rfl) (fun f _ => ?_) (by decide)
    (fun f hf _ => decide_eq_true hf) (by decide) (by decide) (by decide)
  show decide (f < 256) = true ↔ 0 < if f < 256 then 1 else 0
  by_cases hf : f < 256 <;> simp [hf]

/-- A program without segments and arguments. -/
def emptyProgram : Program where
  elf := { valid := true, len := 64, segments := [], data := fun _ => 0#8 }
  sigreturn := 95
  args := []

/-- The state after a list of calls. -/
def callAll (s : Sys) (as : List (ℕ × Call)) : Sys :=
  as.foldl (fun s a => (call s a.1 a.2).2) s

/-- One process gets a page and shares it with another one. -/
def sharing : List (ℕ × Call) :=
  [(0, .spawn emptyProgram true), (0, .spawn emptyProgram true), (1, .memAlloc 0x1000 vmmRW),
    (1, .memShare 0x1000 2 0x5000 vmmRW)]

theorem inUser_emptyProgram (total : ℕ) : emptyProgram.InUser total := by
  simp [Program.InUser, emptyProgram]

theorem sharing_allowed :
    Run Step (Allowed {f | f < 256}) smallMachine sharing (callAll smallMachine sharing) := by
  refine .cons (inUser_emptyProgram _) rfl <| .cons (inUser_emptyProgram _) rfl <|
    .cons (fun _ => by decide) rfl <| .cons ⟨by decide, by decide, by decide, ?_⟩ rfl .nil
  intro root hroot
  have h256 : (256 : ℕ) = root := by
    refine Option.some.inj (Eq.trans ?_ hroot)
    decide +kernel
  rw [← h256]
  decide +kernel

theorem sharing_mapped : (279, pagePath 0x5000) ∈ (callAll smallMachine sharing).leaves 302 := by
  refine ⟨⟨2, ?_⟩, ?_, rfl, ?_⟩ <;> decide +kernel

/-- The shared page is counted twice. -/
theorem shared_page_counted :
    (callAll smallMachine sharing).pmm.used 302 = true ∧
      ((callAll smallMachine sharing).leaves 302).ncard ≤
        (callAll smallMachine sharing).pmm.refcnt 302 ∧
      (callAll smallMachine sharing).pmm.refcnt 302 = 2 := by
  obtain ⟨h1, h2⟩ := mapped_not_free smallMachine_good sharing_allowed (by decide)
    ⟨_, sharing_mapped⟩
  exact ⟨h1, h2, by decide +kernel⟩

/-- **Page tables are private.**  Along every run of allowed calls, a PML4 or table of an address
space is a used frame and not reserved, and no other entry leads to it: no process maps it as a
page. -/
theorem tables_private {as : List (ℕ × Call)} {x : ℕ × List ℕ} {f : ℕ} (h : Good R s)
    (hrun : Run Step (Allowed R) s as t) (hx : t.view t.roots x = some f) (hl : x.2.length < 4) :
    t.pmm.used f = true ∧ f ∉ R ∧ ∀ y, t.view t.roots y = some f → y = x := by
  have ht := (h.run hrun).1.sound
  exact ⟨ht.used hx (ht.table_lt hx hl), (ht.home x f hx).1, fun y => ht.sole x y f hx hl⟩

/-- The PML4 of the process that gets the shared page. -/
theorem sharing_root_private : (callAll smallMachine sharing).pmm.used 279 = true :=
  have hroot : 279 ∈ (callAll smallMachine sharing).roots := ⟨2, by decide +kernel⟩
  (tables_private smallMachine_good sharing_allowed (Sound.view_root hroot) (by decide)).1

/-- A process maps the frame of its page a second time and then frees the page. -/
def remapping : List (ℕ × Call) :=
  [(0, .spawn emptyProgram true), (1, .memAlloc 0x1000 vmmRW),
    (1, .memMap 0x2000 (279 * 4096) vmmRW), (1, .memFree 0x1000)]

/-- **A process can free a frame that stays mapped**: `sys_mem_map` takes no reference for its
entry, and `sys_mem_free` gives up the only one there is. -/
theorem mapped_and_free :
    Good {f | f < 256} smallMachine ∧
      Run Step (fun _ _ => True) smallMachine remapping (callAll smallMachine remapping) ∧
      (256, pagePath 0x2000) ∈ (callAll smallMachine remapping).leaves 279 ∧
      279 < (callAll smallMachine remapping).pmm.total ∧
      (callAll smallMachine remapping).pmm.used 279 = false := by
  refine ⟨smallMachine_good, ?_, ⟨⟨1, ?_⟩, ?_, rfl, ?_⟩, ?_, ?_⟩
  · exact .cons trivial rfl <| .cons trivial rfl <| .cons trivial rfl <| .cons trivial rfl .nil
  all_goals decide +kernel

/-! ## The kernel half -/

/-- The table that an entry leads to. -/
def tableOf (e : Word) : Option ℕ := if has e vmmPS then none else follow e

/-- The entry at the end of a path, if all tables on the way are there. -/
def Ram.entry (m : Ram) (f : ℕ) : List ℕ → Option Word
  | [] => none
  | [i] => some (m.mem f i)
  | i :: j :: p => (tableOf (m.mem f i)).bind fun g => m.entry g (j :: p)

/-- The tables of the kernel half are among the reserved frames. -/
def KernelTables (R : Set ℕ) (m : Ram) : Prop :=
  ∀ i p e g, 256 ≤ i → p.length < 3 → m.entry m.kernel (i :: p) = some e →
    tableOf e = some g → g ∈ R ∧ g ≠ 0

section Entry

variable {m m' : Ram} {K : Set ℕ} {f g i : ℕ} {p : List ℕ}

theorem entry_cons_congr (h : m.mem f i = m.mem g i) :
    m.entry f (i :: p) = m.entry g (i :: p) := by
  cases p with
  | nil | cons => simp only [Ram.entry, h]

/-- Entries are the same if the tables on the way to them are. -/
theorem entry_congr (hmem : ∀ g, g ∈ K → m'.mem g = m.mem g) (hf : f ∈ K)
    (hin : ∀ q e g, q <+: p → q ≠ p → m.entry f q = some e → tableOf e = some g → g ∈ K) :
    m'.entry f p = m.entry f p := by
  induction p generalizing f with
  | nil => rfl
  | cons i p ih =>
    cases p with
    | nil => simp only [Ram.entry, hmem f hf]
    | cons =>
      simp only [Ram.entry, hmem f hf]
      cases hg : tableOf (m.mem f i) with
      | none => rfl
      | some g =>
        have hgK : g ∈ K := hin [i] _ g (by simp) (by simp) rfl hg
        refine ih hgK fun q e g' hq hne he => ?_
        -- a path below `g` is a path below `f` with one index more
        cases q with
        | nil => cases he
        | cons k q =>
          refine hin (i :: k :: q) e g' (List.cons_prefix_cons.mpr ⟨rfl, hq⟩) ?_ ?_
          · exact fun hc => hne (List.cons.inj hc).2
          · simp only [Ram.entry, hg]
            exact he

end Entry

/-- **The kernel half stays as it is.**  Along every run of allowed calls, the entries that are
reached through the slots from 256 on, of any live address space and of the kernel itself, are
those that the kernel had at the start. -/
theorem kernel_half_untouched {as : List (ℕ × Call)} {r i : ℕ} {p : List ℕ} (h : Good R s)
    (hk : KernelTables R s.toRam) (hrun : Run Step (Allowed R) s as t)
    (hr : r ∈ t.roots ∨ r = t.kernel) (hi : 256 ≤ i) (hp : p.length < 4) :
    t.entry r (i :: p) = s.entry s.kernel (i :: p) := by
  obtain ⟨ht, hst⟩ := h.run hrun
  have hhalf : t.entry r (i :: p) = t.entry t.kernel (i :: p) := by
    rcases hr with hr | rfl
    · exact entry_cons_congr (ht.sound.half r hr i hi)
    · rfl
  rw [hhalf, hst.kernel]
  refine entry_congr (K := {g | g ∈ R ∧ g ≠ 0}) (fun g hg => hst.mem g hg.1 hg.2)
    ⟨h.sound.kernel, h.sound.kernel_ne⟩ fun q e g hq hne he => ?_
  cases q with
  | nil => cases he
  | cons k q =>
    obtain ⟨rfl, hqp⟩ := List.cons_prefix_cons.mp hq
    have hlen : q.length < p.length := by
      refine lt_of_le_of_ne hqp.length_le fun hc => hne ?_
      rw [hqp.eq_of_length hc]
    exact hk k q e g hi (by omega) he

theorem smallMachine_entry (he : smallMachine.entry f q = some e) :
    e = mkEntry 2 (vmmP ||| vmmRW) ∨ e = 0#64 := by
  induction q generalizing f with
  | nil => cases he
  | cons i q ih =>
    cases q with
    | nil =>
      cases he
      exact ite_eq_or_eq _ _ _
    | cons =>
      obtain ⟨g, -, hg⟩ := Option.bind_eq_some_iff.mp he
      exact ih hg

theorem smallMachine_kernelTables : KernelTables {f | f < 256} smallMachine.toRam := by
  intro i p e g _ _ he hg
  have hnext : some g = some 2 := by
    rcases smallMachine_entry he with rfl | rfl
    · exact hg.symm.trans (by decide)
    · exact absurd (hg.symm.trans (by decide : tableOf 0#64 = none)) (Option.some_ne_none g)
  cases hnext
  exact ⟨by decide, by decide⟩

/-- Sharing a page leaves the kernel half alone. -/
theorem sharing_kernel_half :
    (callAll smallMachine sharing).entry 279 [256, 0] = smallMachine.entry 1 [256, 0] :=
  kernel_half_untouched (r := 279) (i := 256) (p := [0]) smallMachine_good
    smallMachine_kernelTables sharing_allowed (.inl ⟨2, by decide +kernel⟩) (by decide) (by decide)

/-- A process asks for a page at the first address after the user half. -/
def crossing : List (ℕ × Call) :=
  [(0, .spawn emptyProgram true), (1, .memAlloc 0x800000000000 vmmRW)]

/-- **A process can add entries to the kernel half**: the address `0x800000000000` is below the
start of the kernel's mapping, but its PML4 slot is 256, and the table behind it is shared with
the kernel. -/
theorem kernel_slot_written :
    Good {f | f < 256} smallMachine ∧ KernelTables {f | f < 256} smallMachine.toRam ∧
      Run Step (fun _ _ => True) smallMachine crossing (callAll smallMachine crossing) ∧
      smallMachine.entry 1 [256, 0] = some 0#64 ∧
      (callAll smallMachine crossing).entry 1 [256, 0] =
        some (mkEntry 280 (vmmP ||| vmmRW ||| vmmU)) := by
  refine ⟨smallMachine_good, smallMachine_kernelTables, ?_, ?_, ?_⟩
  · exact .cons trivial rfl <| .cons trivial rfl .nil
  all_goals decide +kernel

end Xos.Mem
