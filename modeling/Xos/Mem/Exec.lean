import Xos.Mem.Building
import Xos.Mem.Lifetime

/-!
# Replacing an address space

What `sys_exec` does to memory.  It builds the new space beside the old one and lets go of one of
the two at the end, so there are two things to say:

* **`exec_restores`** — if it fails, and the load was clean as far as it got, no count, no used
  frame and no word of a used frame has changed (but the break has been reset);
* **`exec_replaces`** — if it succeeds, every page of the process is a frame that was free.
-/

namespace Xos.Mem

open Xos.Lib.Radix Function

variable {R A : Set ℕ} {s t : Ram} {f g r va : ℕ}

/-! ## A space that comes and goes -/

/-- No count, no used frame and no word of a used frame differs. -/
structure Unchanged (s t : Ram) : Prop where
  total : t.pmm.total = s.pmm.total
  kernel : t.kernel = s.kernel
  refcnt : ∀ f, f < s.pmm.total → t.pmm.refcnt f = s.pmm.refcnt f
  used : ∀ f, f < s.pmm.total → t.pmm.used f = s.pmm.used f
  usedFrames : Balanced s.pmm → t.pmm.usedFrames = s.pmm.usedFrames
  mem : ∀ f, (f < s.pmm.total → s.pmm.used f = true) → t.mem f = s.mem f

theorem Unchanged.refl : Unchanged s s :=
  ⟨rfl, rfl, fun _ _ => rfl, fun _ _ => rfl, fun _ => rfl, fun _ _ => rfl⟩

/-- Equal counts mean equal bitmaps, and equal numbers of used frames. -/
theorem Unchanged.of_refcnt (hs : Sound R A s) (ht : Sound R A t) (hst : Steady R s t)
    (href : ∀ f, f < s.pmm.total → t.pmm.refcnt f = s.pmm.refcnt f)
    (hmem : ∀ f, (f < s.pmm.total → s.pmm.used f = true) → t.mem f = s.mem f) :
    Unchanged s t := by
  have hused : ∀ f, f < s.pmm.total → t.pmm.used f = s.pmm.used f := by
    intro f hf
    have h1 := hs.counted f hf
    have h2 := ht.counted f (by rwa [hst.total])
    rw [href f hf, ← h1] at h2
    exact Bool.eq_iff_iff.mpr h2
  refine ⟨hst.total, hst.kernel, href, hused, fun hb => ?_, hmem⟩
  have hcount : t.pmm.usedCount = s.pmm.usedCount := by
    unfold Pmm.usedCount
    rw [hst.total]
    congr 1
    refine Finset.filter_congr fun f hf => ?_
    rw [hused f (Finset.mem_range.mp hf)]
  rw [show t.pmm.usedFrames = _ from hst.balanced hb, hcount]
  exact hb.symm

/-- A new space that was built exactly and given up again. -/
theorem Created.undone (h : Sound R A s) (hrA : r ∉ A) (hc : Created R A r s m)
    (hb : Builds R (insert r A) r m m') (he : Exact (insert r A) m m')
    (hm' : Sound R (insert r A) m') : Unchanged s (m'.dropSpace r) := by
  obtain ⟨h2, hd⟩ := hm'.dropSpace (Set.mem_insert r A)
  have hdrop : insert r A \ {r} = A := Set.insert_sdiff_self_of_notMem hrA
  rw [hdrop] at h2
  have htot : m'.pmm.total = s.pmm.total := hb.total.trans hc.total
  have hroot : ∀ p f, m.view (insert r A) (r, p) = some f → f = r := by
    intro p f hp
    rw [hc.view] at hp
    by_cases hp0 : p = []
    · subst hp0
      rw [update_self] at hp
      exact (Option.some.inj hp).symm
    · rw [update_of_ne fun heq => hp0 (congrArg Prod.snd heq)] at hp
      exact absurd (view_some_iff.mp hp).1 hrA
  -- the other spaces are where they were
  have hview : (m'.dropSpace r).view A = s.view A := by
    funext x
    by_cases hx : x.1 = r
    · have hnone : ∀ u : Ram, u.view A x = none := fun u =>
        view_none fun hcon => hrA (hx ▸ hcon.1)
      rw [hnone, hnone]
    have h1 := hd.kept x hx
    rw [hdrop, hb.kept x hx, hc.view, update_of_ne fun heq => hx (by rw [heq])] at h1
    exact h1
  have hheld : ∀ f, (m'.dropSpace r).held A f = s.held A f := by
    intro f
    unfold Ram.held
    rw [hview]
  refine Unchanged.of_refcnt h h2 ((hc.toSteady.trans hb.toSteady).trans hd.toSteady) ?_ ?_
  · intro f hf
    have h1 := hc.slack f hf
    have h2 := he f (by rwa [hc.total])
    have h3 := hd.slack f (by rwa [htot])
    rw [hdrop, show ((m'.destroyUser r).unref r).held A f = _ from hheld f] at h3
    show ((m'.destroyUser r).unref r).pmm.refcnt f = _
    omega
  · intro f hf
    have hfr : f ≠ r := by
      rintro rfl
      have := hf hc.lt
      rw [hc.free] at this
      cases this
    have hu : f < m.pmm.total → m.pmm.used f = true := fun hlt =>
      hc.used f (hf (hc.total ▸ hlt))
    have hno : ∀ p, m.view (insert r A) (r, p) = some f → 4 ≤ p.length := fun p hp =>
      absurd (hroot p f hp) hfr
    rw [show (m'.dropSpace r).mem f = m'.mem f from hd.data f (hb.old_table hu hno),
      hb.data f hu hno, hc.data f hfr]

/-! ## The call -/

section Exec

variable {s : Sys} {pid : ℕ} {prog : Program}

theorem failed_ne_zero : failed ≠ 0 := by decide

/-- The load of the program, into the space that the call would create, is clean. -/
def CleanExec (s : Sys) (prog : Program) : Prop :=
  s.createPml4.1 ≠ 0 → cleanImage prog s.createPml4.1 s.createPml4.2

/-- **A failed call** leaves the memory as it was. -/
theorem exec_restores (h : Good R s) (hprog : prog.InUser s.pmm.total) (hclean : CleanExec s prog)
    (hfail : (exec s pid prog).1 ≠ 0) :
    ∃ m, (exec s pid prog).2 = (s.brkReset pid).setRam m ∧ Unchanged s.toRam m := by
  rcases exec_cases h pid prog with
    heq | ⟨old, root, m, hold, hnew, h0, hrA, hm, hc, ⟨hload, heq⟩ | ⟨hload, heq⟩⟩
  · rw [heq]
    exact ⟨(s.brkReset pid).toRam, rfl, by rw [Sys.brkReset_ram]; exact Unchanged.refl⟩
  · rw [heq]
    refine ⟨_, rfl, ?_⟩
    have hr : root ∈ insert root s.roots := Set.mem_insert _ _
    have hseg : ∀ x, x ∈ prog.elf.segments → x.InUser m.pmm.total := by
      rw [hc.total]
      exact hprog.1
    have hclean' : cleanImage prog root m := by
      have := hclean (by rw [hnew]; exact h0)
      rwa [hnew] at this
    obtain ⟨⟨h1, hb⟩, hexact⟩ := hm.loadImage hr hseg
    exact hc.undone h.sound hrA hb (hexact hclean' hload) h1
  · rw [heq] at hfail
    exact absurd rfl hfail

theorem exec_brk (h : Good R s) (hlt : pid < brkSlots) (hdone : (exec s pid prog).1 = 0) :
    (exec s pid prog).2.brk pid = 0 := by
  rcases exec_cases h pid prog with
    heq | ⟨old, root, m, -, -, -, -, -, -, ⟨-, heq⟩ | ⟨-, heq⟩⟩
  · rw [heq] at hdone
    exact absurd hdone failed_ne_zero
  · rw [heq] at hdone
    exact absurd hdone failed_ne_zero
  rw [heq]
  unfold Sys.brkReset
  rw [if_pos hlt]
  exact update_self pid 0 s.brk

/-- The frame that a present page names. -/
def Ram.pageOf (m : Ram) (root va : ℕ) : Option ℕ :=
  match m.pteLookup root va with
  | none => none
  | some pt => follow (m.mem pt (idx 0 va))

theorem Sound.pageOf_eq (h : Sound R A m) (hr : r ∈ A) (hu : idx 3 va < 256) :
    m.pageOf r va = m.view A (r, pagePath va) := by
  unfold Ram.pageOf
  rw [(h.walks hr hu).1]
  cases hpt : m.view A (r, upper va) with
  | none => exact (view_none_below hpt _).symm
  | some => exact (view_snoc_follow hpt (by simp [upper]) (userPath_pagePath hu)).symm

/-- The tables of a space are used frames, so what maps there has not changed. -/
theorem Unchanged.pageOf (h : Unchanged m m') (hm : Sound R A m) (hm' : Sound R A m') (hr : r ∈ A)
    (hu : idx 3 va < 256) : m'.pageOf r va = m.pageOf r va := by
  have hview : m'.view A = m.view A := by
    refine view_congr fun r p g i hg hl _ => ?_
    rw [h.mem g fun hlt => hm.used hg hlt]
  rw [hm'.pageOf_eq hr hu, hm.pageOf_eq hr hu, hview]

/-- **A call that succeeds** has put the process into a space of frames that were free. -/
theorem exec_replaces (h : Good R s) (hprog : prog.InUser s.pmm.total)
    (hdone : (exec s pid prog).1 = 0) : ∃ root, (exec s pid prog).2.space pid = some root ∧
      s.pmm.used root = false ∧ ∀ va f, idx 3 va < 256 →
        (exec s pid prog).2.pageOf root va = some f → s.pmm.used f = false := by
  rcases exec_cases h pid prog with
    heq | ⟨old, root, m, hold, hnew, h0, hrA, hm, hc, ⟨hload, heq⟩ | ⟨hload, heq⟩⟩
  · rw [heq] at hdone
    exact absurd hdone failed_ne_zero
  · rw [heq] at hdone
    exact absurd hdone failed_ne_zero
  have hr : root ∈ insert root s.roots := Set.mem_insert _ _
  have hseg : ∀ x, x ∈ prog.elf.segments → x.InUser m.pmm.total := by
    rw [hc.total]
    exact hprog.1
  obtain ⟨⟨h1, hb⟩, -⟩ := hm.loadImage hr hseg
  obtain ⟨⟨h2, -⟩, hp⟩ := h1.writeArgs hr hprog.2
  have hro : root ≠ old := fun hro => hrA (hro ▸ Sys.mem_roots hold)
  obtain ⟨h3, hd⟩ := h2.dropSpace (Set.mem_insert_of_mem root (Sys.mem_roots hold))
  rw [heq]
  refine ⟨root, by simp, hc.free, fun va f hu hf => ?_⟩
  have hr' : root ∈ insert root s.roots \ {old} := ⟨hr, hro⟩
  change Ram.pageOf (Ram.dropSpace _ old) root va = some f at hf
  unfold Ram.dropSpace at hf
  rw [h3.pageOf_eq hr' hu, hd.kept _ hro, hp.view] at hf
  rcases hb.new _ f hf with hf | ⟨hlt, hfree⟩
  · -- an empty space has no pages
    rw [hc.view, update_of_ne (by simp [pagePath])] at hf
    exact absurd (view_some_iff.mp hf).1 hrA
  cases hu' : s.pmm.used f with
  | false => rfl
  | true =>
    rw [hc.used f hu'] at hfree
    cases hfree

end Exec

end Xos.Mem
