import Xos.Mem.Calls
import Xos.Mem.Cloning

/-!
# Every call keeps the references counted

The file goes through the calls one by one: what each does to the memory of one address space,
if the references of all of them are counted before (`Sound`).

* **looking up** — `Sound.walks`: all walks of the source find the same page table;
* **pages** — `Sound.mapNameable`, `Sound.freePage`, `Sound.setFlags`;
* **runs of pages** — `Sound.unmapRun`, `Sound.writeArgs`;
* **faults** — `Sound.handleCow` and `Sound.growUserStack`.
-/

namespace Xos.Mem

open Xos.Lib.Radix Function

variable {R A : Set ℕ} {s t : Ram} {f g r va : ℕ} {flags e : Word} {cr2 : ℕ}

/-! ## Looking an address up -/

/-- Where there are no huge pages on the way, all walks find the same page table. -/
theorem walks_of_small (hu : idx 3 va < 256)
    (hsmall : ∀ p i f, node follow s.mem r p = some f → p.length < 3 → UserPath (p ++ [i]) →
      has (s.mem f i) vmmP = true → has (s.mem f i) vmmPS = false) :
    s.pteLookup r va = node follow s.mem r (upper va) ∧
      s.virtToPhys r va = (match node follow s.mem r (upper va) with
        | none => 0
        | some pt => frameOf (s.mem pt (idx 0 va)) * 4096 + va % 4096) := by
  have h3 : UserPath ([] ++ [idx 3 va]) := userPath_snoc userPath_nil (idx_lt 3 va) fun _ => hu
  have h2 : UserPath ([idx 3 va] ++ [idx 2 va]) := userPath_snoc h3 (idx_lt 2 va) (by simp)
  have h1 : UserPath ([idx 3 va, idx 2 va] ++ [idx 1 va]) :=
    userPath_snoc h2 (idx_lt 1 va) (by simp)
  unfold Ram.pteLookup Ram.virtToPhys
  simp only [upper, node]
  cases ha : follow (s.mem r (idx 3 va)) with
  | none => exact ⟨rfl, rfl⟩
  | some a =>
    simp only [Option.bind_some]
    cases hb : follow (s.mem a (idx 2 va)) with
    | none => exact ⟨rfl, rfl⟩
    | some b =>
      have hs2 := hsmall _ _ a (by simp [node, ha]) (by simp) h2 (follow_some_iff.mp hb).1
      simp only [hs2, Option.bind_some]
      cases hc : follow (s.mem b (idx 1 va)) with
      | none => exact ⟨rfl, rfl⟩
      | some =>
        have hs1 := hsmall _ _ b (by simp [node, ha, hb]) (by simp) h1 (follow_some_iff.mp hc).1
        simp [hs1]

/-- In the user half there are no huge pages, so all walks find the same page table. -/
theorem Sound.walks (h : Sound R A s) (hr : r ∈ A) (hu : idx 3 va < 256) :
    s.pteLookup r va = s.view A (r, upper va) ∧
      s.virtToPhys r va = (match s.view A (r, upper va) with
        | none => 0
        | some pt => frameOf (s.mem pt (idx 0 va)) * 4096 + va % 4096) := by
  rw [Ram.view_eq hr (userPath_upper hu) (by simp [upper])]
  refine walks_of_small hu fun p i f hV hl hp => ?_
  rw [← Ram.view_eq hr (userPath_left hp) (by omega)] at hV
  exact (h.tidy (r, p) f i hV (by show p.length < 4; omega) hp).1 hl

/-- An address that `vmm_virt_to_phys` finds is a page of the space, or an offset into a page
that is not there. -/
theorem Sound.virtToPhys_cases (h : Sound R A s) (hr : r ∈ A) (hu : idx 3 va < 256)
    (hpa : s.virtToPhys r va ≠ 0) :
    ∃ pt, s.view A (r, upper va) = some pt ∧
      s.virtToPhys r va / 4096 = frameOf (s.mem pt (idx 0 va)) ∧
      (has (s.mem pt (idx 0 va)) vmmP = true ∧
          s.view A (r, pagePath va) = some (frameOf (s.mem pt (idx 0 va))) ∨
        s.mem pt (idx 0 va) = 0#64 ∧ va % 4096 ≠ 0) := by
  have hw := (h.walks hr hu).2
  cases hpt : s.view A (r, upper va) with
  | none =>
    rw [hpt] at hw
    exact absurd hw hpa
  | some pt =>
    rw [hpt] at hw
    simp only at hw
    refine ⟨pt, rfl, ?_, ?_⟩
    · omega
    · cases hp : has (s.mem pt (idx 0 va)) vmmP with
      | true =>
        refine .inl ⟨rfl, ?_⟩
        rw [show pagePath va = upper va ++ [idx 0 va] from rfl,
          view_snoc_follow hpt (by simp [upper]) (userPath_pagePath hu)]
        exact follow_some_iff.mpr ⟨hp, rfl⟩
      | false =>
        have h0 := (h.tidy _ pt _ hpt (by simp [upper]) (userPath_pagePath hu)).2
          (by simp [upper]) hp
        refine .inr ⟨h0, fun hal => hpa ?_⟩
        rw [hw, h0, hal]
        decide

theorem unmapPage_eq (hr : r ∈ A) (hu : idx 3 va < 256) :
    s.unmapPage r va = match s.view A (r, upper va) with
      | none => s
      | some pt => s.setWord pt (idx 0 va) 0#64 := by
  rewrite [Ram.view_eq hr (userPath_upper hu) (by simp [upper])]
  rfl

/-- What every call does: the references stay counted. -/
def Keeps (R A : Set ℕ) (s t : Ram) : Prop := Sound R A t ∧ Steady R s t

theorem Sound.keeps (h : Sound R A s) : Keeps R A s s := ⟨h, Steady.refl⟩

theorem Keeps.trans (h : Keeps R A s t) (h' : Keeps R A t u) : Keeps R A s u :=
  ⟨h'.1, h.2.trans h'.2⟩

/-! ## Pages -/

/-- A frame that may be named stays so while tables are added. -/
theorem Nameable.grows (hn : Nameable R A s x f) (h : Sound R A s) (hg : Grows R A r s t) :
    Nameable R A t x f := by
  have hused : f < s.pmm.total → s.pmm.used f = true := fun hlt => by
    have := hn.spare hlt
    exact (h.counted f hlt).mpr (by omega)
  have hhold : holders (t.view A) f = holders (s.view A) f := by
    ext y
    refine ⟨fun hy => ?_, fun hy => hg.view y f hy⟩
    rcases hg.new y f hy with hy | ⟨-, -, hlt, hfree⟩
    · exact hy
    · rw [hused hlt] at hfree
      cases hfree
  refine ⟨hn.not_reserved, by rw [hg.total]; exact hn.place, hg.noTable hused hn.noTable, ?_⟩
  intro hlt
  rw [hg.total] at hlt
  rw [hhold, (hg.used f hlt (hused hlt)).2]
  exact hn.spare hlt

/-- Mapping a frame that there is a reference for. -/
theorem Sound.mapNameable (h : Sound R A s) (hr : r ∈ A) (hu : idx 3 va < 256)
    (hflags : flags &&& physMask = 0#64)
    (hn : Nameable R A s (r, pagePath va) (f % 2 ^ 40)) :
    Keeps R A s (s.mapPage r va f flags).2 := by
  obtain ⟨t, ht, hg, heq | ⟨pt, hpt, heq⟩⟩ := h.mapPage_cases hr hu f flags
  · rw [heq]
    exact ⟨ht, hg.toSteady⟩
  rw [heq]
  have hfol := follow_mkEntry_present (f := f) hflags
  obtain ⟨h1, h2, -⟩ := ht.enterLeaf hpt rfl (userPath_pagePath hu) hfol (hn.grows h hg)
  exact ⟨h1, hg.toSteady.trans h2⟩

theorem userFlags_mask : userFlags flags &&& physMask = 0#64 := by
  unfold userFlags
  have h : (flags &&& (vmmRW ||| vmmWT ||| vmmCD)) &&& physMask = 0#64 := by
    rw [BitVec.and_assoc, show (vmmRW ||| vmmWT ||| vmmCD) &&& physMask = 0#64 by decide]
    simp
  rw [BitVec.or_assoc, BitVec.and_comm, BitVec.and_or_distrib_left, BitVec.and_comm physMask, h]
  decide

/-- Giving back a frame that was taken and not used. -/
theorem Sound.giveBack (h : Sound R A s) (hf : Fresh R A s f) : Keeps R A s (s.unref f) := by
  have hheld : s.held A f = 0 := by
    unfold Ram.held
    rw [show holders (s.view A) f = ∅ from Set.eq_empty_iff_forall_notMem.mpr hf.not_held]
    exact Set.ncard_empty _
  refine ⟨h.unref hf.not_reserved (.inl hf.lt) fun _ => ?_, Steady.unref h.total_le (.inl hf.lt)⟩
  rw [hf.refcnt]
  omega

/-- Unmapping a page. -/
theorem Sound.unmapPage (h : Sound R A s) (hr : r ∈ A) (hu : idx 3 va < 256) :
    Keeps R A s (s.unmapPage r va) := by
  rw [unmapPage_eq hr hu]
  cases hpt : s.view A (r, upper va) with
  | none => exact h.keeps
  | some =>
    obtain ⟨h1, h2, -⟩ := h.setLeaf (i := idx 0 va) (e := 0#64) hpt rfl (userPath_pagePath hu)
      (fun g hg => by cases hg) (fun _ => rfl)
    exact ⟨h1, h2⟩

/-- Unmapping a page and dropping its reference. -/
theorem Sound.freePage (h : Sound R A s) (hr : r ∈ A) (hu : idx 3 va < 256)
    (hpt : s.view A (r, upper va) = some pt) (hpage : s.view A (r, pagePath va) = some f) :
    Sound R A ((s.unmapPage r va).unref f) ∧
      Cleared R A r (fun p => p = pagePath va) s ((s.unmapPage r va).unref f) := by
  rw [unmapPage_eq hr hu, hpt]
  exact h.dropEntry hpt (by simp [upper]) (userPath_pagePath hu) hpage fun j =>
    view_none fun hc => by
      have := hc.2.2
      simp [upper] at this

/-- The entry of a page may get other flags. -/
theorem Sound.setFlags (h : Sound R A s) (hu : idx 3 va < 256)
    (hpt : s.view A (r, upper va) = some pt) (hpres : has (s.mem pt (idx 0 va)) vmmP = true)
    (he : follow e = follow (s.mem pt (idx 0 va))) :
    Sound R A (s.setWord pt (idx 0 va) e) ∧ Steady R s (s.setWord pt (idx 0 va) e) ∧
      (s.setWord pt (idx 0 va) e).view A = s.view A := by
  have hfol := view_snoc_follow hpt (by simp [upper]) (userPath_pagePath hu)
  have hsome : follow e = some (frameOf (s.mem pt (idx 0 va))) := by
    rw [he]
    exact follow_some_iff.mpr ⟨hpres, rfl⟩
  have hpage := hfol.trans (he.symm.trans hsome)
  obtain ⟨h1, h2, h3⟩ := h.enterLeaf hpt rfl (userPath_pagePath hu) hsome
    (h.nameable_self hpage (by simp [upper]))
  refine ⟨h1, h2, ?_⟩
  rw [h3, ← hpage, update_eq_self]

/-! ## Runs of pages -/

/-- A frame was taken and stored into. -/
structure Taken (R A : Set ℕ) (f : ℕ) (s t : Ram) : Prop extends Steady R s t where
  sound : Sound R A t
  fresh : Fresh R A t f
  view : t.view A = s.view A
  refcnt : ∀ g, g ≠ f → t.pmm.refcnt g = s.pmm.refcnt g
  data : ∀ g, g ≠ f → t.mem g = s.mem g

theorem Taken.count (h : Taken R A f s t) (hs : Sound R A s) (hfree : s.pmm.used f = false) :
    t.pmm.refcnt g = s.pmm.refcnt g + if f = g then 1 else 0 := by
  by_cases hfg : f = g
  · subst hfg
    rw [h.fresh.refcnt, hs.refcnt_free (h.total ▸ h.fresh.lt) hfree, if_pos rfl]
  · rw [h.refcnt g (Ne.symm hfg), if_neg hfg, Nat.add_zero]

theorem Taken.keeps (h : Taken R A f s t) : Keeps R A s t := ⟨h.sound, h.toSteady⟩

/-- `pmm_alloc_frame`, with or without a store into the frame. -/
theorem Sound.allocFill (h : Sound R A s) :
    s.alloc = (0, s) ∨ ∃ f, f ≠ 0 ∧ f < s.pmm.total ∧ s.pmm.used f = false ∧
      s.alloc = (f, s.take f) ∧ Taken R A f s (s.take f) ∧
      ∀ c, Taken R A f s ((s.take f).fill f c) := by
  rcases h.alloc_cases with heq | ⟨f, hf0, hlt, hfree, heq⟩
  · exact .inl heq
  obtain ⟨h1, hfresh⟩ := h.take hlt hfree
  refine .inr ⟨f, hf0, hlt, hfree, heq, ?_, fun c => ?_⟩
  · exact { Steady.take hlt hfree with
      sound := h1, fresh := hfresh, view := rfl, refcnt := fun g hg => by simp [hg],
      data := fun _ _ => rfl }
  · have hview : ((s.take f).fill f c).view A = s.view A := view_fill hfresh.noTable
    exact { (Steady.take hlt hfree).trans (Steady.fill fun hR => absurd hR hfresh.not_reserved) with
      sound := h1.fill hfresh.noTable fun hc => hfresh.not_reserved (hc ▸ h.kernel)
      fresh := ⟨hfresh.lt, hfresh.refcnt, fun x hx => hfresh.not_held x (hview ▸ hx),
        hfresh.not_reserved⟩
      view := hview
      refcnt := fun g hg => by simp [hg]
      data := fun g hg => Ram.fill_other hg }

theorem Sound.unmapRun {vas : List ℕ} (h : Sound R A s) (hr : r ∈ A)
    (hvas : ∀ va, va ∈ vas → idx 3 va < 256) :
    Keeps R A s (vas.foldl (fun m va => m.unmapPage r va) s) := by
  induction vas generalizing s with
  | nil => exact h.keeps
  | cons va vas ih =>
    have h1 := h.unmapPage hr (hvas va List.mem_cons_self)
    exact h1.trans (ih h1.1 fun va hva => hvas va (List.mem_cons_of_mem _ hva))

/-! ## Loading a program -/

theorem ite_mask {c : Prop} [Decidable c] (ha : a &&& physMask = 0#64) :
    (if c then a else 0#64) &&& physMask = 0#64 := by
  split
  · exact ha
  · rfl

theorem Segment.flags_mask (x : Segment) : x.flags &&& physMask = 0#64 :=
  or_mask (or_mask (ite_mask (by decide)) (ite_mask (by decide))) (ite_mask (by decide))

theorem mmapFlags_mask (prot : ℕ) : (mmapFlags prot ||| vmmP) &&& physMask = 0#64 :=
  or_mask (or_mask (or_mask (ite_mask (by decide)) (ite_mask (by decide)))
    (ite_mask (by decide))) (by decide)

/-- All pages of a segment are in the user half. -/
def Segment.InUser (x : Segment) (total : ℕ) : Prop := ∀ va, va ∈ x.vas total → idx 3 va < 256

/-- The addresses that the kernel itself uses for a new program are in the user half. -/
theorem idx_stack : ∀ va, va ∈ stackVas → idx 3 va < 256 := by
  intro va hva
  simp only [stackVas, pagesFrom, List.mem_map, List.mem_range, userStackTop] at hva
  unfold idx
  omega

/-! ## Stores into the new stack -/

/-- From `s` to `t` only words of pages of the space `r` changed, or of frame 0. -/
structure Patched (A : Set ℕ) (r : ℕ) (s t : Ram) : Prop where
  pmm : t.pmm = s.pmm
  view : t.view A = s.view A
  data : ∀ g, g ≠ 0 → (∀ p, s.view A (r, p) ≠ some g) → t.mem g = s.mem g

theorem Patched.refl : Patched A r s s := ⟨rfl, rfl, fun _ _ _ => rfl⟩

theorem Patched.trans (h : Patched A r s t) (h' : Patched A r t u) : Patched A r s u where
  pmm := h'.pmm.trans h.pmm
  view := h'.view.trans h.view
  data g hg hp := (h'.data g hg (by rwa [h.view])).trans (h.data g hg hp)

section

variable (h : Sound R A s) (hr : r ∈ A)
include h hr

/-- A store through an address of the user half reaches no table. -/
theorem Sound.patch (hu : idx 3 va < 256) (hpa : s.virtToPhys r va ≠ 0) (i : ℕ) (w : Word) :
    Keeps R A s (s.setWord (s.virtToPhys r va / 4096) i w) ∧
      Patched A r s (s.setWord (s.virtToPhys r va / 4096) i w) := by
  obtain ⟨pt, -, hframe, hcase⟩ := h.virtToPhys_cases hr hu hpa
  rw [hframe]
  rcases hcase with ⟨-, hpage⟩ | ⟨h0, -⟩
  · have hR := (h.home _ _ hpage).1
    have hnt := h.noTable_page hpage (by simp [pagePath, upper])
    refine ⟨⟨h.fill hnt fun hc => hR (hc ▸ h.kernel), Steady.setWord fun hc => absurd hc hR⟩,
      rfl, view_fill hnt, fun g _ hp => store_frame ?_⟩
    rintro rfl
    exact hp _ hpage
  · -- an address that is not mapped: the store goes to frame 0
    rw [h0]
    have hnt : NoTable A s 0 := fun x hx => absurd h.zero (h.home x 0 hx).1
    exact ⟨⟨h.fill hnt h.kernel_ne.symm, Steady.setWord fun _ => rfl⟩, rfl, view_fill hnt,
      fun g hg _ => store_frame hg⟩

theorem Sound.writeBlock (hxs : ∀ x, x ∈ xs → idx 3 x.va < 256) :
    Keeps R A s (writeBlock r xs s) ∧ Patched A r s (writeBlock r xs s) := by
  induction xs generalizing s with
  | nil => exact ⟨h.keeps, Patched.refl⟩
  | cons x xs ih =>
    unfold Xos.Mem.writeBlock
    simp only
    split
    · exact ⟨h.keeps, Patched.refl⟩
    next hpa =>
    obtain ⟨h1, hp1⟩ := h.patch hr (hxs x List.mem_cons_self) hpa (s.virtToPhys r x.va % 4096 / 8)
      ((s.mem (s.virtToPhys r x.va / 4096) (s.virtToPhys r x.va % 4096 / 8) &&&
        ~~~x.mask) ||| (x.word &&& x.mask))
    obtain ⟨h2, hp2⟩ := ih h1.1 fun x hx => hxs x (List.mem_cons_of_mem _ hx)
    exact ⟨h1.trans h2, hp1.trans hp2⟩

theorem Sound.writeArgs {blocks : List (List Patch)}
    (hxs : ∀ b, b ∈ blocks → ∀ x, x ∈ b → idx 3 x.va < 256) :
    Keeps R A s (blocks.foldl (fun m b => Xos.Mem.writeBlock r b m) s) ∧
      Patched A r s (blocks.foldl (fun m b => Xos.Mem.writeBlock r b m) s) := by
  induction blocks generalizing s with
  | nil => exact ⟨h.keeps, Patched.refl⟩
  | cons b blocks ih =>
    obtain ⟨h1, hp1⟩ := h.writeBlock hr (hxs b List.mem_cons_self)
    obtain ⟨h2, hp2⟩ := ih h1.1 fun b hb => hxs b (List.mem_cons_of_mem _ hb)
    exact ⟨h1.trans h2, hp1.trans hp2⟩

end

/-! ## Faults -/

/-- The page of a fault has the index of its address. -/
theorem idx_page (level : ℕ) : idx level (va / 4096 * 4096) = idx level va := by
  unfold idx
  rw [Nat.pow_add, ← Nat.div_div_eq_div_mul, ← Nat.div_div_eq_div_mul]
  congr 2
  omega

theorem follow_cowSole : follow (cowSole e) = follow e := by
  unfold follow cowSole
  rw [has_or, has_and_of_le (by decide), frameOf_or (by decide), frameOf_and (by decide),
    show has vmmRW vmmP = false by decide, Bool.or_false]

theorem follow_cowEntry (hf : f < 2 ^ 40) (hp : has e vmmP = true) :
    follow (cowEntry f e) = some f := by
  have hmask : (e &&& ~~~physMask &&& ~~~vmmCOW) &&& physMask = 0#64 := by
    rw [BitVec.and_assoc, BitVec.and_assoc,
      show ~~~physMask &&& (~~~vmmCOW &&& physMask) = 0#64 by decide]
    simp
  refine follow_mkEntry hf (or_mask hmask (by decide)) ?_
  rw [has_or, has_and_of_le (by decide), has_and_of_le (by decide), hp]
  rfl

/-- From `s` to `t` the page of `va` was replaced by a copy in the frame `f`. -/
structure CowCopied (R A : Set ℕ) (r va f : ℕ) (s t : Ram) : Prop extends Steady R s t where
  fresh : f < s.pmm.total ∧ s.pmm.used f = false
  view : t.view A = update (s.view A) (r, pagePath va) (some f)
  copy : ∀ g, s.view A (r, pagePath va) = some g → t.mem f = s.mem g
  word : ∀ pt, s.view A (r, upper va) = some pt →
    t.mem pt = update (s.mem pt) (idx 0 va) (cowEntry f (s.mem pt (idx 0 va)))
  data : ∀ g, g ≠ f → s.view A (r, upper va) ≠ some g → t.mem g = s.mem g
  slack : ∀ g, g < s.pmm.total →
    t.pmm.refcnt g + s.held A g = s.pmm.refcnt g + t.held A g

section Split

variable {pt : ℕ} (h : Sound R A s) (hu : idx 3 va < 256)
  (hpt : s.view A (r, upper va) = some pt) (hpres : has (s.mem pt (idx 0 va)) vmmP = true)
  (hlt : f < s.pmm.total) (hfree : s.pmm.used f = false)

include hu hpt hpres in
theorem view_page : s.view A (r, pagePath va) = some (frameOf (s.mem pt (idx 0 va))) := by
  rw [show pagePath va = upper va ++ [idx 0 va] from rfl,
    view_snoc_follow hpt (by simp [upper]) (userPath_pagePath hu)]
  exact follow_some_iff.mpr ⟨hpres, rfl⟩

include h hu hpt hpres hlt hfree

/-- The copying half of `handle_cow`. -/
theorem Sound.splitPage (ht : Taken R A f s
      ((s.take f).fill f (s.mem (frameOf (s.mem pt (idx 0 va)))))) :
    Sound R A ((s.take f).splitPage pt (idx 0 va) f) ∧
      CowCopied R A r va f s ((s.take f).splitPage pt (idx 0 va) f) := by
  have hpage := view_page hu hpt hpres
  unfold Ram.splitPage
  simp only [Ram.take_mem]
  generalize hg : frameOf (s.mem pt (idx 0 va)) = g at ht hpage ⊢
  have hgf : g ≠ f := fun hc => h.not_held hlt hfree _ (hc ▸ hpage)
  have hptf : pt ≠ f := fun hc => h.not_held hlt hfree _ (hc ▸ hpt)
  have hfol := follow_cowEntry (h.frame_lt hlt) hpres
  have hpt1 : ((s.take f).fill f (s.mem g)).view A (r, upper va) = some pt := by
    rw [ht.view, hpt]
  obtain ⟨h2, hst2, hview2⟩ := ht.sound.enterLeaf hpt1 rfl (userPath_pagePath hu) hfol
    (ht.fresh.nameable _)
  rw [ht.view] at hview2
  -- the state with the new entry, whose old page has a reference too many
  generalize hm : ((s.take f).fill f (s.mem g)).setWord pt (idx 0 va)
    (cowEntry f (s.mem pt (idx 0 va))) = m at h2 hst2 hview2 ⊢
  have hpmm : m.pmm = ((s.take f).fill f (s.mem g)).pmm := by rw [← hm]; rfl
  have hmem : ∀ f', f' ≠ pt → m.mem f' = ((s.take f).fill f (s.mem g)).mem f' := by
    intro f' hf'
    rw [← hm]
    exact store_frame hf'
  have hheld : ∀ f', m.held A f' + (if g = f' then 1 else 0) =
      s.held A f' + if f = f' then 1 else 0 := by
    intro f'
    simpa [show s.view A (r, upper va ++ [idx 0 va]) = some g from hpage] using
      h.held_update (f := f') hview2
  obtain ⟨hgR, hgplace⟩ := h.home _ g hpage
  have hplace : g < s.pmm.total ∨ maxFrames ≤ g := hgplace.imp_right And.right
  have hplacem : g < m.pmm.total ∨ maxFrames ≤ g := by rw [hpmm]; exact hplace
  have hrefcnt : ∀ f', m.pmm.refcnt f' = s.pmm.refcnt f' + if f = f' then 1 else 0 := fun f' => by
    rw [hpmm]
    exact ht.count h hfree
  have hspare : g < m.pmm.total → m.held A g < m.pmm.refcnt g := by
    intro hlt'
    rw [hpmm] at hlt'
    have hrefs := h.refs g hlt'
    have hone := hheld g
    rw [if_pos rfl] at hone
    rw [hrefcnt g]
    omega
  have h3 : Sound R A (m.unref g) := h2.unref hgR hplacem hspare
  have hst : Steady R s (m.unref g) :=
    (ht.toSteady.trans hst2).trans (Steady.unref h2.total_le hplacem)
  refine ⟨h3, { hst with
    fresh := ⟨hlt, hfree⟩, view := hview2, copy := fun g' hg' => ?_, word := fun pt' hpt' => ?_,
    data := fun g' h1 h2 => ?_, slack := fun f' hf' => ?_ }⟩
  · obtain rfl := Option.some.inj (hpage.symm.trans hg')
    rw [Ram.unref_mem, hmem f hptf.symm]
    exact Ram.fill_same
  · obtain rfl := Option.some.inj (hpt.symm.trans hpt')
    rw [← hm]
    show store _ pt (idx 0 va) _ pt = _
    unfold store
    rw [update_self, ht.data pt hptf]
  · rw [Ram.unref_mem, hmem g' fun hc => h2 (hc ▸ hpt)]
    exact ht.data g' h1
  · have hcnt := h2.refcnt_unref hplacem (fun hlt' => Nat.zero_lt_of_lt (hspare hlt'))
      (f := f') (by rwa [hpmm])
    have h4 := hrefcnt f'
    have h5 := hheld f'
    show (m.unref g).pmm.refcnt f' + s.held A f' = s.pmm.refcnt f' + m.held A f'
    omega

end Split

/-- What `handle_cow` does; `va` is the page of the address `cr2`. -/
theorem Sound.handleCow_cases (h : Sound R A s) (hr : r ∈ A) (hva : cr2 / 4096 * 4096 = va)
    (hu : idx 3 va < 256) (present write : Bool) :
    handleCow s r cr2 present write = (false, s) ∨
      ∃ pt, s.view A (r, upper va) = some pt ∧ has (s.mem pt (idx 0 va)) vmmP = true ∧
        has (s.mem pt (idx 0 va)) vmmCOW = true ∧
        (s.pmm.refcount (frameOf (s.mem pt (idx 0 va))) = 1 ∧ handleCow s r cr2 present write =
              (true, s.setWord pt (idx 0 va) (cowSole (s.mem pt (idx 0 va)))) ∨
          ∃ f, Sound R A ((s.take f).splitPage pt (idx 0 va) f) ∧
            CowCopied R A r va f s ((s.take f).splitPage pt (idx 0 va) f) ∧
            handleCow s r cr2 present write = (true, (s.take f).splitPage pt (idx 0 va) f)) := by
  unfold Xos.Mem.handleCow
  split
  swap
  · exact .inl rfl
  rw [hva, (h.walks hr hu).1]
  split
  · exact .inl rfl
  next pt hpt =>
  simp only
  split
  swap
  · exact .inl rfl
  next hcow =>
  obtain ⟨hpres, hcow⟩ := Bool.and_eq_true_iff.mp hcow
  split
  · next hone => exact .inr ⟨pt, hpt, hpres, hcow, .inl ⟨hone, rfl⟩⟩
  rcases h.allocFill with heq | ⟨f, hf0, hlt, hfree, heq, -, hfill⟩
  · rw [heq]
    exact .inl rfl
  rw [heq]
  obtain ⟨h1, h2⟩ := h.splitPage hu hpt hpres hlt hfree (hfill _)
  split
  · next h0 => cases h0; exact absurd rfl hf0
  next h0 =>
    cases h0
    exact .inr ⟨pt, hpt, hpres, hcow, .inr ⟨f, h1, h2, rfl⟩⟩

theorem Sound.handleCow (h : Sound R A s) (hr : r ∈ A) (hu : idx 3 cr2 < 256) (present write : Bool) :
    Keeps R A s (handleCow s r cr2 present write).2 := by
  have hu' : idx 3 (cr2 / 4096 * 4096) < 256 := by rw [idx_page]; exact hu
  rcases h.handleCow_cases hr rfl hu' present write with
    heq | ⟨pt, hpt, hpres, -, ⟨-, heq⟩ | ⟨f, hs, hc, heq⟩⟩
  · rw [heq]
    exact h.keeps
  · rw [heq]
    obtain ⟨h1, h2, -⟩ := h.setFlags hu' hpt hpres follow_cowSole
    exact ⟨h1, h2⟩
  · rw [heq]
    exact ⟨hs, hc.toSteady⟩

/-- Addresses of the stack window are in the user half. -/
theorem idx_window (h1 : va < userStackTop) : idx 3 va < 256 := by
  unfold userStackTop at h1
  unfold idx
  omega

/-- What `grow_user_stack` does. -/
theorem Sound.growUserStack (h : Sound R A s) (hr : r ∈ A) (cr2 : ℕ) (present : Bool) :
    Keeps R A s (growUserStack s r cr2 present).2 := by
  unfold Xos.Mem.growUserStack
  split
  · exact h.keeps
  next hwin =>
  have htop : cr2 < userStackTop := by
    by_contra hc
    exact hwin (by simp [show userStackTop ≤ cr2 by omega])
  have hu : idx 3 (cr2 / 4096 * 4096) < 256 := by rw [idx_page]; exact idx_window htop
  rcases h.allocFill with heq | ⟨f, hf0, hlt, hfree, heq, -, hfill⟩
  · rw [heq]
    exact h.keeps
  rw [heq]
  split
  · next h0 => cases h0; exact absurd rfl hf0
  next h0 =>
  cases h0
  have ht := hfill fun _ => 0#64
  have hmask : (vmmRW ||| vmmU ||| vmmNX) &&& physMask = 0#64 := by decide
  obtain ⟨h1, hst1, hfr⟩ := ht.sound.mapFresh hr hu ht.fresh hmask
  have hk : Keeps R A s _ := ⟨h1, ht.toSteady.trans hst1⟩
  split
  · next m heq' =>
      rw [heq'] at hk hfr
      exact hk.trans (hk.1.giveBack (hfr rfl))
  next m heq' =>
    rw [heq'] at hk
    exact hk

theorem Sound.handlePageFault (h : Sound R A s) (hr : r ∈ A) (hu : idx 3 cr2 < 256)
    (present write : Bool) :
    Keeps R A s (handlePageFault s r cr2 present write).2 := by
  have h1 := h.handleCow hr hu present write
  unfold Xos.Mem.handlePageFault
  split
  · next m heq =>
      rw [heq] at h1
      exact h1
  next m heq =>
    rw [heq] at h1
    exact h1.trans (h1.1.growUserStack hr cr2 present)

end Xos.Mem
