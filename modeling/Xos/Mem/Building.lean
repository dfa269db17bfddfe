import Xos.Mem.Steps

/-!
# Building an address space

`Sound` is what the calls keep; this file says what the calls that add pages do.  A space grows out
of free frames only, and whatever was used before is as it was (`Builds`).  Whether every frame that
was taken ends up with as many holders as references is a second question (`Exact`): it does as
long as no page is mapped twice and no `vmm_map_page` fails, since the callers look at neither.

* **one page** — `Sound.addPage`;
* **runs of pages** — `Sound.mapRun`, exact if the run is a `cleanRun`;
* **programs** — `Sound.loadImage`, exact with `cleanImage`.
-/

namespace Xos.Mem

open Xos.Lib.Radix Function

variable {R A : Set ℕ} {s t u : Ram} {f g i r va : ℕ} {p q : List ℕ} {flags : Word} {elf : Elf}
  {xs : List Segment}

/-- From `s` to `t` the space `r` got tables and pages, all of them from free frames. -/
structure Builds (R A : Set ℕ) (r : ℕ) (s t : Ram) : Prop extends Steady R s t where
  used : ∀ f, f < s.pmm.total → s.pmm.used f = true →
    t.pmm.used f = true ∧ t.pmm.refcnt f = s.pmm.refcnt f
  kept : ∀ x, x.1 ≠ r → t.view A x = s.view A x
  stays : ∀ p, s.view A (r, p) ≠ none → t.view A (r, p) ≠ none
  new : ∀ p f, t.view A (r, p) = some f →
    s.view A (r, p) = some f ∨ f < s.pmm.total ∧ s.pmm.used f = false
  /-- Only tables of the space and frames that were free are written to. -/
  data : ∀ f, (f < s.pmm.total → s.pmm.used f = true) →
    (∀ p, s.view A (r, p) = some f → 4 ≤ p.length) → t.mem f = s.mem f

namespace Builds

theorem refl : Builds R A r s s := { Steady.refl with
    used := fun _ _ h => ⟨h, rfl⟩
    kept := fun _ _ => rfl
    stays := fun _ h => h
    new := fun _ _ h => .inl h
    data := fun _ _ _ => rfl }

/-- What was free after it was free before. -/
theorem free (h : Builds R A r s t) (hf : f < s.pmm.total) (hu : t.pmm.used f = false) :
    s.pmm.used f = false := by
  cases hs : s.pmm.used f with
  | false => rfl
  | true =>
    rw [(h.used f hf hs).1] at hu
    cases hu

/-- A frame that was used is no new table of the space. -/
theorem old_table (h : Builds R A r s t) (hu : f < s.pmm.total → s.pmm.used f = true)
    (hf : ∀ p, s.view A (r, p) = some f → 4 ≤ p.length) :
    ∀ p, t.view A (r, p) = some f → 4 ≤ p.length := by
  intro p hp
  rcases h.new p f hp with hp | ⟨hlt, hfree⟩
  · exact hf p hp
  · rw [hu hlt] at hfree
    cases hfree

theorem trans (h : Builds R A r s t) (h' : Builds R A r t u) : Builds R A r s u :=
  { h.toSteady.trans h'.toSteady with
    used := fun f hf hu => by
      obtain ⟨hu', hr'⟩ := h.used f hf hu
      obtain ⟨hu'', hr''⟩ := h'.used f (by rwa [h.total]) hu'
      exact ⟨hu'', hr''.trans hr'⟩
    kept := fun x hx => (h'.kept x hx).trans (h.kept x hx)
    stays := fun p hp => h'.stays p (h.stays p hp)
    new := fun p f hp => by
      rcases h'.new p f hp with hp | ⟨hlt, hfree⟩
      · exact h.new p f hp
      · rw [h.total] at hlt
        exact .inr ⟨hlt, h.free hlt hfree⟩
    data := fun f hu hf => by
      have hu' : f < t.pmm.total → t.pmm.used f = true := fun hlt =>
        (h.used f (h.total ▸ hlt) (hu (h.total ▸ hlt))).1
      exact (h'.data f hu' (h.old_table hu hf)).trans (h.data f hu hf) }

end Builds

/-- The space `r` was built further, and the references are counted. -/
def Built (R A : Set ℕ) (r : ℕ) (s t : Ram) : Prop := Sound R A t ∧ Builds R A r s t

theorem Sound.built (h : Sound R A s) : Built R A r s s := ⟨h, Builds.refl⟩

theorem Built.trans (h : Built R A r s t) (h' : Built R A r t u) : Built R A r s u :=
  ⟨h'.1, h.2.trans h'.2⟩

theorem Built.keeps (h : Built R A r s t) : Keeps R A s t := ⟨h.1, h.2.toSteady⟩

/-- From `s` to `t` the references of every frame changed by as much as its holders. -/
def Exact (A : Set ℕ) (s t : Ram) : Prop := ∀ f, f < s.pmm.total →
  t.pmm.refcnt f + s.held A f = s.pmm.refcnt f + t.held A f

theorem Exact.refl : Exact A s s := fun _ _ => rfl

theorem Exact.trans (h : Exact A s t) (htot : t.pmm.total = s.pmm.total) (h' : Exact A t u) :
    Exact A s u := by
  intro f hf
  have h1 := h f hf
  have h2 := h' f (by rwa [htot])
  omega

/-! ## What the walk writes to -/

theorem Sound.ensure_data (h : Sound R A s) (hV : s.view A (r, p) = some f) (hl : p.length < 3)
    (hu : g < s.pmm.total → s.pmm.used g = true)
    (hg : ∀ p, s.view A (r, p) = some g → 4 ≤ p.length) : (s.ensure f i).2.mem g = s.mem g := by
  have hgf : g ≠ f := by
    rintro rfl
    have := hg p hV
    omega
  unfold Ram.ensure
  split
  · rfl
  rcases h.alloc_cases with heq | ⟨a, ha0, hlt, hfree, heq⟩
  · rw [heq]
    rfl
  rw [heq]
  split
  · next h0 => cases h0; exact absurd rfl ha0
  next h0 =>
  cases h0
  have hga : g ≠ a := by
    rintro rfl
    rw [hu hlt] at hfree
    cases hfree
  rw [show ∀ w, (((s.take a).fill a fun _ => 0#64).setWord f i w).mem g =
    ((s.take a).fill a fun _ => 0#64).mem g from fun w => store_frame hgf, Ram.fill_other hga]
  rfl

theorem Sound.ensurePath_data (h : Sound R A s) (hV : s.view A (r, p) = some f)
    (hp : UserPath (p ++ q)) (hl : p.length + q.length ≤ 3)
    (hu : g < s.pmm.total → s.pmm.used g = true)
    (hg : ∀ p, s.view A (r, p) = some g → 4 ≤ p.length) :
    (s.ensurePath f q).2.mem g = s.mem g := by
  induction q generalizing s f p with
  | nil => rfl
  | cons i q ih =>
    have hp1 : UserPath (p ++ [i]) := by
      refine userPath_left (q := q) ?_
      rwa [List.append_assoc]
    have hl' : p.length < 3 := by
      simp only [List.length_cons] at hl
      omega
    have hdata := h.ensure_data (i := i) hV hl' hu hg
    obtain ⟨h1, hg1, hv1⟩ := h.ensure hV hl' hp1
    unfold Ram.ensurePath
    split
    · next m heq =>
        rw [heq] at hdata
        exact hdata
    next a m heq =>
      rw [heq] at h1 hg1 hv1 hdata
      have hu' : g < m.pmm.total → m.pmm.used g = true := fun hlt =>
        (hg1.used g (hg1.total ▸ hlt) (hu (hg1.total ▸ hlt))).1
      have hg' : ∀ p, m.view A (r, p) = some g → 4 ≤ p.length := by
        intro p' hp'
        rcases hg1.new _ g hp' with hold | ⟨-, -, hlt, hfree⟩
        · exact hg p' hold
        · rw [hu hlt] at hfree
          cases hfree
      have hrest := ih h1 (hv1 a rfl) (by rwa [List.append_assoc])
        (by simp only [List.length_append, List.length_cons, List.length_nil] at hl ⊢; omega)
        hu' hg'
      exact hrest.trans hdata

/-- The levels above the page table add tables. -/
theorem Grows.builds (h : Grows R A r s t) (hdata : ∀ f, (f < s.pmm.total → s.pmm.used f = true) →
      (∀ p, s.view A (r, p) = some f → 4 ≤ p.length) → t.mem f = s.mem f) : Builds R A r s t :=
  { h.toSteady with
    used := h.used
    kept := fun x hx => h.view_eq hx
    stays := fun p hp hn => by
      obtain ⟨f, hf⟩ := Option.ne_none_iff_exists'.mp hp
      rw [h.view _ f hf] at hn
      cases hn
    new := fun p f hp => by
      rcases h.new _ f hp with hold | ⟨-, -, hlt, hfree⟩
      · exact .inl hold
      · exact .inr ⟨hlt, hfree⟩
    data := hdata }

/-! ## One page -/

/-- A frame that was taken is the only difference. -/
theorem Taken.used_iff (h : Taken R A f s t) (hs : Sound R A s) (hg : g < s.pmm.total)
    (hgf : g ≠ f) : t.pmm.used g = true ↔ s.pmm.used g = true := by
  rw [h.sound.counted g (by rwa [h.total]), h.refcnt g hgf, ← hs.counted g hg]

theorem Taken.builds (h : Taken R A f s t) (hs : Sound R A s) (hfree : s.pmm.used f = false)
    (hf : f < s.pmm.total) : Builds R A r s t :=
  { h.toSteady with
    used := fun g hg hu => by
      have hgf : g ≠ f := by
        rintro rfl
        rw [hu] at hfree
        cases hfree
      exact ⟨(h.used_iff hs hg hgf).mpr hu, h.refcnt g hgf⟩
    kept := fun x _ => by rw [h.view]
    stays := fun p hp => by rwa [h.view]
    new := fun p g hp => .inl (by rwa [h.view] at hp)
    data := fun g hu _ => h.data g fun hgf => by
      subst hgf
      rw [hu hf] at hfree
      cases hfree }

/-- The store of the entry of a page, with a frame that was free in `s`. -/
theorem Builds.setLeaf (h : Builds R A r s t) (ht : Sound R A t)
    (hpt : t.view A (r, upper va) = some pt) (hf : f < s.pmm.total) (hfree : s.pmm.used f = false)
    (hview : (t.setWord pt (idx 0 va) e).view A = update (t.view A) (r, pagePath va) (some f)) :
    Builds R A r s (t.setWord pt (idx 0 va) e) := by
  have hpt4 : ∀ g, (g < s.pmm.total → s.pmm.used g = true) →
      (∀ p, s.view A (r, p) = some g → 4 ≤ p.length) → g ≠ pt := by
    rintro g hgu hg rfl
    have := h.old_table hgu hg _ hpt
    simp [upper] at this
  have hR : pt ∉ R := (ht.home _ pt hpt).1
  exact { h.toSteady.trans (Steady.setWord fun hc => absurd hc hR) with
    used := h.used
    kept := fun x hx => by
      rw [hview, update_of_ne fun hc => hx (by rw [hc])]
      exact h.kept x hx
    stays := fun p hp => by
      rw [hview]
      by_cases hpp : p = pagePath va
      · subst hpp
        rw [update_self]
        exact Option.some_ne_none f
      · rw [update_of_ne fun hc => hpp (congrArg Prod.snd hc)]
        exact h.stays p hp
    new := fun p g hp => by
      rw [hview] at hp
      by_cases hpp : p = pagePath va
      · subst hpp
        rw [update_self] at hp
        cases hp
        exact .inr ⟨hf, hfree⟩
      · rw [update_of_ne fun hc => hpp (congrArg Prod.snd hc)] at hp
        exact h.new p g hp
    data := fun g hgu hg => by
      rw [show (t.setWord pt (idx 0 va) e).mem g = t.mem g from store_frame (hpt4 g hgu hg)]
      exact h.data g hgu hg }

/-- The counts after the store, if there was no page. -/
theorem Exact.setLeaf (hs : Sound R A s) (hm : Taken R A f s m) (hfree : s.pmm.used f = false)
    (hg : Grows R A r m t) (ht : Sound R A t) (habs : s.view A (r, pagePath va) = none)
    (hview : (t.setWord pt (idx 0 va) e).view A = update (t.view A) (r, pagePath va) (some f)) :
    Exact A s (t.setWord pt (idx 0 va) e) := by
  have habs' : t.view A (r, pagePath va) = none := by
    cases hv : t.view A (r, pagePath va) with
    | none => rfl
    | some =>
      rw [hg.page_iff (by simp [pagePath, upper]), hm.view, habs] at hv
      cases hv
  intro g hgt
  have hheld : ∀ h, m.held A h = s.held A h := by
    intro h
    unfold Ram.held
    rw [hm.view]
  show t.pmm.refcnt g + s.held A g = s.pmm.refcnt g + (t.setWord pt (idx 0 va) e).held A g
  have hnew := ht.held_update (f := g) hview
  simp only [habs', reduceCtorEq, if_false, Option.some.injEq] at hnew
  have hslack := hg.slack g (by rwa [hm.total])
  rw [hheld g, hm.count hs hfree] at hslack
  omega

/-- **One page**: a frame is taken, stored into and mapped. -/
theorem Sound.addPage (h : Sound R A s) (hr : r ∈ A) (hu : idx 3 va < 256) (hm : Taken R A f s m)
    (hfree : s.pmm.used f = false) (hflags : flags &&& physMask = 0#64) :
    Sound R A (m.mapPage r va f flags).2 ∧ Builds R A r s (m.mapPage r va f flags).2 ∧
      ((m.mapPage r va f flags).1 = true →
        (m.mapPage r va f flags).2.view A (r, pagePath va) = some f ∧
        (s.view A (r, pagePath va) = none → Exact A s (m.mapPage r va f flags).2)) := by
  have hf : f < s.pmm.total := by
    rw [← hm.total]
    exact hm.fresh.lt
  obtain ⟨hsound, -, -⟩ := hm.sound.mapFresh hr hu hm.fresh hflags
  refine ⟨hsound, ?_⟩
  -- the tables, and then the entry
  have hpath := hm.sound.ensurePath (p := []) (q := upper va) (view_root hr) (userPath_upper hu)
    (by simp [upper])
  have hdata : ∀ g, (g < m.pmm.total → m.pmm.used g = true) →
      (∀ p, m.view A (r, p) = some g → 4 ≤ p.length) →
      (m.ensurePath r (upper va)).2.mem g = m.mem g := fun g hgu hg =>
    hm.sound.ensurePath_data (p := []) (view_root hr) (userPath_upper hu) (by simp [upper]) hgu hg
  unfold Ram.mapPage
  split
  · next t heq =>
      rw [heq] at hpath hdata
      obtain ⟨ht, hg, -⟩ := hpath
      exact ⟨(hm.builds h hfree hf).trans (hg.builds hdata), fun hc => absurd hc Bool.false_ne_true⟩
  next pt t heq =>
    rw [heq] at hpath hdata
    obtain ⟨ht, hg, hv⟩ := hpath
    have hpt : t.view A (r, upper va) = some pt := hv pt rfl
    have he := follow_mkEntry_present (f := f) hflags
    rw [Nat.mod_eq_of_lt (h.frame_lt hf)] at he
    have hfresh : Fresh R A t f := hm.fresh.grows hm.sound hg
    have hview : (t.setWord pt (idx 0 va) (mkEntry f (flags ||| vmmP))).view A =
        update (t.view A) (r, pagePath va) (some f) :=
      (ht.enterLeaf hpt rfl (userPath_pagePath hu) he (hfresh.nameable _)).2.2
    have hbuilt := ((hm.builds h hfree hf).trans (hg.builds hdata)).setLeaf ht hpt hf hfree hview
    refine ⟨hbuilt, fun _ => ⟨?_, fun habs => ?_⟩⟩
    · rw [hview, update_self]
    · exact Exact.setLeaf h hm hfree hg ht habs hview

/-! ## Runs of pages -/

/-- Is no page mapped at the address? -/
def Ram.absent (m : Ram) (root va : ℕ) : Bool :=
  match m.pteLookup root va with
  | none => true
  | some pt => !has (m.mem pt (idx 0 va)) vmmP

theorem Sound.absent_iff (h : Sound R A s) (hr : r ∈ A) (hu : idx 3 va < 256) :
    s.absent r va = true ↔ s.view A (r, pagePath va) = none := by
  unfold Ram.absent
  rw [(h.walks hr hu).1]
  cases hpt : s.view A (r, upper va) with
  | none => simp [pagePath, view_none_below hpt]
  | some pt =>
    have hleaf : s.view A (r, pagePath va) = follow (s.mem pt (idx 0 va)) :=
      view_snoc_follow hpt (by simp [upper]) (userPath_pagePath hu)
    rw [hleaf, follow_none_iff]
    simp

/-- Does a run of `mapRun` (not a strict one) map every page for which it gets a frame, and none
over another? -/
def cleanRun (root : ℕ) (flags : Word) (content : ℕ → Option (ℕ → Word)) : List ℕ → Ram → Prop
  | [], _ => True
  | va :: vas, m =>
    match m.alloc with
    | (0, _) => True
    | (f, n) =>
      let r := (n.prepare f (content va)).mapPage root va f flags
      m.absent root va = true ∧ r.1 = true ∧ cleanRun root flags content vas r.2

instance decidableCleanRun (root : ℕ) (flags : Word) (content : ℕ → Option (ℕ → Word)) :
    (vas : List ℕ) → (m : Ram) → Decidable (cleanRun root flags content vas m)
  | [], _ => isTrue trivial
  | va :: vas, m => by
      unfold cleanRun
      split
      · exact isTrue trivial
      · have := decidableCleanRun root flags content vas
        infer_instance

/-- What `mapRun` stores into a frame does not matter. -/
theorem Sound.takePage (h : Sound R A s) :
    s.alloc = (0, s) ∨ ∃ f, f ≠ 0 ∧ s.pmm.used f = false ∧ s.alloc = (f, s.take f) ∧
      ∀ c, Taken R A f s ((s.take f).prepare f c) := by
  rcases h.allocFill with heq | ⟨f, hf0, -, hfree, heq, htake, hfill⟩
  · exact .inl heq
  refine .inr ⟨f, hf0, hfree, heq, fun c => ?_⟩
  cases c with
  | none => exact htake
  | some c => exact hfill c

/-- **A run of pages.**  A clean one leaves every count as exact as it was. -/
theorem Sound.mapRun (h : Sound R A s) (hr : r ∈ A) (hflags : flags &&& physMask = 0#64)
    (hvas : ∀ va, va ∈ vas → idx 3 va < 256) (content : ℕ → Option (ℕ → Word)) (strict : Bool) :
    Built R A r s (Mem.mapRun r flags content strict vas s).2 ∧
      (strict = false → cleanRun r flags content vas s →
        Exact A s (Mem.mapRun r flags content strict vas s).2) := by
  induction vas generalizing s with
  | nil => exact ⟨h.built, fun _ _ => Exact.refl⟩
  | cons va vas ih =>
    unfold Mem.mapRun cleanRun
    rcases h.takePage with heq | ⟨f, hf0, hfree, heq, htaken⟩
    · rw [heq]
      exact ⟨h.built, fun _ _ => Exact.refl⟩
    rw [heq]
    split
    · next h0 => cases h0; exact absurd rfl hf0
    next h0 =>
    cases h0
    have hu := hvas va List.mem_cons_self
    obtain ⟨h1, hb1, hok⟩ := h.addPage hr hu (htaken (content va)) hfree hflags
    rcases hmap : ((s.take f).prepare f (content va)).mapPage r va f flags with ⟨ok, m⟩
    rw [hmap] at h1 hb1 hok
    have hb : Built R A r s m := ⟨h1, hb1⟩
    simp only [hmap]
    split
    · next hstop => exact ⟨hb, fun hs => by simp [hs] at hstop⟩
    obtain ⟨ih1, ih2⟩ := ih h1 fun va hva => hvas va (List.mem_cons_of_mem _ hva)
    refine ⟨hb.trans ih1, ?_⟩
    rintro hs ⟨habs, hmapped, hrest⟩
    exact ((hok hmapped).2 ((h.absent_iff hr hu).mp habs)).trans hb1.total (ih2 hs hrest)

/-! ## Programs -/

/-- The segments of a program are loaded cleanly, as far as loading gets. -/
def cleanSegments (elf : Elf) (root : ℕ) : List Segment → Ram → Prop
  | [], _ => True
  | g :: gs, m =>
    if elf.len < g.fileEnd then True
    else
      let content := fun va => some (g.page elf.data va)
      let r := mapRun root g.flags content false (g.vas m.pmm.total) m
      cleanRun root g.flags content (g.vas m.pmm.total) m ∧
        (r.1 = true → cleanSegments elf root gs r.2)

/-- The image and the stack are. -/
def cleanImage (prog : Program) (root : ℕ) (m : Ram) : Prop :=
  cleanSegments prog.elf root prog.elf.segments m ∧
    ((elfLoad prog.elf root m).1 = true →
      cleanRun root (vmmU ||| vmmRW) (fun _ => none) stackVas (elfLoad prog.elf root m).2)

section

variable (h : Sound R A s) (hr : r ∈ A)
include h hr

theorem Sound.loadSegments (hxs : ∀ x, x ∈ xs → x.InUser s.pmm.total) :
    Built R A r s (Mem.loadSegments elf r xs s).2 ∧
      (cleanSegments elf r xs s → Exact A s (Mem.loadSegments elf r xs s).2) := by
  induction xs generalizing s with
  | nil => exact ⟨h.built, fun _ => Exact.refl⟩
  | cons x xs ih =>
    unfold Mem.loadSegments cleanSegments
    split
    · exact ⟨h.built, fun _ => Exact.refl⟩
    obtain ⟨hb, he⟩ := h.mapRun hr x.flags_mask (hxs x List.mem_cons_self)
      (fun va => some (x.page elf.data va)) false
    simp only
    split
    · next m heq =>
        rw [heq] at hb he
        exact ⟨hb, fun hclean => he rfl hclean.1⟩
    next m heq =>
      rw [heq] at hb he ⊢
      have htotal := hb.2.total
      obtain ⟨ih1, ih2⟩ := ih hb.1 fun x hx => htotal ▸ hxs x (List.mem_cons_of_mem _ hx)
      exact ⟨hb.trans ih1, fun hclean => (he rfl hclean.1).trans htotal (ih2 (hclean.2 rfl))⟩

theorem Sound.elfLoad (hxs : ∀ x, x ∈ elf.segments → x.InUser s.pmm.total) :
    Built R A r s (Mem.elfLoad elf r s).2 ∧
      (cleanSegments elf r elf.segments s → Exact A s (Mem.elfLoad elf r s).2) := by
  unfold Mem.elfLoad
  split
  · exact h.loadSegments hr hxs
  · exact ⟨h.built, fun _ => Exact.refl⟩

/-- **A program.**  One that is not loaded leaves every count as exact as it was, if it was loaded
cleanly as far as that went. -/
theorem Sound.loadImage (hxs : ∀ x, x ∈ prog.elf.segments → x.InUser s.pmm.total) :
    Built R A r s (Mem.loadImage prog r s).2 ∧
      (cleanImage prog r s → (Mem.loadImage prog r s).1 = false →
        Exact A s (Mem.loadImage prog r s).2) := by
  obtain ⟨hb1, he1⟩ := h.elfLoad hr hxs
  have hmask : (vmmU ||| vmmRW) &&& physMask = 0#64 := by decide
  unfold Mem.loadImage cleanImage
  split
  · next m heq =>
      rw [heq] at hb1 he1
      exact ⟨hb1, fun hclean _ => he1 hclean.1⟩
  next m heq =>
    rw [heq] at hb1 he1 ⊢
    obtain ⟨hb2, he2⟩ := hb1.1.mapRun hr hmask idx_stack (fun _ => none) false
    split
    · next m' heq' =>
        rw [heq'] at hb2 he2
        exact ⟨hb1.trans hb2, fun hclean _ =>
          (he1 hclean.1).trans hb1.2.total (he2 rfl (hclean.2 rfl))⟩
    next m' heq' =>
      rw [heq'] at hb2
      have hsig : ∀ va, va ∈ [sigreturnPage] → idx 3 va < 256 := by decide
      exact ⟨(hb1.trans hb2).trans (hb2.1.mapRun hr hmask hsig
        (fun _ => some (trampoline prog.sigreturn)) false).1, fun _ hc => by cases hc⟩

end

end Xos.Mem
