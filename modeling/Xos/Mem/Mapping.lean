import Xos.Mem.Sound

/-!
# Mapping a page

What `vmm_map_page` and its parts do to the forest of page tables.

* **Steady** — what every call keeps: the managed range, the reserved frames' contents and the
  balance of the used frames;
* **Grows** — what the levels above the page table do: they may add empty tables to one address
  space, and nothing else can be told from before;
* **pages** — `Sound.setLeaf` is the store of a page's entry, `Sound.mapPage_cases` splits
  `vmm_map_page` into the two.
-/

namespace Xos.Mem

open Xos.Lib.Radix Function

variable {R A : Set ℕ} {s t u : Ram} {f g i r va : ℕ} {p q : List ℕ} {e flags : Word}
  {x : ℕ × List ℕ}

/-- What all calls leave alone. -/
structure Steady (R : Set ℕ) (s t : Ram) : Prop where
  total : t.pmm.total = s.pmm.total
  kernel : t.kernel = s.kernel
  /-- Frame 0 is the exception: an address that is not mapped is often taken for it. -/
  mem : ∀ f, f ∈ R → f ≠ 0 → t.mem f = s.mem f
  balanced : Balanced s.pmm → Balanced t.pmm

namespace Steady

theorem refl : Steady R s s := ⟨rfl, rfl, fun _ _ _ => rfl, id⟩

theorem trans (h : Steady R s t) (h' : Steady R t u) : Steady R s u where
  total := h'.total.trans h.total
  kernel := h'.kernel.trans h.kernel
  mem f hf h0 := (h'.mem f hf h0).trans (h.mem f hf h0)
  balanced hb := h'.balanced (h.balanced hb)

theorem take (hf : f < s.pmm.total) (hu : s.pmm.used f = false) : Steady R s (s.take f) :=
  ⟨rfl, rfl, fun _ _ _ => rfl, fun hb => hb.take hf hu⟩

theorem fill (hf : f ∈ R → f = 0) : Steady R s (s.fill f c) where
  total := rfl
  kernel := rfl
  mem _ hg h0 := Ram.fill_other fun hgf => h0 (hgf ▸ hf (hgf ▸ hg))
  balanced := id

theorem setWord (hf : f ∈ R → f = 0) : Steady R s (s.setWord f i e) where
  total := rfl
  kernel := rfl
  mem _ hg h0 := store_frame fun hgf => h0 (hgf ▸ hf (hgf ▸ hg))
  balanced := id

theorem ref : Steady R s (s.ref f) :=
  ⟨Pmm.refFrame_total, rfl, fun _ _ _ => rfl, fun hb => hb.refFrame⟩

theorem unref (hm : s.pmm.total ≤ maxFrames) (hf : f < s.pmm.total ∨ maxFrames ≤ f) :
    Steady R s (s.unref f) :=
  ⟨Pmm.unrefFrame_total, rfl, fun _ _ _ => rfl, fun hb => hb.unrefFrame hm hf⟩

end Steady

/-- From `s` to `t` the space `r` may have got more tables. -/
structure Grows (R A : Set ℕ) (r : ℕ) (s t : Ram) : Prop extends Steady R s t where
  used : ∀ f, f < s.pmm.total → s.pmm.used f = true →
    t.pmm.used f = true ∧ t.pmm.refcnt f = s.pmm.refcnt f
  view : ∀ x f, s.view A x = some f → t.view A x = some f
  new : ∀ x f, t.view A x = some f → s.view A x = some f ∨
    x.1 = r ∧ x.2.length < 4 ∧ f < s.pmm.total ∧ s.pmm.used f = false
  slack : ∀ f, f < s.pmm.total →
    t.pmm.refcnt f + s.held A f = s.pmm.refcnt f + t.held A f
  fresh : ∀ f, f < s.pmm.total → s.pmm.used f = false → t.pmm.refcnt f ≤ 1
  /-- Pages, and frames that do not belong to the forest, keep what they hold. -/
  data : ∀ f, (f < s.pmm.total → s.pmm.used f = true) → NoTable A s f → t.mem f = s.mem f
  /-- So do the page tables. -/
  entries : ∀ x f, s.view A x = some f → x.2.length = 3 → t.mem f = s.mem f

namespace Grows

theorem refl (h : Sound R A s) : Grows R A r s s := { Steady.refl with
    used := fun _ _ h => ⟨h, rfl⟩
    view := fun _ _ h => h
    new := fun _ _ h => .inl h
    slack := fun _ _ => rfl
    fresh := fun f hf hu => by rw [h.refcnt_free hf hu]; omega
    data := fun _ _ _ => rfl
    entries := fun _ _ _ _ => rfl }

section

variable (h : Grows R A r s t)
include h

theorem noTable (hu : f < s.pmm.total → s.pmm.used f = true)
    (hf : NoTable A s f) : NoTable A t f := by
  intro x hx
  rcases h.new x f hx with hx | ⟨-, -, hlt, hfree⟩
  · exact hf x hx
  · rw [hu hlt] at hfree
    cases hfree

/-- No page was added. -/
theorem page_iff (hx : 4 ≤ x.2.length) : t.view A x = some f ↔ s.view A x = some f := by
  refine ⟨fun hf => ?_, h.view x f⟩
  rcases h.new x f hf with hf | ⟨-, hl, -⟩
  · exact hf
  · omega

/-- Other spaces are as they were. -/
theorem view_eq (hx : x.1 ≠ r) : t.view A x = s.view A x := by
  refine Option.ext fun f => ⟨fun hf => ?_, h.view x f⟩
  rcases h.new x f hf with hf | ⟨hr, -⟩
  · exact hf
  · exact absurd hr hx

theorem trans (h' : Grows R A r t u) : Grows R A r s u := { h.toSteady.trans h'.toSteady with
    used := fun f hf hu => by
      obtain ⟨hu', hr'⟩ := h.used f hf hu
      obtain ⟨hu'', hr''⟩ := h'.used f (by rwa [h.total]) hu'
      exact ⟨hu'', hr''.trans hr'⟩
    view := fun x f hx => h'.view x f (h.view x f hx)
    new := fun x f hx => by
      rcases h'.new x f hx with hx | ⟨hr, hl, hlt, hfree⟩
      · exact h.new x f hx
      rw [h.total] at hlt
      refine .inr ⟨hr, hl, hlt, ?_⟩
      cases hu : s.pmm.used f with
      | false => rfl
      | true => rw [(h.used f hlt hu).1] at hfree; cases hfree
    slack := fun f hf => by
      have h1 := h.slack f hf
      have h2 := h'.slack f (by rwa [h.total])
      omega
    fresh := fun f hf hu => by
      have hf' : f < t.pmm.total := by rwa [h.total]
      cases hu' : t.pmm.used f with
      | true => rw [(h'.used f hf' hu').2]; exact h.fresh f hf hu
      | false => exact h'.fresh f hf' hu'
    data := fun f hu hf =>
      (h'.data f (fun hlt => (h.used f (h.total ▸ hlt) (hu (h.total ▸ hlt))).1)
        (h.noTable hu hf)).trans (h.data f hu hf)
    entries := fun x f hx hl => (h'.entries x f (h.view x f hx) hl).trans (h.entries x f hx hl) }

end

end Grows

/-! ## The levels above the page table -/

/-- What is missing has nothing below it. -/
theorem view_none_below (h : s.view A (r, p) = none) (q : List ℕ) :
    s.view A (r, p ++ q) = none := by
  cases hv : s.view A (r, p ++ q) with
  | none => rfl
  | some =>
    obtain ⟨g', hg'⟩ := view_left hv
    rw [show Lib.Radix.view userHalf A s.mem (r, p) = none from h] at hg'
    cases hg'

theorem view_snoc_follow (hV : s.view A (r, p) = some f) (hl : p.length < 4)
    (hp : UserPath (p ++ [i])) : s.view A (r, p ++ [i]) = follow (s.mem f i) := by
  have := view_snoc (A := A) (m := s.mem) (r := r) (L := userHalf) hp hl
  rw [show s.view A (r, p ++ [i]) = _ from this, show Lib.Radix.view userHalf A s.mem (r, p) =
    some f from hV]
  rfl

section

variable (h : Sound R A s) (hV : s.view A (r, p) = some f)
include h hV

/-- A table that `vmm_map_page` makes. -/
theorem Sound.linkTable (hl : p.length < 3)
    (hp : UserPath (p ++ [i])) (habs : has (s.mem f i) vmmP = false) (hg : g < s.pmm.total)
    (hu : s.pmm.used g = false) :
    let t := ((s.take g).fill g fun _ => 0#64).setWord f i
      (mkEntry g (vmmP ||| vmmRW ||| vmmU))
    Sound R A t ∧ Grows R A r s t ∧ t.view A (r, p ++ [i]) = some g := by
  intro t
  obtain ⟨h1, hfresh⟩ := h.take hg hu
  have hgk : g ≠ s.kernel := fun hc => hfresh.not_reserved (hc ▸ h.kernel)
  have h2 : Sound R A ((s.take g).fill g fun _ => 0#64) := h1.fill hfresh.noTable hgk
  have hview2 : ((s.take g).fill g fun _ => 0#64).view A = s.view A := view_fill hfresh.noTable
  have hfol : follow (mkEntry g (vmmP ||| vmmRW ||| vmmU)) = some g :=
    follow_mkEntry (h.frame_lt hg) (by decide) (by decide)
  have hnone : s.view A (r, p ++ [i]) = none := by
    rw [view_snoc_follow hV (by omega) hp]
    exact follow_none_iff.mpr habs
  have hstor : Storable R A ((s.take g).fill g fun _ => 0#64) r p i
      (mkEntry g (vmmP ||| vmmRW ||| vmmU)) := by
    constructor
    · intro g' hg'
      obtain rfl := Option.some.inj (hfol.symm.trans hg')
      exact ⟨hfresh.not_reserved, .inl hg⟩
    · intro g' hg' _
      obtain rfl := Option.some.inj (hfol.symm.trans hg')
      rw [hview2, show holders (s.view A) g = ∅ from
        Set.eq_empty_iff_forall_notMem.mpr (h.not_held hg hu)]
      simp
    · intro g' y hg' hy
      obtain rfl := Option.some.inj (hfol.symm.trans hg')
      rw [hview2] at hy
      exact absurd hy (h.not_held hg hu y)
    · intro g' hg' _ j
      obtain rfl := Option.some.inj (hfol.symm.trans hg')
      rw [Ram.fill_same]
    · intro _ _
      rw [has_mkEntry (by decide)]
      decide
    · omega
    · intro j
      rw [hview2]
      exact view_none_below hnone [j]
  have hV2 : ((s.take g).fill g fun _ => 0#64).view A (r, p) = some f := by rw [hview2]; exact hV
  have hview : t.view A = update (s.view A) (r, p ++ [i]) (some g) := by
    rw [← hfol, ← hview2]
    exact hstor.view_eq h2 hV2 (by omega) hp
  have hfR : f ∉ R := (h.home _ f hV).1
  refine ⟨h2.setWord hV2 (by omega) hp hstor, ?_, by rw [hview, update_self]⟩
  have hsteady : Steady R s t := ((Steady.take hg hu).trans
      (Steady.fill fun hR => absurd hR hfresh.not_reserved)).trans
      (Steady.setWord fun hR => absurd hR hfR)
  have hmem : ∀ f', f' ≠ g → f' ≠ f → t.mem f' = s.mem f' := by
    intro f' hg' hf'
    show store _ f i _ f' = _
    rw [store_frame hf', Ram.fill_other hg']
    rfl
  refine { hsteady with
    used := fun f' hf' hu' => ?_, view := fun x f' hx => ?_, new := fun x f' hx => ?_,
    slack := fun f' hf' => ?_, fresh := fun f' hf' hu' => ?_, data := fun f' hu' hf' => ?_,
    entries := fun x f' hx hlx => ?_ }
  · have hne : f' ≠ g := fun hc => by rw [← hc, hu'] at hu; cases hu
    show update s.pmm.used g true f' = true ∧ update s.pmm.refcnt g 1 f' = _
    rw [update_of_ne hne, update_of_ne hne]
    exact ⟨hu', rfl⟩
  · rw [hview, update_of_ne]
    · exact hx
    · rintro rfl
      rw [hnone] at hx
      cases hx
  · rw [hview] at hx
    by_cases hx0 : x = (r, p ++ [i])
    · subst hx0
      rw [update_self] at hx
      cases hx
      refine .inr ⟨rfl, ?_, hg, hu⟩
      rw [List.length_append, List.length_singleton]
      omega
    · rw [update_of_ne hx0] at hx
      exact .inl hx
  · have hcnt : t.pmm.refcnt f' = s.pmm.refcnt f' + if g = f' then 1 else 0 := h.refcnt_take hg hu
    have hheld := h.held_update (f := f') hview
    simp only [hnone, reduceCtorEq, if_false, Option.some.injEq] at hheld
    omega
  · show update s.pmm.refcnt g 1 f' ≤ 1
    by_cases hfg : f' = g
    · subst hfg
      rw [update_self]
    · rw [update_of_ne hfg, h.refcnt_free hf' hu']
      omega
  · refine hmem f' (fun hc => ?_) fun hc => ?_
    · subst hc
      rw [hu' hg] at hu
      cases hu
    · subst hc
      have : 4 ≤ p.length := hf' _ hV
      omega
  · refine hmem f' (fun hc => h.not_held hg hu x (hc ▸ hx)) fun hc => ?_
    have := h.sole (r, p) x f hV (by show p.length < 4; omega) (hc ▸ hx)
    rw [this] at hlx
    have : p.length = 3 := hlx
    omega

/-- One level of `vmm_map_page`. -/
theorem Sound.ensure (hl : p.length < 3) (hp : UserPath (p ++ [i])) :
    Sound R A (s.ensure f i).2 ∧ Grows R A r s (s.ensure f i).2 ∧
      ∀ g, (s.ensure f i).1 = some g → (s.ensure f i).2.view A (r, p ++ [i]) = some g := by
  unfold Ram.ensure
  split
  · next hpres =>
      refine ⟨h, (Grows.refl h), fun g hg => ?_⟩
      rw [view_snoc_follow hV (by omega) hp]
      exact follow_some_iff.mpr ⟨hpres, Option.some.inj hg⟩
  next habs =>
    have habs : has (s.mem f i) vmmP = false := by simpa using habs
    rcases h.alloc_cases with heq | ⟨g, hg0, hg, hu, heq⟩
    · rw [heq]
      exact ⟨h, (Grows.refl h), fun g hg => by cases hg⟩
    rw [heq]
    obtain ⟨h1, h2, h3⟩ := h.linkTable hV hl hp habs hg hu
    split
    · next h0 => cases h0; exact absurd rfl hg0
    next h0 =>
    cases h0
    refine ⟨h1, h2, fun g' hg' => ?_⟩
    rw [← Option.some.inj hg', frameOf_mkEntry (h.frame_lt hg) (by decide)]
    exact h3

theorem Sound.ensurePath (hp : UserPath (p ++ q)) (hl : p.length + q.length ≤ 3) :
    Sound R A (s.ensurePath f q).2 ∧ Grows R A r s (s.ensurePath f q).2 ∧
      ∀ g, (s.ensurePath f q).1 = some g → (s.ensurePath f q).2.view A (r, p ++ q) = some g := by
  induction q generalizing s f p with
  | nil =>
    refine ⟨h, (Grows.refl h), fun g hg => ?_⟩
    cases hg
    rw [List.append_nil]
    exact hV
  | cons i q ih =>
    have hpi : p ++ i :: q = p ++ [i] ++ q := by simp
    rw [List.length_cons] at hl
    rw [hpi] at hp
    obtain ⟨h1, hg1, hv1⟩ := h.ensure (i := i) hV (by omega) (userPath_left hp)
    unfold Ram.ensurePath
    split
    · next s1 heq =>
        rw [heq] at h1 hg1
        exact ⟨h1, hg1, fun g hg => by cases hg⟩
    next g s1 heq =>
      rw [heq] at h1 hg1 hv1
      have hlen : (p ++ [i]).length + q.length ≤ 3 := by
        rw [List.length_append, List.length_singleton]
        omega
      obtain ⟨h2, hg2, hv2⟩ := ih h1 (hv1 g rfl) hp hlen
      rw [hpi]
      exact ⟨h2, hg1.trans hg2, hv2⟩

end

/-! ## The page -/

/-- The path to the page of an address. -/
def pagePath (va : ℕ) : List ℕ := upper va ++ [idx 0 va]

theorem idx_lt (level va : ℕ) : idx level va < 512 := Nat.mod_lt _ (by omega)

theorem userPath_pagePath (hu : idx 3 va < 256) : UserPath (pagePath va) := by
  refine ⟨fun i hi => ?_, fun i hi => ?_⟩
  · simp only [pagePath, upper, List.mem_append, List.mem_cons, List.not_mem_nil, or_false] at hi
    rcases hi with (rfl | rfl | rfl) | rfl <;> exact idx_lt _ _
  · cases hi
    exact hu

theorem userPath_upper (hu : idx 3 va < 256) : UserPath (upper va) :=
  userPath_left (userPath_pagePath hu)

/-- `vmm_map_page` makes the missing tables and, if there was memory for them, stores one
entry. -/
theorem Sound.mapPage_cases (h : Sound R A s) (hr : r ∈ A) (hu : idx 3 va < 256) (f : ℕ)
    (flags : Word) :
    ∃ t, Sound R A t ∧ Grows R A r s t ∧ (s.mapPage r va f flags = (false, t) ∨
        ∃ pt, t.view A (r, upper va) = some pt ∧ s.mapPage r va f flags =
            (true, t.setWord pt (idx 0 va) (mkEntry f (flags ||| vmmP)))) := by
  obtain ⟨h1, hg, hv⟩ := h.ensurePath (p := []) (q := upper va) (view_root hr)
    (userPath_upper hu) (by simp [upper])
  unfold Ram.mapPage
  split
  · next t heq =>
      rw [heq] at h1 hg
      exact ⟨t, h1, hg, .inl rfl⟩
  next pt t heq =>
    rw [heq] at h1 hg hv
    exact ⟨t, h1, hg, .inr ⟨pt, hv pt rfl, rfl⟩⟩

/-- The page of a space is no table. -/
theorem Sound.noTable_page (h : Sound R A s) (hx : s.view A x = some f) (hl : x.2.length = 4) :
    NoTable A s f := by
  intro y hy
  by_contra hlt
  have := h.sole y x f hy (by omega) hx
  rw [this] at hl
  omega

/-- An entry of a page table that names a frame: there must be a reference for it. -/
structure Nameable (R A : Set ℕ) (s : Ram) (x : ℕ × List ℕ) (f : ℕ) : Prop where
  not_reserved : f ∉ R
  place : f < s.pmm.total ∨ maxFrames ≤ f
  noTable : NoTable A s f
  spare : f < s.pmm.total → (holders (s.view A) f \ {x}).ncard + 1 ≤ s.pmm.refcnt f

theorem leaf_storable (hl : p.length = 3) (hname : ∀ g, follow e = some g →
    Nameable R A s (r, p ++ [i]) g) (hblank : has e vmmP = false → e = 0#64) :
    Storable R A s r p i e where
  home g hg := ⟨(hname g hg).not_reserved, (hname g hg).place.imp_right fun hm => ⟨hl, hm⟩⟩
  spare g hg hlt := (hname g hg).spare hlt
  alone g y hg hy _ := ⟨hl, (hname g hg).noTable y hy⟩
  empty g _ hlt := by omega
  small hlt := by omega
  blank _ := hblank
  below j := by
    refine view_none fun hc => ?_
    have := hc.2.2
    simp [hl] at this

section

variable (h : Sound R A s) (hV : s.view A (r, p) = some f) (hl : p.length = 3)
  (hp : UserPath (p ++ [i]))
include h hV hl hp

/-- **The store of a page's entry.** -/
theorem Sound.setLeaf (hname : ∀ g, follow e = some g →
      Nameable R A s (r, p ++ [i]) g) (hblank : has e vmmP = false → e = 0#64) :
    Sound R A (s.setWord f i e) ∧ Steady R s (s.setWord f i e) ∧
      (s.setWord f i e).view A = update (s.view A) (r, p ++ [i]) (follow e) := by
  have hs := leaf_storable hl hname hblank
  exact ⟨h.setWord hV (by omega) hp hs, Steady.setWord fun hR => absurd hR (h.home _ f hV).1,
    hs.view_eq h hV (by omega) hp⟩

/-- The store of an entry that names a page. -/
theorem Sound.enterLeaf (he : follow e = some g) (hn : Nameable R A s (r, p ++ [i]) g) :
    Sound R A (s.setWord f i e) ∧ Steady R s (s.setWord f i e) ∧
      (s.setWord f i e).view A = update (s.view A) (r, p ++ [i]) (some g) := by
  rw [← he]
  refine h.setLeaf hV hl hp (fun g' hg' => ?_) fun hc => ?_
  · obtain rfl := Option.some.inj (he.symm.trans hg')
    exact hn
  · rw [(follow_some_iff.mp he).1] at hc
    cases hc

end

/-- A spare reference to a page can be given to any entry. -/
theorem Sound.nameable_spare (h : Sound R A s) (hx : s.view A x = some f) (hl : x.2.length = 4)
    (hspare : f < s.pmm.total → s.held A f < s.pmm.refcnt f) (y : ℕ × List ℕ) :
    Nameable R A s y f where
  not_reserved := (h.home x f hx).1
  place := (h.home x f hx).2.imp_right And.right
  noTable := h.noTable_page hx hl
  spare hlt := by
    have hle := Set.ncard_le_ncard (Set.sdiff_subset : holders (s.view A) f \ {y} ⊆ _)
      h.finite_holders
    have := hspare hlt
    unfold Ram.held at this
    omega

/-- A frame without holders has its first reference to give away. -/
theorem Fresh.nameable (hf : Fresh R A s f) (x : ℕ × List ℕ) : Nameable R A s x f where
  not_reserved := hf.not_reserved
  place := .inl hf.lt
  noTable := hf.noTable
  spare _ := by
    rw [show holders (s.view A) f = ∅ from Set.eq_empty_iff_forall_notMem.mpr hf.not_held,
      hf.refcnt]
    simp

theorem Fresh.grows (hf : Fresh R A s f) (h : Sound R A s) (hg : Grows R A r s t) :
    Fresh R A t f := by
  have hused : s.pmm.used f = true := (h.counted f hf.lt).mpr (by rw [hf.refcnt]; omega)
  refine ⟨by rw [hg.total]; exact hf.lt, ?_, fun x hx => ?_, hf.not_reserved⟩
  · rw [(hg.used f hf.lt hused).2]
    exact hf.refcnt
  · rcases hg.new x f hx with hx | ⟨-, -, -, hfree⟩
    · exact hf.not_held x hx
    · rw [hused] at hfree
      cases hfree

theorem or_mask (ha : a &&& physMask = 0#64) (hb : b &&& physMask = 0#64) :
    (a ||| b) &&& physMask = 0#64 := by
  rw [BitVec.and_comm, BitVec.and_or_distrib_left, BitVec.and_comm physMask a, ha,
    BitVec.and_comm physMask b, hb]
  rfl

theorem follow_mkEntry_present (hflags : flags &&& physMask = 0#64) :
    follow (mkEntry f (flags ||| vmmP)) = some (f % 2 ^ 40) := by
  have hmask : (flags ||| vmmP) &&& physMask = 0#64 := or_mask hflags (by decide)
  rw [follow_some_iff, has_mkEntry (by decide), has_or]
  refine ⟨by simp [show has vmmP vmmP = true by decide], ?_⟩
  unfold mkEntry
  rw [frameOf_or hmask, frameOf_and (by decide), frameOf_eq, BitVec.toNat_ofNat]
  omega

/-- **Mapping a fresh frame.**  Whether or not there is memory for the tables, the result is
sound; a frame that was not mapped has its reference still. -/
theorem Sound.mapFresh (h : Sound R A s) (hr : r ∈ A) (hu : idx 3 va < 256)
    (hf : Fresh R A s f) (hflags : flags &&& physMask = 0#64) :
    Sound R A (s.mapPage r va f flags).2 ∧ Steady R s (s.mapPage r va f flags).2 ∧
      ((s.mapPage r va f flags).1 = false → Fresh R A (s.mapPage r va f flags).2 f) := by
  obtain ⟨t, ht, hg, heq | ⟨pt, hpt, heq⟩⟩ := h.mapPage_cases hr hu f flags
  · rw [heq]
    exact ⟨ht, hg.toSteady, fun _ => hf.grows h hg⟩
  rw [heq]
  have hfol := follow_mkEntry_present (f := f) hflags
  rw [Nat.mod_eq_of_lt (h.frame_lt hf.lt)] at hfol
  obtain ⟨h1, h2, -⟩ := ht.enterLeaf hpt rfl (userPath_pagePath hu) hfol
    ((hf.grows h hg).nameable _)
  exact ⟨h1, hg.toSteady.trans h2, fun hc => by cases hc⟩

end Xos.Mem
