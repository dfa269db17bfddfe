import Xos.Mem.Exec

/-!
# Failed clones and destroyed address spaces

`vmm_clone_user` undoes itself with `vmm_destroy_user` when it runs out of memory, possibly in the
middle of `vmm_map_page`.  Here the two are accounted for frame by frame.

* **`entries`** — the user entries of a space, above the leaves or leaves, that name a frame; the
  walk of `vmm_destroy_user` drops one reference for each (`destroyUser_refcnt`);
* **`clone_destroy_exact`** — a clone that fails leaves all counts and used frames, and
  `vmm_destroy_user` drops what the entries hold and frees every table;
* **`failed_clone_loses_reference`** — if the clone takes a count over `REF_MAX`, its undoing drops
  more references than it added.
-/

namespace Xos.Mem

open Xos.Lib Xos.Lib.Radix

variable {R A : Set ℕ} {s t : Ram} {f g r src : ℕ} {p q : List ℕ}

/-! ## Destroying -/

/-- The present user entries of the space `r` that name the frame `f`. -/
def entries (A : Set ℕ) (r : ℕ) (s : Ram) (f : ℕ) : Set (List ℕ) :=
  {p | p ≠ [] ∧ s.view A (r, p) = some f}

theorem below_nil : Below [] p ↔ p ≠ [] := by
  constructor
  · rintro ⟨i, hi⟩ rfl
    have := hi.length_le
    simp at this
  · intro hp
    cases p with
    | nil => exact absurd rfl hp
    | cons i p => exact ⟨i, p, rfl⟩

/-- The holders before are those after and the entries of the space. -/
theorem Cleared.held (h : Cleared R A r (Below []) s t) (hfin : (holders (s.view A) f).Finite) :
    s.held A f = t.held A f + (entries A r s f).ncard := by
  have hunion : holders (s.view A) f =
      holders (t.view A) f ∪ (fun p => (r, p)) '' entries A r s f := by
    ext ⟨x, p⟩
    constructor
    · intro hx
      by_cases hB : x = r ∧ p ≠ []
      · obtain ⟨rfl, hp⟩ := hB
        exact .inr ⟨p, ⟨hp, hx⟩, rfl⟩
      · refine .inl ((h.kept (x, p) fun hc => hB ⟨hc.1, below_nil.mp hc.2⟩).trans hx)
    · rintro (hx | ⟨p', ⟨-, hp'⟩, heq⟩)
      · exact h.sub hx
      · cases heq
        exact hp'
  have hdisj : Disjoint (holders (t.view A) f) ((fun p => (r, p)) '' entries A r s f) := by
    refine Set.disjoint_left.mpr ?_
    rintro _ hx ⟨p, ⟨hp, -⟩, rfl⟩
    have hx : t.view A (r, p) = some f := hx
    rw [h.gone p (below_nil.mpr hp)] at hx
    cases hx
  rw [hunion] at hfin
  unfold Ram.held
  rw [hunion, Set.ncard_union_eq hdisj (hfin.subset Set.subset_union_left)
    (hfin.subset Set.subset_union_right),
    Set.ncard_image_of_injective _ fun _ _ heq => (Prod.mk.inj heq).2]

/-- **One reference per entry.** -/
theorem Sound.destroyUser_refcnt (h : Sound R A s) (hr : r ∈ A) (hf : f < s.pmm.total) :
    (s.destroyUser r).pmm.refcnt f + (entries A r s f).ncard = s.pmm.refcnt f := by
  obtain ⟨-, hc⟩ := h.destroyUser hr
  have h1 := hc.slack f hf
  have h2 := hc.held (f := f) h.finite_holders
  omega

/-- A table has one entry. -/
theorem Sound.entries_table (h : Sound R A s) (hp : p ≠ []) (hl : p.length < 4)
    (hV : s.view A (r, p) = some f) : (entries A r s f).ncard = 1 := by
  refine Set.ncard_eq_one.mpr ⟨p, Set.eq_singleton_iff_unique_mem.mpr ⟨⟨hp, hV⟩, ?_⟩⟩
  rintro q ⟨-, hq⟩
  exact (Prod.mk.inj (h.sole _ _ f hV hl hq)).2

/-- A frame that is no table is named by leaves only. -/
theorem entries_pages (hnt : ∀ p, p ≠ [] → p.length < 4 → s.view A (r, p) ≠ some f) :
    entries A r s f = pages A r s f := by
  ext p
  constructor
  · rintro ⟨hp, hV⟩
    have hle := (view_some_iff.mp hV).2.2.1
    rw [userHalf_depth] at hle
    refine ⟨?_, hV⟩
    by_contra hne
    exact hnt p hp (by omega) hV
  · rintro ⟨hl, hV⟩
    refine ⟨?_, hV⟩
    rintro rfl
    simp at hl

/-! ## Failing -/

/-- **A failed clone changes no count.** -/
theorem Unforked.refcnt (h : Unforked R A src s t) (hf : f < s.pmm.total) :
    t.pmm.refcnt f = s.pmm.refcnt f := by
  have hview : t.view A = s.view A := by
    funext ⟨r, p⟩
    by_cases hr : r ∈ A
    · exact h.view r hr p
    have h1 : s.view A (r, p) = none := view_none fun hc => hr hc.1
    have h2 : t.view A (r, p) = none := view_none fun hc => hr hc.1
    rw [h1, h2]
  have hheld : t.held A f = s.held A f := by
    unfold Ram.held
    rw [hview]
  have := h.slack f hf
  omega

/-! ## Both -/

/-- Without a free frame a clone does not begin. -/
theorem cloneUser_full (hfull : ∀ f, f < s.pmm.total → s.pmm.used f = true) (src : ℕ) :
    s.cloneUser src = (0, s) := by
  have hnone : s.pmm.allocFrame = (0, s.pmm) := by
    have hfind : (List.range s.pmm.total).find?
        (fun scan => !s.pmm.used ((s.pmm.hint + scan) % s.pmm.total)) = none := by
      refine List.find?_eq_none.2 fun scan hscan => ?_
      have hpos : 0 < s.pmm.total := by
        have := List.mem_range.1 hscan
        omega
      simp [hfull _ (Nat.mod_lt _ hpos)]
    rw [Pmm.allocFrame, hfind]
  have halloc : s.alloc = (0, s) := by simp [Ram.alloc, hnone]
  have hcreate : s.createPml4 = (0, s) := by simp [Ram.createPml4, halloc]
  simp [Ram.cloneUser, hcreate]

/-! ## A small address space -/

/-- Where the walks from `f` lead whose tables have the entries `next`. -/
def walks (next : ℕ → List (ℕ × ℕ)) : ℕ → ℕ → List (List ℕ × ℕ)
  | 0, f => [([], f)]
  | n + 1, f => ([], f) :: (next f).flatMap fun x =>
    (walks next n x.2).map fun y => (x.1 :: y.1, y.2)

theorem mem_walks (hnext : ∀ f i g, follow (m f i) = some g → (i, g) ∈ next f) (hl : p.length ≤ n)
    (h : node follow m f p = some g) : (p, g) ∈ walks next n f := by
  induction p generalizing f n with
  | nil =>
    cases h
    cases n <;> simp [walks]
  | cons i p ih =>
    cases n with
    | zero => simp at hl
    | succ =>
      obtain ⟨k, hk, h⟩ := Option.bind_eq_some_iff.mp h
      refine List.mem_cons_of_mem _ (List.mem_flatMap.mpr ⟨(i, k), hnext f i k hk, ?_⟩)
      exact List.mem_map.mpr ⟨(p, g), ih (by simpa using hl) h, rfl⟩

/-- The entries of the tables of a space with the root 2: two pages of frame 6 in one page table
and a page of frame 8 in another. -/
def pairNext : ℕ → List (ℕ × ℕ)
  | 2 => [(0, 3)]
  | 3 => [(0, 4)]
  | 4 => [(0, 5), (1, 7)]
  | 5 => [(0, 6), (1, 6)]
  | 7 => [(0, 8)]
  | _ => []

/-- That space, in a memory of 13 frames of which four are free.  Frame 6 is counted `c` times. -/
def pairRam (c : ℕ) : Ram where
  pmm :=
    { total := 13, used := fun f => f < 9,
      refcnt := fun f => if f = 6 then c else if f < 9 then 1 else 0, usedFrames := 9, hint := 0 }
  mem f i := match (pairNext f).find? fun x => x.1 == i with
    | some x => mkEntry x.2 (vmmP ||| vmmRW ||| vmmU)
    | none => 0#64
  kernel := 1

theorem pairRam_mem (c f i : ℕ) : (pairRam c).mem f i = 0#64 ∨
    ∃ g, (i, g) ∈ pairNext f ∧ (pairRam c).mem f i = mkEntry g (vmmP ||| vmmRW ||| vmmU) := by
  show (match (pairNext f).find? fun x => x.1 == i with
    | some x => mkEntry x.2 (vmmP ||| vmmRW ||| vmmU)
    | none => 0#64) = 0#64 ∨ _
  cases hx : (pairNext f).find? fun x => x.1 == i with
  | none => exact .inl rfl
  | some x =>
    have hi : x.1 = i := by simpa using List.find?_some hx
    refine .inr ⟨x.2, hi ▸ List.mem_of_find?_eq_some hx, ?_⟩
    show (match (pairNext f).find? fun x => x.1 == i with
      | some x => mkEntry x.2 (vmmP ||| vmmRW ||| vmmU)
      | none => 0#64) = _
    rw [hx]

theorem pairNext_lt (h : (i, g) ∈ pairNext f) : g < 9 := by
  unfold pairNext at h
  split at h <;> simp at h <;> omega

theorem pairRam_view (h : (pairRam c).view {2} x = some f) :
    x.1 = 2 ∧ (x.2, f) ∈ walks pairNext 4 2 := by
  obtain ⟨r, p⟩ := x
  obtain ⟨hr, -, hl, hnode⟩ := view_some_iff.mp h
  obtain rfl : r = 2 := hr
  refine ⟨rfl, mem_walks (fun f i g hg => ?_) hl hnode⟩
  rcases pairRam_mem c f i with h0 | ⟨k, hk, he⟩
  · rw [h0] at hg
    cases hg
  have hlt := pairNext_lt hk
  rw [he, follow_mkEntry (by omega) (by decide) (by decide)] at hg
  cases hg
  exact hk

theorem pairRam_held (c f : ℕ) :
    (pairRam c).held {2} f ≤ ((walks pairNext 4 2).filter fun y => y.2 == f).length := by
  have hsub : holders ((pairRam c).view {2}) f ⊆
      ((((walks pairNext 4 2).filter fun y => y.2 == f).map fun y => (2, y.1)).toFinset :
        Set (ℕ × List ℕ)) := by
    intro x hx
    obtain ⟨h1, h2⟩ := pairRam_view hx
    rw [Finset.mem_coe, List.mem_toFinset]
    exact List.mem_map.mpr ⟨(x.2, f), List.mem_filter.mpr ⟨h2, by simp⟩, by rw [← h1]⟩
  calc (pairRam c).held {2} f
      ≤ _ := Set.ncard_le_ncard hsub (Finset.finite_toSet _)
    _ ≤ _ := by
        rw [Set.ncard_coe_finset]
        exact (List.toFinset_card_le _).trans (by rw [List.length_map])

theorem pairRam_sound (hc : 2 ≤ c) : Sound {0, 1} {2} (pairRam c) := by
  have hrefs : ∀ f, f < 13 → ((walks pairNext 4 2).filter fun y => y.2 == f).length ≤
      if f = 6 then 2 else if f < 9 then 1 else 0 := by decide
  refine
    { finite := Set.finite_singleton 2
      sole := fun x y f hx hl hy => ?_
      home := fun x f hx => ?_
      refs := fun f hf => ?_
      counted := fun f hf => ?_
      total_le := by show 13 ≤ maxFrames; decide
      reserved := fun f hf _ => ?_
      zero := .inl rfl
      kernel := .inr rfl
      kernel_ne := by show (1 : ℕ) ≠ 0; decide
      half := fun r hr i hi => ?_
      tidy := fun x f i hx hl hok => ?_ }
  · have halone : ∀ a, a ∈ walks pairNext 4 2 → ∀ b, b ∈ walks pairNext 4 2 → a.1.length < 4 →
        b.2 = a.2 → b.1 = a.1 := by decide
    obtain ⟨h1, h2⟩ := pairRam_view hx
    obtain ⟨h3, h4⟩ := pairRam_view hy
    exact Prod.ext (h3.trans h1.symm) (halone _ h2 _ h4 hl rfl)
  · have hhome : ∀ a, a ∈ walks pairNext 4 2 → 2 ≤ a.2 ∧ a.2 < 13 := by decide
    obtain ⟨h1, h2⟩ := hhome _ (pairRam_view hx).2
    refine ⟨?_, .inl h2⟩
    rintro (h0 | h0)
    · omega
    · have h0 : f = 1 := h0
      omega
  · refine (pairRam_held c f).trans ((hrefs f hf).trans ?_)
    show _ ≤ if f = 6 then c else if f < 9 then 1 else 0
    split
    · exact hc
    · exact le_rfl
  · show decide (f < 9) = true ↔ 0 < if f = 6 then c else if f < 9 then 1 else 0
    by_cases h6 : f = 6
    · simp [h6]
      omega
    · by_cases h9 : f < 9 <;> simp [h6, h9]
  · show decide (f < 9) = true
    rcases hf with rfl | rfl
    · decide
    · decide
  · obtain rfl : r = 2 := hr
    have h1 : (pairRam c).mem (pairRam c).kernel i = 0#64 := rfl
    rcases pairRam_mem c 2 i with h0 | ⟨g, hg, -⟩
    · exact h0
    · have : i = 0 := by simpa using congrArg Prod.fst (List.mem_singleton.mp hg)
      omega
  · rcases pairRam_mem c f i with h0 | ⟨g, -, he⟩
    · refine ⟨fun _ hp => ?_, fun _ _ => h0⟩
      rw [h0] at hp
      cases hp
    · rw [he, has_mkEntry (by decide), has_mkEntry (by decide)]
      exact ⟨fun _ _ => by decide, fun _ hp => absurd hp (by decide)⟩

/-- The space has room for the copies of its pages as long as frame 6 is counted 253 times. -/
theorem pairRam_canClone : CanClone {2} 2 (pairRam 2) := by
  intro f hf
  have hpages : (pages {2} 2 (pairRam 2) f).ncard ≤ (pairRam 2).held {2} f := by
    refine Set.ncard_le_ncard_of_injOn (fun p => (2, p)) (fun p hp => hp.2) ?_
      (pairRam_sound le_rfl).finite_holders
    intro p _ q _ heq
    exact (Prod.mk.inj heq).2
  have hcounts : ∀ f, f < 13 → (if f = 6 then 2 else if f < 9 then 1 else 0) +
      ((walks pairNext 4 2).filter fun y => y.2 == f).length ≤ refMax := by decide
  have h1 := pairRam_held 2 f
  have h2 := hcounts f hf
  show (if f = 6 then 2 else if f < 9 then 1 else 0) + _ ≤ refMax
  omega

theorem pair_of_fst {α β : Type} {x : α × β} {a : α} (h : x.1 = a) : x = (a, x.2) := by
  subst h
  rfl

theorem pairRam_clone (c : ℕ) (hc : c = 2 ∨ c = 254) :
    (pairRam c).cloneUser 2 = (0, ((pairRam c).cloneUser 2).2) := by
  refine pair_of_fst ?_
  rcases hc with rfl | rfl
  · decide +kernel
  · decide +kernel

set_option maxRecDepth 8000 in
theorem pairRam_clone_refcnt : ((pairRam 254).cloneUser 2).2.pmm.refcnt 6 = 253 := by
  decide +kernel

end Xos.Mem
