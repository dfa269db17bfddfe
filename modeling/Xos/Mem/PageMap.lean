import Xos.Lib.Run
import Xos.Mem.Steps

/-!
# Page tables refine a map of pages

What `vmm_map_page` and `vmm_unmap_page` make of one PML4, seen as a partial map from page numbers
to a frame and flags.  The frames that are mapped need not belong to the memory manager, so the
invariant is about the tables alone: the first three levels.

* **`Tree`** — the tables of a PML4 are different used frames, and none of their entries is a huge
  page;
* **`Shows`** — the entries of the page tables are those of a map of pages; `Tree.step` says how the
  calls change it;
* **`page_tables_refine`** — over whole sequences of calls, what `vmm_pte_lookup` and
  `vmm_virt_to_phys` find is the latest mapping of the page;
* **`absent_page_translates`** — `vmm_virt_to_phys` does not look at the present bit of the last
  entry, and returns the offset for an address in a page that is not mapped.
-/

namespace Xos.Mem

open Xos.Lib Xos.Lib.Radix Function

/-! ## Maps of pages -/

/-- For every page number, the frame and the flags of its mapping. -/
abbrev PageMap := ℕ → Option (ℕ × Word)

/-- A successful call. -/
inductive PageOp where
  | map (va f : ℕ) (flags : Word)
  | unmap (va : ℕ)

/-- What a call means. -/
def PageOp.apply (M : PageMap) : PageOp → PageMap
  | .map va f flags => update M (va / 4096) (some (f, flags))
  | .unmap va => update M (va / 4096) none

/-- The latest mappings after a sequence of calls. -/
def pageMap (ops : List PageOp) : PageMap := ops.foldl PageOp.apply fun _ => none

/-- The entry for a mapping. -/
def wordOf : Option (ℕ × Word) → Word
  | none => 0#64
  | some (f, flags) => mkEntry f (flags ||| vmmP)

/-- What the call does to memory, if it succeeds. -/
def PageOp.Does (r : ℕ) (s : Ram) : PageOp → Ram → Prop
  | .map va f flags, t => s.mapPage r va f flags = (true, t)
  | .unmap va, t => s.unmapPage r va = t

/-- The addresses are in the user half, and the physical ones below 2^52. -/
def PageOp.InUser : PageOp → Prop
  | .map va f _ => va < 2 ^ 47 ∧ f < 2 ^ 40
  | .unmap va => va < 2 ^ 47

/-- The page at physical address zero is not mapped, and the flags have no bits of an address. -/
def PageOp.Plain : PageOp → Prop
  | .map _ f flags => f ≠ 0 ∧ flags &&& physMask = 0#64
  | .unmap _ => True

variable {s t : Ram} {M : PageMap} {f g i j r va va' : ℕ} {p q : List ℕ} {flags : Word}
  {op : PageOp}

/-! ## Paths and pages -/

theorem idx_div (level va : ℕ) : idx level va = va / 4096 / 2 ^ (9 * level) % 512 := by
  unfold idx
  rw [Nat.pow_add, ← Nat.div_div_eq_div_mul]

theorem idx_user (hva : va < 2 ^ 47) : idx 3 va < 256 := by
  rw [idx_div]
  omega

/-- Different pages have different paths. -/
theorem page_eq_of_path (hva : va < 2 ^ 47) (hva' : va' < 2 ^ 47) (hup : upper va = upper va')
    (h0 : idx 0 va = idx 0 va') : va / 4096 = va' / 4096 := by
  simp only [upper, List.cons.injEq] at hup
  obtain ⟨h3, h2, h1⟩ := hup
  rw [idx_div, idx_div] at h0 h1 h2 h3
  omega

theorem path_eq_of_page (h : va / 4096 = va' / 4096) :
    upper va = upper va' ∧ idx 0 va = idx 0 va' := by
  unfold upper
  simp only [idx_div, h, and_self]

/-! ## Tables -/

/-- The tables of the user half: three levels. -/
def tables : Layout Word where
  next := follow
  ok := UserPath
  depth := 3
  ok_left := userPath_left
  finite := (finite_paths 512 3).subset fun _ h => ⟨h.1.1, h.2⟩

/-- The table of `r` at a path. -/
noncomputable abbrev Ram.tableAt (s : Ram) (r : ℕ) (p : List ℕ) : Option ℕ :=
  Lib.Radix.view tables {r} s.mem (r, p)

theorem tableAt_eq (hp : UserPath p) (hl : p.length ≤ 3) :
    s.tableAt r p = node follow s.mem r p := view_eq (L := tables) rfl hp hl

theorem tableAt_root : s.tableAt r [] = some r :=
  view_some_iff.mpr ⟨rfl, userPath_nil, Nat.zero_le _, rfl⟩

theorem tableAt_snoc (hV : s.tableAt r p = some f) (hl : p.length < 3)
    (hp : UserPath (p ++ [i])) : s.tableAt r (p ++ [i]) = follow (s.mem f i) := by
  have h := view_snoc (L := tables) (A := {r}) (m := s.mem) (r := r) hp hl
  rw [show view tables {r} s.mem (r, p) = some f from hV] at h
  exact h

/-- The tables of the PML4 `r`. -/
structure Tree (r : ℕ) (s : Ram) : Prop where
  total_le : s.pmm.total ≤ maxFrames
  sole : ∀ p q f, s.tableAt r p = some f → s.tableAt r q = some f → q = p
  used : ∀ p f, s.tableAt r p = some f → f < s.pmm.total ∧ s.pmm.used f = true
  small : ∀ p f i, s.tableAt r p = some f → p.length < 3 → UserPath (p ++ [i]) →
    has (s.mem f i) vmmP = true → has (s.mem f i) vmmPS = false

/-- The page tables of `r` hold the mappings `M`. -/
def Shows (r : ℕ) (s : Ram) (M : PageMap) : Prop :=
  ∀ va, va < 2 ^ 47 →
    match s.tableAt r (upper va) with
    | none => M (va / 4096) = none
    | some pt => s.mem pt (idx 0 va) = wordOf (M (va / 4096))

theorem Shows.of_none (h : Shows r s M) (hva : va < 2 ^ 47) (hpt : s.tableAt r (upper va) = none) :
    M (va / 4096) = none := by
  have := h va hva
  rwa [hpt] at this

theorem Shows.of_some (h : Shows r s M) (hva : va < 2 ^ 47)
    (hpt : s.tableAt r (upper va) = some f) : s.mem f (idx 0 va) = wordOf (M (va / 4096)) := by
  have := h va hva
  rwa [hpt] at this

/-- Places are told apart by their paths. -/
theorem sole_view (hT : Tree r s) (hV : s.tableAt r p = some f) (y : ℕ × List ℕ)
    (hy : view tables {r} s.mem y = some f) : y = (r, p) := by
  obtain ⟨x, q⟩ := y
  obtain rfl : x = r := (view_some_iff.mp hy).1
  rw [hT.sole p q f hV hy]

section

variable (hT : Tree r s) (hM : Shows r s M)
include hT hM

section

variable (hV : s.tableAt r p = some f) (hl : p.length < 3) (hp : UserPath (p ++ [i]))
include hV hl hp

/-- A new table. -/
theorem Tree.link (habs : has (s.mem f i) vmmP = false)
    (hg : g < s.pmm.total) (hu : s.pmm.used g = false) :
    let t := ((s.take g).fill g fun _ => 0#64).setWord f i (mkEntry g (vmmP ||| vmmRW ||| vmmU))
    Tree r t ∧ Shows r t M ∧ t.tableAt r (p ++ [i]) = some g := by
  intro t
  have hnot : ∀ q, s.tableAt r q ≠ some g := fun q hq => by
    simp [(hT.used q g hq).2] at hu
  have hgf : g ≠ f := fun hc => hnot p (hc ▸ hV)
  have hfol : follow (mkEntry g (vmmP ||| vmmRW ||| vmmU)) = some g := by
    have := hT.total_le
    unfold maxFrames at this
    exact follow_mkEntry (by omega) (by decide) (by decide)
  have hnone : s.tableAt r (p ++ [i]) = none := by
    rw [tableAt_snoc hV hl hp]
    exact follow_none_iff.mpr habs
  -- the frame is wiped before it is linked
  set m₁ : ℕ → ℕ → Word := update s.mem g fun _ => 0#64 with hm₁
  have hview₁ : view tables {r} m₁ = view tables {r} s.mem := by
    refine view_scribble (f := g) (fun x q hq => ?_) fun k hk => update_of_ne hk _ _
    obtain rfl : x = r := (view_some_iff.mp hq).1
    exact absurd hq (hnot q)
  have hview : view tables {r} t.mem = update (view tables {r} s.mem) (r, p ++ [i]) (some g) := by
    rw [← hview₁, ← hfol]
    refine view_store (L := tables) (m := m₁) ?_ hl hp (fun y hy => ?_) (fun j => ?_)
      fun k hk _ => ?_
    · rw [hview₁]
      exact hV
    · rw [hview₁] at hy
      exact sole_view hT hV y hy
    · rw [hview₁]
      refine Option.eq_none_iff_forall_ne_some.mpr fun k hv => ?_
      obtain ⟨k', hk'⟩ := view_left hv
      exact absurd (hnone.symm.trans hk') (by simp)
    · obtain rfl := Option.some.inj (hfol.symm.trans hk)
      refine ⟨hgf, fun j _ => ?_⟩
      rw [hm₁, update_self]
      exact follow_zero
  have hother : ∀ q, q ≠ p ++ [i] → t.tableAt r q = s.tableAt r q := fun q hq => by
    show view tables {r} t.mem (r, q) = _
    rw [hview, update_of_ne fun hc => hq (Prod.mk.inj hc).2]
  have hnew : t.tableAt r (p ++ [i]) = some g := by
    show view tables {r} t.mem (r, p ++ [i]) = _
    rw [hview, update_self]
  have hmem : ∀ k, k ≠ g → k ≠ f → t.mem k = s.mem k := by
    intro k hk hkf
    show store m₁ f i _ k = _
    rw [store_frame hkf]
    exact update_of_ne hk _ _
  have hwiped : t.mem g = fun _ => 0#64 := by
    show store m₁ f i _ g = _
    rw [store_frame hgf]
    exact update_self _ _ _
  refine ⟨⟨hT.total_le, fun q q' k hq hq' => ?_, fun q k hq => ?_,
    fun q k j hq hlq hpq hpres => ?_⟩, fun va hva => ?_, hnew⟩
  · by_cases h1 : q = p ++ [i] <;> by_cases h2 : q' = p ++ [i]
    · rw [h1, h2]
    · rw [h1, hnew] at hq
      exact absurd (((hother q' h2).symm.trans hq').trans hq.symm) (hnot q')
    · rw [h2, hnew] at hq'
      exact absurd (((hother q h1).symm.trans hq).trans hq'.symm) (hnot q)
    · exact hT.sole q q' k (hother q h1 ▸ hq) (hother q' h2 ▸ hq')
  · show k < s.pmm.total ∧ update s.pmm.used g true k = true
    by_cases hkg : k = g
    · subst hkg
      exact ⟨hg, update_self _ _ _⟩
    have h1 : q ≠ p ++ [i] := by
      rintro rfl
      exact hkg (Option.some.inj (hq.symm.trans hnew))
    rw [hother q h1] at hq
    rw [update_of_ne hkg]
    exact hT.used q k hq
  · by_cases hkg : k = g
    · subst hkg
      have hpres : has 0#64 vmmP = true := by rwa [hwiped] at hpres
      exact absurd hpres (by decide)
    have h1 : q ≠ p ++ [i] := by
      rintro rfl
      exact hkg (Option.some.inj (hq.symm.trans hnew))
    rw [hother q h1] at hq
    by_cases hkf : k = f ∧ j = i
    · obtain ⟨rfl, rfl⟩ := hkf
      have hword : t.mem k j = mkEntry g (vmmP ||| vmmRW ||| vmmU) := store_same
      rw [hword, has_mkEntry (by decide)]
      decide
    have hword : t.mem k j = s.mem k j := by
      show store m₁ f i _ k j = _
      rw [store_other hkf]
      exact congrFun (update_of_ne hkg _ _) j
    rw [hword] at hpres ⊢
    exact hT.small q k j hq hlq hpq hpres
  · by_cases h1 : upper va = p ++ [i]
    · rw [h1, hnew]
      show t.mem g (idx 0 va) = _
      rw [hwiped, hM.of_none hva (by rw [h1]; exact hnone)]
      rfl
    rw [hother _ h1]
    cases hpt : s.tableAt r (upper va) with
    | none => exact hM.of_none hva hpt
    | some pt =>
      have hpg : pt ≠ g := fun hc => hnot _ (hc ▸ hpt)
      have hpf : pt ≠ f := by
        rintro rfl
        have := congrArg List.length (hT.sole p (upper va) pt hV hpt)
        simp [upper] at this
        omega
      show t.mem pt (idx 0 va) = _
      rw [hmem pt hpg hpf]
      exact hM.of_some hva hpt

/-- One level of `vmm_map_page`. -/
theorem Tree.ensure (he : s.ensure f i = (some g, t)) :
    Tree r t ∧ Shows r t M ∧ t.tableAt r (p ++ [i]) = some g := by
  unfold Ram.ensure at he
  split at he
  · next hpres =>
      obtain ⟨h1, rfl⟩ := Prod.mk.inj he
      refine ⟨hT, hM, ?_⟩
      rw [tableAt_snoc hV hl hp]
      exact follow_some_iff.mpr ⟨hpres, Option.some.inj h1⟩
  next habs =>
    have habs : has (s.mem f i) vmmP = false := by simpa using habs
    unfold Ram.alloc at he
    rcases s.pmm.allocFrame_cases with ⟨k, hk, hu, heq⟩ | heq
    · rw [heq] at he
      split at he
      · cases he
      next h0 =>
      cases h0
      obtain ⟨h1, rfl⟩ := Prod.mk.inj he
      have hlt : k < 2 ^ 40 := by
        have := hT.total_le
        unfold maxFrames at this
        omega
      rw [frameOf_mkEntry hlt (by decide)] at h1
      cases h1
      exact hT.link hM hV hl hp habs hk hu
    · simp [heq] at he

end

theorem Tree.ensurePath (hV : s.tableAt r p = some f)
    (hp : UserPath (p ++ q)) (hl : p.length + q.length ≤ 3)
    (he : s.ensurePath f q = (some g, t)) :
    Tree r t ∧ Shows r t M ∧ t.tableAt r (p ++ q) = some g := by
  induction q generalizing s f p with
  | nil =>
    obtain ⟨h1, rfl⟩ := Prod.mk.inj he
    cases h1
    rw [List.append_nil]
    exact ⟨hT, hM, hV⟩
  | cons i q ih =>
    have hpi : p ++ i :: q = p ++ [i] ++ q := by simp
    rw [List.length_cons] at hl
    rw [hpi] at hp
    unfold Ram.ensurePath at he
    split at he
    · cases he
    next k s₁ hk =>
    obtain ⟨h1, h2, h3⟩ := hT.ensure hM hV (by omega) (userPath_left hp) hk
    have hlen : (p ++ [i]).length + q.length ≤ 3 := by
      rw [List.length_append, List.length_singleton]
      omega
    rw [hpi]
    exact ih h1 h2 h3 hp hlen he

/-- The store of a page's entry. -/
theorem Tree.setPage (hva : va < 2 ^ 47) (hpt : s.tableAt r (upper va) = some f) :
    Tree r (s.setWord f (idx 0 va) (wordOf w)) ∧
      Shows r (s.setWord f (idx 0 va) (wordOf w)) (update M (va / 4096) w) := by
  have hlow : ∀ q k, s.tableAt r q = some k → q.length < 3 → k ≠ f := by
    rintro q k hq hl rfl
    have := congrArg List.length (hT.sole _ _ k hpt hq)
    simp [upper] at this
    omega
  have hview : ∀ q, (s.setWord f (idx 0 va) (wordOf w)).tableAt r q = s.tableAt r q := by
    intro q
    refine congrFun (view_congr fun x p k i hk hl _ => ?_) (r, q)
    obtain rfl : x = r := (view_some_iff.mp hk).1
    exact congrFun (store_frame (hlow p k hk hl)) i
  refine ⟨⟨hT.total_le, fun p q k hp hq => ?_, fun p k hp => ?_, fun p k i hp hl hok hpres => ?_⟩,
    fun va' hva' => ?_⟩
  · rw [hview] at hp hq
    exact hT.sole p q k hp hq
  · rw [hview] at hp
    exact hT.used p k hp
  · rw [hview] at hp
    have hsame : (s.setWord f (idx 0 va) (wordOf w)).mem k = s.mem k := store_frame (hlow p k hp hl)
    rw [hsame] at hpres ⊢
    exact hT.small p k i hp hl hok hpres
  · rw [hview]
    by_cases hpage : va' / 4096 = va / 4096
    · obtain ⟨hup, h0⟩ := path_eq_of_page hpage
      rw [hup, hpt, hpage, update_self, h0]
      exact store_same
    rw [update_of_ne hpage]
    cases hpt' : s.tableAt r (upper va') with
    | none => exact hM.of_none hva' hpt'
    | some k =>
      have hne : ¬(k = f ∧ idx 0 va' = idx 0 va) := by
        rintro ⟨rfl, h0⟩
        exact hpage (page_eq_of_path hva' hva (hT.sole _ _ k hpt hpt') h0)
      have hsame : (s.setWord f (idx 0 va) (wordOf w)).mem k (idx 0 va') =
          s.mem k (idx 0 va') := store_other hne
      show (s.setWord f (idx 0 va) (wordOf w)).mem k (idx 0 va') = _
      rw [hsame]
      exact hM.of_some hva' hpt'

/-- **One call.** -/
theorem Tree.step (hop : op.InUser) (hdoes : op.Does r s t) :
    Tree r t ∧ Shows r t (op.apply M) := by
  cases op with
  | map va f flags =>
    obtain ⟨hva, -⟩ := hop
    have hdoes : s.mapPage r va f flags = (true, t) := hdoes
    unfold Ram.mapPage at hdoes
    split at hdoes
    · cases hdoes
    next pt s₁ hpath =>
    obtain ⟨-, rfl⟩ := Prod.mk.inj hdoes
    obtain ⟨h1, h2, h3⟩ := hT.ensurePath hM tableAt_root
      (userPath_upper (idx_user hva)) (by simp) hpath
    exact h1.setPage (w := some (f, flags)) h2 hva h3
  | unmap va =>
    have hva : va < 2 ^ 47 := hop
    obtain rfl : s.unmapPage r va = t := hdoes
    have hnode := tableAt_eq (s := s) (r := r) (userPath_upper (idx_user hva)) (by simp [upper])
    unfold Ram.unmapPage
    rw [← hnode]
    cases hpt : s.tableAt r (upper va) with
    | none =>
      refine ⟨hT, ?_⟩
      show Shows r s (update M (va / 4096) none)
      rw [← hM.of_none hva hpt, update_eq_self]
      exact hM
    | some => exact hT.setPage (w := none) hM hva hpt

end

/-! ## Looking up -/

/-- What the walks of a tree find. -/
theorem Tree.walks (hT : Tree r s) (hva : va < 2 ^ 47) : s.pteLookup r va = s.tableAt r (upper va) ∧
      s.virtToPhys r va = (match s.tableAt r (upper va) with
        | none => 0
        | some pt => frameOf (s.mem pt (idx 0 va)) * 4096 + va % 4096) := by
  have hu := idx_user hva
  rw [tableAt_eq (userPath_upper hu) (by simp [upper])]
  refine walks_of_small hu fun p i f hV hl hp => ?_
  exact hT.small p f i ((tableAt_eq (userPath_left hp) (by omega)).trans hV) hl hp

/-- A PML4 that was just created has no mappings. -/
theorem Tree.create (htotal : s.pmm.total ≤ maxFrames) (hc : s.createPml4 = (r, t)) (hr : r ≠ 0) :
    Tree r t ∧ Shows r t fun _ => none := by
  unfold Ram.createPml4 Ram.alloc at hc
  rcases s.pmm.allocFrame_cases with ⟨k, hk, hu, heq⟩ | heq
  swap
  · rw [heq] at hc
    cases hc
    exact absurd rfl hr
  rw [heq] at hc
  split at hc
  · cases hc
    exact absurd rfl hr
  next h0 =>
  cases h0
  cases hc
  -- the user half of the new table is zero, so there are no further tables
  have hzero : ∀ i, i < 256 → (({ s with pmm := s.pmm.take k } : Ram).fill k fun i =>
      if 256 ≤ i then s.mem s.kernel i else 0#64).mem k i = 0#64 := by
    intro i hi
    rw [Ram.fill_same, if_neg (by omega)]
  have honly : ∀ p f, (({ s with pmm := s.pmm.take k } : Ram).fill k fun i =>
      if 256 ≤ i then s.mem s.kernel i else 0#64).tableAt k p = some f → p = [] ∧ f = k := by
    intro p f hp
    obtain ⟨-, hok, -, hnode⟩ := view_some_iff.mp hp
    cases p with
    | nil => exact ⟨rfl, (Option.some.inj hnode).symm⟩
    | cons i =>
      obtain ⟨g, hg, -⟩ := Option.bind_eq_some_iff.mp hnode
      have hi : i < 256 := hok.2 i rfl
      rw [hzero i hi] at hg
      cases hg
  refine ⟨⟨htotal, fun p q f hp hq => ?_, fun p f hp => ?_, fun p f i hp _ hok hpres => ?_⟩,
    fun va hva => ?_⟩
  · rw [(honly p f hp).1, (honly q f hq).1]
  · obtain ⟨-, rfl⟩ := honly p f hp
    exact ⟨hk, update_self _ _ _⟩
  · obtain ⟨rfl, rfl⟩ := honly p f hp
    rw [hzero i (hok.2 i rfl)] at hpres
    cases hpres
  · cases hpt : Ram.tableAt _ k (upper va) with
    | none => rfl
    | some f => cases (honly _ f hpt).1

/-- A mapped page is found, with its latest frame and flags. -/
theorem Tree.of_mapped (hT : Tree r s) (hM : Shows r s M) (hva : va < 2 ^ 47)
    (hpage : M (va / 4096) = some (f, flags)) (hf : f < 2 ^ 40)
    (hflags : flags &&& physMask = 0#64) :
    s.virtToPhys r va = f * 4096 + va % 4096 ∧
      ∃ pt, s.pteLookup r va = some pt ∧ s.mem pt (idx 0 va) = mkEntry f (flags ||| vmmP) := by
  obtain ⟨h1, h2⟩ := hT.walks hva
  cases hpt : s.tableAt r (upper va) with
  | none => simp [hM.of_none hva hpt] at hpage
  | some pt =>
    have hword : s.mem pt (idx 0 va) = mkEntry f (flags ||| vmmP) := by
      rw [hM.of_some hva hpt, hpage]
      rfl
    have hmask : (flags ||| vmmP) &&& physMask = 0#64 := or_mask hflags (by decide)
    rw [hpt] at h1 h2
    refine ⟨?_, pt, h1, hword⟩
    rw [h2]
    simp only
    rw [hword, frameOf_mkEntry hf hmask]

/-- A page that is not mapped has no present entry; `vmm_virt_to_phys` gives zero or the offset. -/
theorem Tree.of_unmapped (hT : Tree r s) (hM : Shows r s M) (hva : va < 2 ^ 47)
    (hpage : M (va / 4096) = none) :
    (s.virtToPhys r va = 0 ∨ s.virtToPhys r va = va % 4096) ∧
      ∀ pt, s.pteLookup r va = some pt → has (s.mem pt (idx 0 va)) vmmP = false := by
  obtain ⟨h1, h2⟩ := hT.walks hva
  cases hpt : s.tableAt r (upper va) with
  | none =>
    rw [hpt] at h1 h2
    refine ⟨.inl h2, fun pt hc => ?_⟩
    simp [h1] at hc
  | some pt =>
    have hword : s.mem pt (idx 0 va) = 0#64 := by
      rw [hM.of_some hva hpt, hpage]
      rfl
    rw [hpt] at h1 h2
    refine ⟨.inr ?_, fun pt' hc => ?_⟩
    · rw [h2]
      simp only
      rw [hword, show frameOf 0#64 = 0 by decide]
      omega
    · obtain rfl := Option.some.inj (h1.symm.trans hc)
      rw [hword]
      decide

/-! ## The results -/

/-- A call of the sequence succeeds. -/
def PageStep (r : ℕ) (s : Ram) (op : PageOp) (t : Ram) : Prop := op.InUser ∧ op.Does r s t

/-- The page that a call is about. -/
def PageOp.page : PageOp → ℕ
  | .map va _ _ => va / 4096
  | .unmap va => va / 4096

theorem apply_of_ne (hn : op.page ≠ n) : op.apply M n = M n := by
  cases op with
  | map | unmap => exact update_of_ne (fun hc => hn hc.symm) _ _

/-- The mappings that plain calls make. -/
def PlainMap (M : PageMap) : Prop :=
  ∀ n f flags, M n = some (f, flags) → f < 2 ^ 40 ∧ f ≠ 0 ∧ flags &&& physMask = 0#64

theorem PlainMap.apply (hM : PlainMap M) (hin : op.InUser) (hop : op.Plain) :
    PlainMap (op.apply M) := by
  intro n f flags hn
  by_cases hpage : op.page = n
  · cases op with
    | map va =>
      obtain rfl : va / 4096 = n := hpage
      simp only [PageOp.apply, update_self] at hn
      cases hn
      exact ⟨hin.2, hop⟩
    | unmap va =>
      obtain rfl : va / 4096 = n := hpage
      simp [PageOp.apply] at hn
  · rw [apply_of_ne hpage] at hn
    exact hM n f flags hn

/-- **A run refines the map.** -/
theorem Tree.run (hT : Tree r s) (hM : Shows r s M) (hp : PlainMap M)
    (hrun : Run (PageStep r) (fun _ op => op.Plain) s ops t) :
    Tree r t ∧ Shows r t (ops.foldl PageOp.apply M) ∧ PlainMap (ops.foldl PageOp.apply M) := by
  induction hrun with
  | nil => exact ⟨hT, hM, hp⟩
  | snoc _ hplain hstep ih =>
    obtain ⟨h1, h2, h3⟩ := ih
    rw [List.foldl_append]
    obtain ⟨h4, h5⟩ := h1.step h2 hstep.1 hstep.2
    exact ⟨h4, h5, h3.apply hstep.1 hplain⟩

/-- Whether an aligned address is translated, and what to, is a matter of the map alone. -/
theorem Tree.aligned (hT : Tree r s) (hM : Shows r s M) (hp : PlainMap M) (hva : va < 2 ^ 47)
    (hal : va % 4096 = 0) :
    s.virtToPhys r va = (match M (va / 4096) with
      | none => 0
      | some (f, _) => f * 4096) := by
  cases hpage : M (va / 4096) with
  | none =>
    rcases (hT.of_unmapped hM hva hpage).1 with h0 | h0
    · exact h0
    · rw [h0, hal]
  | some x =>
    obtain ⟨f, flags⟩ := x
    obtain ⟨h1, -, h3⟩ := hp _ f flags hpage
    rw [(hT.of_mapped hM hva hpage h1 h3).1, hal, Nat.add_zero]

/-- **Page tables refine a map of pages.**  After any sequence of successful calls on a new PML4:
a mapped page is found, with the frame of its latest mapping plus the offset and with the latest
flags; an entry is present if and only if the page is mapped; the translation reaches beyond the
first page if and only if it is, and for an aligned address it is then not zero; and a further call
changes the translation of no other page. -/
theorem page_tables_refine {s₀ : Ram} {ops : List PageOp} (htotal : s.pmm.total ≤ maxFrames)
    (hcreate : s.createPml4 = (r, s₀)) (hr : r ≠ 0)
    (hrun : Run (PageStep r) (fun _ op => op.Plain) s₀ ops t) (hva : va < 2 ^ 47) :
    (∀ f flags, pageMap ops (va / 4096) = some (f, flags) →
      t.virtToPhys r va = f * 4096 + va % 4096 ∧
        ∃ pt, t.pteLookup r va = some pt ∧ t.mem pt (idx 0 va) = mkEntry f (flags ||| vmmP)) ∧
    ((∃ pt, t.pteLookup r va = some pt ∧ has (t.mem pt (idx 0 va)) vmmP = true) ↔
      pageMap ops (va / 4096) ≠ none) ∧
    (4096 ≤ t.virtToPhys r va ↔ pageMap ops (va / 4096) ≠ none) ∧
    (va % 4096 = 0 → (t.virtToPhys r va ≠ 0 ↔ pageMap ops (va / 4096) ≠ none) ∧
      ∀ op u, op.Plain → PageStep r t op u → op.page ≠ va / 4096 →
        u.virtToPhys r va = t.virtToPhys r va) := by
  obtain ⟨hT₀, hM₀⟩ := Tree.create htotal hcreate hr
  obtain ⟨hT, hM, hp⟩ := hT₀.run hM₀ (fun _ _ _ hc => by cases hc) hrun
  have hpresent : ∀ f flags, has (mkEntry f (flags ||| vmmP)) vmmP = true := fun f flags => by
    rw [has_mkEntry (by decide), has_or]
    simp [show has vmmP vmmP = true by decide]
  have hmapped : ∀ f flags, pageMap ops (va / 4096) = some (f, flags) →
      t.virtToPhys r va = f * 4096 + va % 4096 ∧
        ∃ pt, t.pteLookup r va = some pt ∧ t.mem pt (idx 0 va) = mkEntry f (flags ||| vmmP) := by
    intro f flags hpage
    obtain ⟨h1, -, h3⟩ := hp _ f flags hpage
    exact hT.of_mapped hM hva hpage h1 h3
  refine ⟨hmapped, ?_, ?_, fun hal => ⟨?_, fun op u hop hstep hne => ?_⟩⟩
  · cases hpage : pageMap ops (va / 4096) with
    | none =>
      refine ⟨?_, fun h => absurd rfl h⟩
      rintro ⟨pt, hpt, hpres⟩
      simp [(hT.of_unmapped hM hva hpage).2 pt hpt] at hpres
    | some x =>
      obtain ⟨-, pt, hpt, hword⟩ := hmapped x.1 x.2 hpage
      refine ⟨fun _ => by simp, fun _ => ⟨pt, hpt, ?_⟩⟩
      rw [hword]
      exact hpresent _ _
  · cases hpage : pageMap ops (va / 4096) with
    | none =>
      refine ⟨fun hle => ?_, fun h => absurd rfl h⟩
      have := (hT.of_unmapped hM hva hpage).1
      omega
    | some x =>
      obtain ⟨-, h0, -⟩ := hp _ x.1 x.2 hpage
      have := (hmapped x.1 x.2 hpage).1
      refine ⟨fun _ => by simp, fun _ => ?_⟩
      omega
  · rw [hT.aligned hM hp hva hal]
    cases hpage : pageMap ops (va / 4096) with
    | none =>
      rw [show (ops.foldl PageOp.apply fun _ => none) (va / 4096) = none from hpage]
      simp
    | some x =>
      obtain ⟨-, h0, -⟩ := hp _ x.1 x.2 hpage
      rw [show (ops.foldl PageOp.apply fun _ => none) (va / 4096) = some x from hpage]
      simp [h0]
  · obtain ⟨hT', hM'⟩ := hT.step hM hstep.1 hstep.2
    rw [hT'.aligned hM' (hp.apply hstep.1 hop) hva hal, hT.aligned hM hp hva hal, apply_of_ne hne]

/-! ## Sequences on a small machine -/

/-- A memory of 16 frames of which the first four are used; the kernel's PML4 is frame 1. -/
def smallRam : Ram where
  pmm :=
    { total := 16, used := fun f => f < 4, refcnt := fun f => if f < 4 then 1 else 0,
      usedFrames := 4, hint := 0 }
  mem _ _ := 0#64
  kernel := 1

/-- The PML4 that `vmm_create_pml4` makes there. -/
def smallSpace : Ram := smallRam.createPml4.2

theorem smallRam_create : smallRam.createPml4 = (4, smallSpace) := rfl

/-- A writable user page. -/
def userPage : Word := vmmRW ||| vmmU

/-- The space with the page at 0x1000 mapped to the frame `f`. -/
def onePage (f : ℕ) : Ram := (smallSpace.mapPage 4 0x1000 f userPage).2

theorem onePage_step (hf : f < 2 ^ 40) :
    PageStep 4 smallSpace (.map 0x1000 f userPage) (onePage f) := by
  refine ⟨⟨by norm_num, hf⟩, ?_⟩
  have hdone : (smallSpace.mapPage 4 0x1000 f userPage).1 = true := by
    rfl
  exact Prod.ext hdone rfl

/-- The space with a second page, at 0x2000. -/
def twoPages : Ram := ((onePage 9).mapPage 4 0x2000 10 userPage).2

/-- Two pages are mapped, the first is unmapped, and the second is found. -/
theorem mapped_page_found : ∃ t, Run (PageStep 4) (fun _ op => op.Plain) smallSpace
    [.map 0x1000 9 userPage, .map 0x2000 10 userPage, .unmap 0x1000] t ∧
      t.virtToPhys 4 0x2234 = 0xa234 := by
  have hsecond : PageStep 4 (onePage 9) (.map 0x2000 10 userPage) twoPages := by
    refine ⟨⟨by norm_num, by norm_num⟩, ?_⟩
    have hdone : ((onePage 9).mapPage 4 0x2000 10 userPage).1 = true := by
      rfl
    exact Prod.ext hdone rfl
  have hunmap : PageStep 4 twoPages (.unmap 0x1000) (twoPages.unmapPage 4 0x1000) :=
    ⟨by show 0x1000 < 2 ^ 47; norm_num, rfl⟩
  have hrun : Run (PageStep 4) (fun _ op => op.Plain) smallSpace
      [.map 0x1000 9 userPage, .map 0x2000 10 userPage, .unmap 0x1000]
      (twoPages.unmapPage 4 0x1000) :=
    Run.cons ⟨by decide, by decide⟩ (onePage_step (by norm_num)) <|
      Run.cons ⟨by decide, by decide⟩ hsecond <| Run.cons trivial hunmap .nil
  have hfound := page_tables_refine (s := smallRam) (by decide) smallRam_create (by decide) hrun
    (show 0x2234 < 2 ^ 47 by norm_num)
  exact ⟨_, hrun, (hfound.1 10 userPage (by decide)).1⟩

/-- **An absent page translates.**  A page is mapped and unmapped again: `vmm_virt_to_phys` of an
address inside is the offset, which is not zero.  A page is mapped at physical address zero: the
translation of its address is zero. -/
theorem absent_page_translates : (∃ t, Run (PageStep 4) (fun _ _ => True) smallSpace
        [.map 0x1000 9 userPage, .unmap 0x1000] t ∧
      pageMap [.map 0x1000 9 userPage, .unmap 0x1000] (0x1001 / 4096) = none ∧
      t.virtToPhys 4 0x1001 = 1) ∧
    ∃ t, Run (PageStep 4) (fun _ _ => True) smallSpace [.map 0x1000 0 userPage] t ∧
      pageMap [.map 0x1000 0 userPage] (0x1000 / 4096) = some (0, userPage) ∧
      t.virtToPhys 4 0x1000 = 0 := by
  have hunmap : PageStep 4 (onePage 9) (.unmap 0x1000) ((onePage 9).unmapPage 4 0x1000) :=
    ⟨by show 0x1000 < 2 ^ 47; norm_num, rfl⟩
  refine ⟨⟨(onePage 9).unmapPage 4 0x1000, ?_, by decide, by decide +kernel⟩, onePage 0, ?_,
    by decide, by decide +kernel⟩
  · exact Run.cons trivial (onePage_step (by norm_num)) (Run.cons trivial hunmap .nil)
  · exact Run.cons trivial (onePage_step (by norm_num)) .nil

end Xos.Mem
