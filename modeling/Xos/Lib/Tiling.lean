import Mathlib.Data.List.Chain
import Mathlib.Data.List.Basic
import Mathlib.Tactic.Ring
import Mathlib.Order.Basic

/-!
# An interval cut into blocks

An allocator cuts an interval of addresses into blocks that are live or free.  `Tiled` says that the
blocks of a list follow each other without a gap; `Sparse` that no two free blocks do.  Then the
free blocks are known as soon as the live ones are:

* **`frees_eq_gaps`** — they are the maximal gaps that the live blocks leave, in address order;
* **`Tiled.exists_unique`** — every address belongs to one block.

The other lemmas are for replacing one or two neighbours of a tiling by others.
-/

namespace Xos.Lib

/-- A block: where it starts, how long it is, and whether it is in use. -/
structure Seg where
  addr : ℕ
  size : ℕ
  live : Bool
  deriving DecidableEq

/-- The first address behind the block. -/
def Seg.stop (s : Seg) : ℕ := s.addr + s.size

/-- The blocks fill the addresses from `lo` (included) to `hi` (excluded). -/
def Tiled : ℕ → ℕ → List Seg → Prop
  | lo, hi, [] => lo = hi
  | lo, hi, s :: T => s.addr = lo ∧ 0 < s.size ∧ Tiled s.stop hi T

/-- No two neighbours are free. -/
def Sparse (T : List Seg) : Prop := T.IsChain fun a b => a.live = true ∨ b.live = true

/-- Start and length of the live blocks. -/
def lives (T : List Seg) : List (ℕ × ℕ) :=
  (T.filter fun s => s.live).map fun s => (s.addr, s.size)

/-- Start and length of the free blocks. -/
def frees (T : List Seg) : List (ℕ × ℕ) :=
  (T.filter fun s => !s.live).map fun s => (s.addr, s.size)

/-- The maximal gaps that blocks leave between `lo` and `hi`; the blocks are given in address
order. -/
def gaps (lo hi : ℕ) : List (ℕ × ℕ) → List (ℕ × ℕ)
  | [] => if lo < hi then [(lo, hi - lo)] else []
  | (a, n) :: L => (if lo < a then [(lo, a - lo)] else []) ++ gaps (a + n) hi L

variable {lo hi mid : ℕ} {s t : Seg} {T T₁ T₂ : List Seg}

theorem tiled_append : Tiled lo hi (T₁ ++ T₂) ↔ ∃ mid, Tiled lo mid T₁ ∧ Tiled mid hi T₂ := by
  induction T₁ generalizing lo with
  | nil =>
    refine ⟨fun h => ⟨lo, rfl, h⟩, ?_⟩
    rintro ⟨mid, rfl, h⟩
    exact h
  | cons s T₁ ih =>
    constructor
    · rintro ⟨ha, hpos, h⟩
      obtain ⟨mid, h₁, h₂⟩ := ih.mp h
      exact ⟨mid, ⟨ha, hpos, h₁⟩, h₂⟩
    · rintro ⟨mid, ⟨ha, hpos, h₁⟩, h₂⟩
      exact ⟨ha, hpos, ih.mpr ⟨mid, h₁, h₂⟩⟩

theorem Tiled.le (h : Tiled lo hi T) : lo ≤ hi := by
  induction T generalizing lo with
  | nil => exact le_of_eq h
  | cons s T ih =>
    obtain ⟨ha, hpos, h⟩ := h
    have := ih h
    unfold Seg.stop at this
    omega

theorem Tiled.bounds (h : Tiled lo hi T) (hs : s ∈ T) : lo ≤ s.addr ∧ s.stop ≤ hi ∧ 0 < s.size := by
  induction T generalizing lo with
  | nil => cases hs
  | cons t T ih =>
    obtain ⟨ha, hpos, h⟩ := h
    rcases List.mem_cons.mp hs with rfl | hs
    · exact ⟨ha.ge, h.le, hpos⟩
    have := ih h hs
    unfold Seg.stop at this ⊢
    omega

/-- A tiling around one of its blocks. -/
theorem Tiled.split (h : Tiled lo hi (T₁ ++ s :: T₂)) :
    Tiled lo s.addr T₁ ∧ 0 < s.size ∧ Tiled s.stop hi T₂ := by
  obtain ⟨mid, h₁, ha, hpos, h₂⟩ := tiled_append.mp h
  exact ⟨ha ▸ h₁, hpos, h₂⟩

/-- Two blocks are one, or one ends before the other starts. -/
theorem Tiled.apart (h : Tiled lo hi T) (hs : s ∈ T) (ht : t ∈ T) :
    s = t ∨ s.stop ≤ t.addr ∨ t.stop ≤ s.addr := by
  induction T generalizing lo with
  | nil => cases hs
  | cons u T ih =>
    obtain ⟨ha, hpos, h⟩ := h
    rcases List.mem_cons.mp hs with rfl | hs' <;> rcases List.mem_cons.mp ht with rfl | ht'
    · exact .inl rfl
    · exact .inr (.inl (h.bounds ht').1)
    · exact .inr (.inr (h.bounds hs').1)
    · exact ih h hs' ht'

theorem Tiled.eq_of_addr (h : Tiled lo hi T) (hs : s ∈ T) (ht : t ∈ T) (heq : s.addr = t.addr) :
    s = t := by
  have h1 := (h.bounds hs).2.2
  have h2 := (h.bounds ht).2.2
  rcases h.apart hs ht with heq' | hst | hts
  · exact heq'
  · unfold Seg.stop at hst
    omega
  · unfold Seg.stop at hts
    omega

/-- **Every address belongs to one block.** -/
theorem Tiled.exists_unique (h : Tiled lo hi T) (hlo : lo ≤ x) (hhi : x < hi) :
    ∃! s, s ∈ T ∧ s.addr ≤ x ∧ x < s.stop := by
  have hex : ∃ s, s ∈ T ∧ s.addr ≤ x ∧ x < s.stop := by
    induction T generalizing lo with
    | nil =>
      have : lo = hi := h
      omega
    | cons s T ih =>
      obtain ⟨ha, hpos, h⟩ := h
      by_cases hx : x < s.stop
      · exact ⟨s, List.mem_cons_self, by omega, hx⟩
      · obtain ⟨t, ht, h1, h2⟩ := ih h (by omega)
        exact ⟨t, List.mem_cons_of_mem _ ht, h1, h2⟩
  obtain ⟨s, hs, h1, h2⟩ := hex
  refine ⟨s, ⟨hs, h1, h2⟩, ?_⟩
  rintro t ⟨ht, h3, h4⟩
  rcases h.apart ht hs with heq | hle | hle
  · exact heq
  · omega
  · omega

/-! ## Gaps -/

@[simp] theorem lives_nil : lives [] = [] := rfl

@[simp] theorem frees_nil : frees [] = [] := rfl

@[simp] theorem lives_append : lives (T₁ ++ T₂) = lives T₁ ++ lives T₂ := by simp [lives]

@[simp] theorem frees_append : frees (T₁ ++ T₂) = frees T₁ ++ frees T₂ := by simp [frees]

theorem lives_cons_live (h : s.live = true) : lives (s :: T) = (s.addr, s.size) :: lives T := by
  simp [lives, h]

theorem lives_cons_free (h : s.live = false) : lives (s :: T) = lives T := by simp [lives, h]

theorem frees_cons_live (h : s.live = true) : frees (s :: T) = frees T := by simp [frees, h]

theorem frees_cons_free (h : s.live = false) : frees (s :: T) = (s.addr, s.size) :: frees T := by
  simp [frees, h]

theorem mem_lives : (a, n) ∈ lives T ↔ (⟨a, n, true⟩ : Seg) ∈ T := by
  unfold lives
  rw [List.mem_map]
  constructor
  · rintro ⟨⟨a', n', l⟩, hs, heq⟩
    cases heq
    obtain ⟨hs, rfl⟩ := List.mem_filter.mp hs
    exact hs
  · intro hs
    exact ⟨_, List.mem_filter.mpr ⟨hs, rfl⟩, rfl⟩

theorem mem_frees : (a, n) ∈ frees T ↔ (⟨a, n, false⟩ : Seg) ∈ T := by
  unfold frees
  rw [List.mem_map]
  constructor
  · rintro ⟨⟨a', n', l⟩, hs, heq⟩
    cases heq
    obtain ⟨hs, hl⟩ := List.mem_filter.mp hs
    cases l with
    | false => exact hs
    | true => cases hl
  · intro hs
    exact ⟨_, List.mem_filter.mpr ⟨hs, rfl⟩, rfl⟩

/-- **The free blocks are the gaps.** -/
theorem frees_eq_gaps (h : Tiled lo hi T) (hT : Sparse T) : frees T = gaps lo hi (lives T) := by
  induction T generalizing lo with
  | nil =>
    have heq : lo = hi := h
    simp [gaps, heq]
  | cons s T ih =>
    obtain ⟨rfl, hpos, h⟩ := h
    have hrest := ih h hT.tail
    cases hl : s.live with
    | true =>
      rw [frees_cons_live hl, lives_cons_live hl, hrest]
      simp [gaps, Seg.stop]
    | false =>
      rw [frees_cons_free hl, lives_cons_free hl, hrest]
      have hlt : s.addr < s.stop := by unfold Seg.stop; omega
      have hsize : s.stop - s.addr = s.size := by unfold Seg.stop; omega
      -- what follows a free block is live, or the end
      cases T with
      | nil =>
        have heq : s.stop = hi := h
        subst heq
        simp [gaps, hlt, hsize]
      | cons t =>
        obtain ⟨ht, -, -⟩ := h
        have htl : t.live = true := by
          have := (List.isChain_cons_cons.mp hT).1
          simpa [hl] using this
        rw [lives_cons_live htl]
        simp [gaps, ht, hlt, hsize]

/-- **Free blocks never touch.** -/
theorem frees_apart (h : Tiled lo hi T) (hT : Sparse T) :
    (frees T).Pairwise fun x y => x.1 + x.2 < y.1 := by
  induction T generalizing lo with
  | nil => exact List.Pairwise.nil
  | cons s T ih =>
    obtain ⟨-, -, h⟩ := h
    have hrest := ih h hT.tail
    cases hl : s.live with
    | true =>
      rw [frees_cons_live hl]
      exact hrest
    | false =>
      rw [frees_cons_free hl, List.pairwise_cons]
      refine ⟨fun y hy => ?_, hrest⟩
      -- the block behind `s` is live, and `y` lies behind that one
      cases T with
      | nil => cases hy
      | cons t =>
        obtain ⟨ht, hpos, h⟩ := h
        have htl : t.live = true := by
          have := (List.isChain_cons_cons.mp hT).1
          simpa [hl] using this
        rw [frees_cons_live htl] at hy
        have hb := (h.bounds (mem_frees.mp hy)).1
        unfold Seg.stop at hb ht
        simp only at hb ⊢
        omega

theorem lives_apart (h : Tiled lo hi T) : (lives T).Pairwise fun x y => x.1 + x.2 ≤ y.1 := by
  induction T generalizing lo with
  | nil => exact List.Pairwise.nil
  | cons s T ih =>
    obtain ⟨-, -, h⟩ := h
    cases hl : s.live with
    | true =>
      rw [lives_cons_live hl, List.pairwise_cons]
      exact ⟨fun y hy => (h.bounds (mem_lives.mp hy)).1, ih h⟩
    | false =>
      rw [lives_cons_free hl]
      exact ih h

/-- A free block of the list is somewhere in the tiling. -/
theorem frees_split (h : (frees T).map Prod.fst = l₁ ++ a :: l₂) :
    ∃ T₁ n T₂, T = T₁ ++ ⟨a, n, false⟩ :: T₂ ∧ (frees T₁).map Prod.fst = l₁ ∧
      (frees T₂).map Prod.fst = l₂ := by
  induction T generalizing l₁ with
  | nil => simp at h
  | cons s T ih =>
    cases hl : s.live with
    | true =>
      rw [frees_cons_live hl] at h
      obtain ⟨T₁, n, T₂, rfl, h₁, h₂⟩ := ih h
      exact ⟨s :: T₁, n, T₂, rfl, by rw [frees_cons_live hl, h₁], h₂⟩
    | false =>
      rw [frees_cons_free hl] at h
      cases l₁ with
      | nil =>
        obtain ⟨rfl, h₂⟩ := List.cons.inj h
        refine ⟨[], s.size, T, ?_, rfl, h₂⟩
        rw [← hl]
        rfl
      | cons =>
        obtain ⟨rfl, h'⟩ := List.cons.inj h
        obtain ⟨T₁, n, T₂, rfl, h₁, h₂⟩ := ih h'
        exact ⟨s :: T₁, n, T₂, rfl, by rw [frees_cons_free hl, List.map_cons, h₁], h₂⟩

/-! ## Sparse tilings -/

/-- A live block keeps both sides apart. -/
theorem sparse_append_live (hs : s.live = true) :
    Sparse (T₁ ++ s :: T₂) ↔ Sparse T₁ ∧ Sparse T₂ := by
  unfold Sparse
  rw [List.isChain_append]
  constructor
  · rintro ⟨h₁, h₂, -⟩
    exact ⟨h₁, h₂.tail⟩
  · rintro ⟨h₁, h₂⟩
    refine ⟨h₁, ?_, fun x _ y hy => ?_⟩
    · cases T₂ with
      | nil => exact List.isChain_singleton s
      | cons => exact List.isChain_cons_cons.mpr ⟨.inl hs, h₂⟩
    · cases hy
      exact .inr hs

theorem Sparse.left (h : Sparse (T₁ ++ T₂)) : Sparse T₁ := (List.isChain_append.mp h).1

theorem Sparse.right (h : Sparse (T₁ ++ T₂)) : Sparse T₂ := (List.isChain_append.mp h).2.1

/-- Only whether a block is live matters for its neighbours. -/
theorem Sparse.replace (h : Sparse (s :: T)) (hl : s'.live = s.live) : Sparse (s' :: T) := by
  cases T with
  | nil => exact List.isChain_singleton s'
  | cons =>
    obtain ⟨h₁, h₂⟩ := List.isChain_cons_cons.mp h
    exact List.isChain_cons_cons.mpr ⟨hl ▸ h₁, h₂⟩

/-! ## Sums -/

theorem Tiled.sum_le (h : Tiled lo hi T) : ((lives T).map Prod.snd).sum ≤ hi - lo := by
  induction T generalizing lo with
  | nil => simp
  | cons s T ih =>
    obtain ⟨rfl, hpos, h⟩ := h
    have h1 := ih h
    have h2 := h.le
    unfold Seg.stop at h1 h2
    cases hl : s.live with
    | true =>
      rw [lives_cons_live hl, List.map_cons, List.sum_cons]
      omega
    | false =>
      rw [lives_cons_free hl]
      omega

end Xos.Lib
