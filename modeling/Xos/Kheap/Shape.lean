import Xos.Kheap.Basic
import Xos.Lib.Tiling

/-!
# Blocks and the free list

What the stores of the allocator do to a tiling of the arena.  `Shape h T` says that the headers of
the blocks of `T` hold their sizes and that the free list runs through its free blocks.

* **`Shape.takeWhole`, `Shape.takeFront`** — a free block, or the front of it, becomes live;
* **`Shape.linkIn`** — a live block becomes free and is linked in its place;
* **`Shape.absorb`** — a free block takes over its free neighbour;
* **`Writes`** — each of them writes to headers only, and not to those of other live blocks.
-/

namespace Xos.Kheap

open Xos.Lib

variable {h h' h'' : Heap} {T T₁ T₂ : List Seg} {s t : Seg} {b n : ℕ} {c c' : Cell Unit ℕ}
  {p : Option ℕ} {S S' : List ℕ}

/-! ## Words -/

@[simp] theorem ptr_pos (hb : 0 < b) : ptr b = some b := if_neg (by omega)

/-- A value that a pointer can have. -/
def IsPtr (p : Option ℕ) : Prop := ∀ b, p = some b → 0 < b ∧ b < 2 ^ 64

theorem ptr_getD (hp : IsPtr p) : ptr (p.getD 0) = p := by
  cases p with
  | none => rfl
  | some b => exact ptr_pos (hp b rfl).1

theorem getD_lt (hp : IsPtr p) : p.getD 0 < 2 ^ 64 := by
  cases p with
  | none => decide
  | some b => exact (hp b rfl).2

theorem link_next : h.link (.next b) = ptr (readLE h.mem (b + 8) 8) := rfl

theorem isPtr_ptr (hb : b < 2 ^ 64) : IsPtr (ptr b) := by
  intro a ha
  unfold ptr at ha
  split_ifs at ha
  cases ha
  exact ⟨by omega, hb⟩

theorem isPtr_next : IsPtr (h.link (.next b)) := isPtr_ptr readLE_lt

theorem size_setSize : (h.setSize b n).size b = n % 2 ^ 64 := readLE_writeLE h.mem b 8 n

theorem size_setSize_of_apart (ha : a + 8 ≤ b ∨ b + 8 ≤ a) : (h.setSize b n).size a = h.size a :=
  readLE_writeLE_of_disjoint (by omega)

theorem link_setSize_of_apart (hc : ∀ a, c = .next a → a + 16 ≤ b ∨ b ≤ a) :
    (h.setSize b n).link c = h.link c := by
  cases c with
  | head => rfl
  | next a =>
    have := hc a rfl
    rw [link_next, link_next, show readLE (h.setSize b n).mem (a + 8) 8 =
      readLE h.mem (a + 8) 8 from readLE_writeLE_of_disjoint (by omega)]

theorem link_setLink (hp : IsPtr p) : (h.setLink c p).link c = p := by
  cases c with
  | head => exact ptr_getD hp
  | next a =>
    show ptr (readLE (writeLE h.mem (a + 8) 8 (p.getD 0)) (a + 8) 8) = p
    rw [readLE_writeLE, show 256 ^ 8 = 2 ^ 64 by norm_num, Nat.mod_eq_of_lt (getD_lt hp)]
    exact ptr_getD hp

theorem link_setLink_of_apart (hne : c' ≠ c)
    (hc : ∀ a b, c' = .next a → c = .next b → a + 16 ≤ b ∨ b + 16 ≤ a) :
    (h.setLink c p).link c' = h.link c' := by
  cases c with
  | head _ =>
    cases c' with
    | head => exact absurd rfl hne
    | next => rfl
  | next b =>
    cases c' with
    | head => rfl
    | next a =>
      have := hc a b rfl rfl
      rw [link_next, link_next, show readLE (h.setLink (.next b) p).mem (a + 8) 8 =
        readLE h.mem (a + 8) 8 from readLE_writeLE_of_disjoint (by omega)]

theorem size_setLink_of_apart (hc : ∀ b, c = .next b → a ≤ b ∨ b + 16 ≤ a) :
    (h.setLink c p).size a = h.size a := by
  cases c with
  | head => rfl
  | next b =>
    have := hc b rfl
    exact readLE_writeLE_of_disjoint (by omega)

@[simp] theorem setSize_arena : (h.setSize b n).arena = h.arena := rfl
@[simp] theorem setSize_usedSz : (h.setSize b n).usedSz = h.usedSz := rfl

@[simp] theorem setLink_arena : (h.setLink c p).arena = h.arena := by cases c <;> rfl
@[simp] theorem setLink_usedSz : (h.setLink c p).usedSz = h.usedSz := by cases c <;> rfl

/-- Only headers at the addresses `S` were written to. -/
structure Writes (S : List ℕ) (h h' : Heap) : Prop where
  mem : ∀ j, (∀ x, x ∈ S → j < x ∨ x + 16 ≤ j) → h'.mem j = h.mem j
  arena : h'.arena = h.arena
  usedSz : h'.usedSz = h.usedSz

theorem Writes.trans (h₁ : Writes S h h') (h₂ : Writes S h' h'') : Writes S h h'' :=
  ⟨fun j hj => (h₂.mem j hj).trans (h₁.mem j hj), h₂.arena.trans h₁.arena,
    h₂.usedSz.trans h₁.usedSz⟩

theorem Writes.base (h₁ : Writes S h h') (hb : 0 < h.arena) : 0 < h'.arena :=
  hb.trans_eq h₁.arena.symm

theorem Writes.top (h₁ : Writes S h h') (ht : h.arena + arenaSz ≤ 2 ^ 64) :
    h'.arena + arenaSz ≤ 2 ^ 64 :=
  (congrArg (· + arenaSz) h₁.arena).trans_le ht

theorem writes_setSize (hb : b ∈ S) : Writes S h (h.setSize b n) :=
  ⟨fun j hj => writeLE_of_not_mem (by have := hj b hb; omega), rfl, rfl⟩

theorem writes_setLink (hc : ∀ b, c = .next b → b ∈ S) : Writes S h (h.setLink c p) := by
  cases c with
  | head _ => exact ⟨fun _ _ => rfl, rfl, rfl⟩
  | next b =>
    refine ⟨fun j hj => writeLE_of_not_mem ?_, rfl, rfl⟩
    have := hj b (hc b rfl)
    omega

/-! ## The shape of the arena -/

/-- The blocks `T` fill the arena, their headers are right, and the free list is theirs. -/
structure Shape (h : Heap) (T : List Seg) : Prop where
  tiled : Tiled h.arena (h.arena + arenaSz) T
  aligned : ∀ s, s ∈ T → 16 ∣ s.size
  header : ∀ s, s ∈ T → h.size s.addr = s.size
  chain : Chain h.link (.head ()) ((frees T).map Prod.fst)
  base : 0 < h.arena
  top : h.arena + arenaSz ≤ 2 ^ 64

/-- A word of the free list, or one that could be. -/
def CellOf (T : List Seg) : Cell Unit ℕ → Prop
  | .head _ => True
  | .next b => ∃ s, s ∈ T ∧ s.addr = b

/-- Headers at two addresses do not meet. -/
def Apart (T : List Seg) : Prop :=
  ∀ a b, CellOf T (.next a) → CellOf T (.next b) → a ≠ b → a + 16 ≤ b ∨ b + 16 ≤ a

section

variable (ht : Tiled b n T) (ha : ∀ s, s ∈ T → 16 ∣ s.size)
include ht ha

theorem tiled_size (hs : s ∈ T) : 16 ≤ s.size := Nat.le_of_dvd (ht.bounds hs).2.2 (ha s hs)

theorem tiled_apart : Apart T := by
  rintro _ _ ⟨s, hs, rfl⟩ ⟨t, htT, rfl⟩ hne
  have h1 := tiled_size ht ha hs
  have h2 := tiled_size ht ha htT
  rcases ht.apart hs htT with rfl | hle | hle
  · exact absurd rfl hne
  all_goals
    unfold Seg.stop at hle
    omega

end

namespace Shape

section

variable (hT : Shape h T) (hs : s ∈ T)
include hT hs

theorem addr_pos : 0 < s.addr := lt_of_lt_of_le hT.base (hT.tiled.bounds hs).1

theorem stop_le : s.stop ≤ 2 ^ 64 := (hT.tiled.bounds hs).2.1.trans hT.top

theorem isPtr : IsPtr (some s.addr) := by
  rintro b ⟨⟩
  have h1 := hT.stop_le hs
  have h2 := (hT.tiled.bounds hs).2.2
  unfold Seg.stop at h1
  exact ⟨hT.addr_pos hs, by omega⟩

end

theorem size_eq (hT : Shape h (T₁ ++ ⟨b, n, l⟩ :: T₂)) : h.size b = n :=
  hT.header ⟨b, n, l⟩ (by simp)

end Shape

/-! ## Lists of free blocks -/

theorem mem_frees_map (hb : b ∈ (frees T).map Prod.fst) :
    ∃ s, s ∈ T ∧ s.addr = b ∧ s.live = false := by
  obtain ⟨⟨a, n⟩, hmem, rfl⟩ := List.mem_map.mp hb
  exact ⟨_, mem_frees.mp hmem, rfl, rfl⟩

theorem frees_bounds (ht : Tiled lo hi T) (hb : b ∈ (frees T).map Prod.fst) : lo ≤ b ∧ b < hi := by
  obtain ⟨s, hs, rfl, -⟩ := mem_frees_map hb
  have := ht.bounds hs
  unfold Seg.stop at this
  omega

theorem frees_sorted (ht : Tiled lo hi T) : ((frees T).map Prod.fst).Pairwise (· < ·) := by
  induction T generalizing lo with
  | nil => exact List.Pairwise.nil
  | cons s T ih =>
    obtain ⟨ha, hpos, ht⟩ := ht
    cases hl : s.live with
    | true =>
      rw [frees_cons_live hl]
      exact ih ht
    | false =>
      rw [frees_cons_free hl, List.map_cons, List.pairwise_cons]
      refine ⟨fun b hb => ?_, ih ht⟩
      have hle : s.addr + s.size ≤ b := (frees_bounds ht hb).1
      omega

theorem frees_nodup (ht : Tiled lo hi T) : ((frees T).map Prod.fst).Nodup :=
  (frees_sorted ht).imp fun h => Nat.ne_of_lt h

theorem frees_length (ht : Tiled lo hi T) : ((frees T).map Prod.fst).length ≤ hi - lo := by
  induction T generalizing lo with
  | nil => simp
  | cons s T ih =>
    obtain ⟨rfl, hpos, ht⟩ := ht
    have h1 := ih ht
    have h2 := ht.le
    unfold Seg.stop at h1 h2
    cases hl : s.live with
    | true =>
      rw [frees_cons_live hl]
      omega
    | false =>
      rw [frees_cons_free hl]
      simp only [List.map_cons, List.length_cons]
      omega

/-- The word behind the free blocks of the front of a tiling. -/
def placeOf (T₁ : List Seg) : Cell Unit ℕ := endCell (.head ()) ((frees T₁).map Prod.fst)

/-- It is `free_head` or a word of a free block of the front. -/
theorem placeOf_eq (T₁ : List Seg) :
    placeOf T₁ = .head () ∨ ∃ s, s ∈ T₁ ∧ s.live = false ∧ placeOf T₁ = .next s.addr := by
  rcases endCell_eq (Cell.head ()) ((frees T₁).map Prod.fst) with heq | ⟨b, hb, heq⟩
  · exact .inl heq
  · obtain ⟨s, hs, rfl, hl⟩ := mem_frees_map hb
    exact .inr ⟨s, hs, hl, heq⟩

/-- A chain goes on behind another word. -/
theorem chain_move (hl : Chain m c l) (hc : m' c' = m c)
    (hm : ∀ b, b ∈ l → m' (.next b) = m (.next b)) : Chain m' c' l := by
  cases l with
  | nil => exact hc.trans hl
  | cons b =>
    refine ⟨hc.trans hl.1, hl.2.congr fun x hx => ?_⟩
    simp only [cells, List.mem_cons, List.mem_map] at hx
    rcases hx with rfl | ⟨a, ha, rfl⟩
    · exact hm b List.mem_cons_self
    · exact hm a (List.mem_cons_of_mem _ ha)

/-- The front of a chain stays, and its last word gets another rest. -/
theorem chain_replace (ht : Tiled lo mid T₁)
    (hl : Chain m (.head ()) ((frees T₁).map Prod.fst ++ l))
    (hm : ∀ x, x ≠ placeOf T₁ → (x = .head () ∨ ∃ s, s ∈ T₁ ∧ x = .next s.addr) → m' x = m x)
    (hl' : Chain m' (placeOf T₁) l') :
    Chain m' (.head ()) ((frees T₁).map Prod.fst ++ l') := by
  refine chain_splice hl (cells_head_nodup _ (frees_nodup ht)) (fun x hx hne => hm x hne ?_) hl'
  simp only [cells, List.mem_cons] at hx
  rcases hx with rfl | hx
  · exact .inl rfl
  obtain ⟨b, hb, rfl⟩ := List.mem_map.mp hx
  obtain ⟨s, hs, rfl, -⟩ := mem_frees_map hb
  exact .inr ⟨s, hs, rfl⟩

theorem endCell_snoc (c : Cell Unit ℕ) (l : List ℕ) (b : ℕ) : endCell c (l ++ [b]) = .next b := by
  induction l generalizing c with
  | nil => rfl
  | cons a l ih => exact ih (.next a)

theorem placeOf_snoc_free (T₁ : List Seg) (b n : ℕ) :
    placeOf (T₁ ++ [⟨b, n, false⟩]) = .next b := by
  unfold placeOf
  rw [frees_append, List.map_append]
  exact endCell_snoc _ _ b

theorem placeOf_snoc_live (T₁ : List Seg) (b n : ℕ) :
    placeOf (T₁ ++ [⟨b, n, true⟩]) = placeOf T₁ := by
  unfold placeOf
  simp [frees]

/-! ## What is not written to -/

/-- Live blocks other than the one at `b` keep their bytes. -/
structure Frame (T : List Seg) (b : ℕ) (h h' : Heap) : Prop where
  mem : ∀ s, s ∈ T → s.live = true → s.addr ≠ b → ∀ j, s.addr ≤ j → j < s.stop →
    h'.mem j = h.mem j
  arena : h'.arena = h.arena
  usedSz : h'.usedSz = h.usedSz

theorem Writes.frame (hw : Writes S h h') (ht : Tiled lo hi T)
    (hS : ∀ x, x ∈ S → ∃ t, t ∈ T ∧ (t.addr = b ∨ t.live = false) ∧ t.addr ≤ x ∧
      x + 16 ≤ t.stop) : Frame T b h h' := by
  refine ⟨fun s hs hl hb j h1 h2 => hw.mem j fun x hx => ?_, hw.arena, hw.usedSz⟩
  obtain ⟨t, htT, hcase, h3, h4⟩ := hS x hx
  have hne : s ≠ t := by
    rintro rfl
    rcases hcase with hc | hc
    exacts [hb hc, by simp [hl] at hc]
  rcases ht.apart hs htT with heq | hle | hle
  exacts [absurd heq hne, by omega, by omega]

/-! ## Stores into a tiling -/

namespace Apart

variable (hA : Apart T)
include hA

theorem size_setLink (hc : CellOf T c) (ha : CellOf T (.next a)) :
    (h.setLink c p).size a = h.size a := by
  refine size_setLink_of_apart fun b hb => ?_
  subst hb
  by_cases heq : a = b
  · exact .inl heq.le
  · have := hA a b ha hc heq
    omega

theorem link_setLink (hc : CellOf T c) (hc' : CellOf T c') (hne : c' ≠ c) :
    (h.setLink c p).link c' = h.link c' := by
  refine link_setLink_of_apart hne fun a b ha hb => ?_
  subst ha hb
  exact hA a b hc' hc fun heq => hne (by rw [heq])

theorem link_setSize (hb : CellOf T (.next b)) (hc : CellOf T c) :
    (h.setSize b n).link c = h.link c := by
  refine link_setSize_of_apart fun a ha => ?_
  subst ha
  by_cases heq : a = b
  · exact .inr heq.ge
  · have := hA a b hc hb heq
    omega

theorem size_setSize (hb : CellOf T (.next b)) (ha : CellOf T (.next a)) (hne : a ≠ b) :
    (h.setSize b n).size a = h.size a := by
  have := hA a b ha hb hne
  exact size_setSize_of_apart (by omega)

end Apart

theorem cellOf_placeOf : CellOf (T₁ ++ T) (placeOf T₁) := by
  rcases placeOf_eq T₁ with heq | ⟨s, hs, -, heq⟩ <;> rw [heq]
  exacts [trivial, ⟨s, List.mem_append_left _ hs, rfl⟩]

/-- The place of the front is no word of the blocks behind it. -/
theorem placeOf_ne_next (ht : Tiled lo hi (T₁ ++ T₂)) (htT : t ∈ T₂) :
    placeOf T₁ ≠ .next t.addr := by
  obtain ⟨mid, h₁, h₂⟩ := tiled_append.mp ht
  rcases placeOf_eq T₁ with heq | ⟨u, hu, -, heq⟩ <;> rw [heq]
  · nofun
  intro hc
  have h1 := h₁.bounds hu
  have h2 := h₂.bounds htT
  have h3 : u.addr = t.addr := Cell.next.inj hc
  unfold Seg.stop at h1 h2
  omega

theorem writes_place (hS : ∀ x, x ∈ (frees T₁).map Prod.fst → x ∈ S) :
    Writes S h (h.setLink (placeOf T₁) p) := by
  refine writes_setLink fun x hx => ?_
  rcases endCell_eq (Cell.head ()) ((frees T₁).map Prod.fst) with heq | ⟨b, hb, heq⟩
  · cases heq.symm.trans hx
  · rw [← Cell.next.inj (heq.symm.trans hx)]
    exact hS b hb

/-- Headers inside of the block at `b` and headers of free blocks are none of the live blocks'. -/
theorem Shape.frame (hT : Shape h (T₁ ++ ⟨b, n, l⟩ :: T₂)) (hw : Writes S h h')
    (hS : ∀ x, x ∈ S → (b ≤ x ∧ x + 16 ≤ b + n) ∨ x ∈ (frees T₁).map Prod.fst) :
    Frame (T₁ ++ ⟨b, n, l⟩ :: T₂) b h h' := by
  refine hw.frame hT.tiled fun x hx => ?_
  rcases hS x hx with ⟨h1, h2⟩ | hx
  · exact ⟨⟨b, n, l⟩, by simp, .inl rfl, h1, h2⟩
  obtain ⟨s, hs, rfl, hl⟩ := mem_frees_map hx
  have hmem : s ∈ T₁ ++ ⟨b, n, l⟩ :: T₂ := List.mem_append_left _ hs
  have h16 := tiled_size hT.tiled hT.aligned hmem
  exact ⟨s, hmem, .inr hl, le_rfl, by unfold Seg.stop; omega⟩

/-! ## Other blocks in the middle -/

section Middle

variable {M N : List Seg} {lo hi : ℕ}

theorem mem_around (hs : s ∈ T₁ ++ T₂) : s ∈ T₁ ++ (M ++ T₂) := by
  simp only [List.mem_append] at hs ⊢
  tauto

theorem CellOf.around (hc : CellOf (T₁ ++ T₂) c) : CellOf (T₁ ++ (M ++ T₂)) c := by
  cases c with
  | head => trivial
  | next =>
    obtain ⟨s, hs, hb⟩ := hc
    exact ⟨s, mem_around hs, hb⟩

theorem CellOf.around_ne (hc : CellOf (T₁ ++ T₂) c) (ht : Tiled lo hi (T₁ ++ (M ++ T₂)))
    (hM : t ∈ M) : c ≠ .next t.addr := by
  rintro rfl
  obtain ⟨s, hs, hb⟩ := hc
  obtain ⟨a, h₁, h₂⟩ := tiled_append.mp ht
  obtain ⟨b, h₂, h₃⟩ := tiled_append.mp h₂
  have h2 := h₂.bounds hM
  unfold Seg.stop at h2
  rcases List.mem_append.mp hs with hs | hs
  · have h1 := h₁.bounds hs
    unfold Seg.stop at h1
    omega
  · have h3 := h₃.bounds hs
    omega

/-- **The blocks `M` give way to the blocks `N`**: the headers around them keep their words, but
for the word in front of `M`, from which the free list now runs through `N`. -/
theorem Shape.rework (hT : Shape h (T₁ ++ (M ++ T₂))) (hw : Writes S h h')
    (htile : ∀ lo hi, Tiled lo hi M → Tiled lo hi N)
    (hnew : ∀ s, s ∈ N → 16 ∣ s.size ∧ h'.size s.addr = s.size)
    (hsize : ∀ a, CellOf (T₁ ++ T₂) (.next a) → h'.size a = h.size a)
    (hlink : ∀ x, CellOf (T₁ ++ T₂) x → x ≠ placeOf T₁ → h'.link x = h.link x)
    (hmid : ∀ l, Chain h.link (placeOf T₁) ((frees M).map Prod.fst ++ l) →
      (∀ a, a ∈ l → h'.link (.next a) = h.link (.next a)) →
      Chain h'.link (placeOf T₁) ((frees N).map Prod.fst ++ l)) :
    Shape h' (T₁ ++ (N ++ T₂)) := by
  obtain ⟨a, h₁, h₂⟩ := tiled_append.mp hT.tiled
  obtain ⟨b, h₂, h₃⟩ := tiled_append.mp h₂
  have hside : ∀ s, s ∈ T₁ ++ (N ++ T₂) → s ∈ N ∨ s ∈ T₁ ++ T₂ := by
    intro s hs
    simp only [List.mem_append] at hs ⊢
    tauto
  refine ⟨?_, fun s hs => ?_, fun s hs => ?_, ?_, hw.base hT.base, hw.top hT.top⟩
  · rw [hw.arena]
    exact tiled_append.mpr ⟨a, h₁, tiled_append.mpr ⟨b, htile a b h₂, h₃⟩⟩
  · rcases hside s hs with hs | hs
    exacts [(hnew s hs).1, hT.aligned s (mem_around hs)]
  · rcases hside s hs with hs | hs
    exacts [(hnew s hs).2, (hsize _ ⟨s, hs, rfl⟩).trans (hT.header s (mem_around hs))]
  · have hchain := hT.chain
    rw [frees_append, frees_append, List.map_append, List.map_append] at hchain ⊢
    refine chain_replace h₁ hchain (fun x hx hcell => hlink x ?_ hx)
      (hmid _ (chain_drop hchain) fun x hx => ?_)
    · rcases hcell with rfl | ⟨s, hs, rfl⟩
      exacts [trivial, ⟨s, List.mem_append_left _ hs, rfl⟩]
    · obtain ⟨s, hs, rfl, -⟩ := mem_frees_map hx
      exact hlink _ ⟨s, List.mem_append_right _ hs, rfl⟩
        (placeOf_ne_next hT.tiled (List.mem_append_right _ hs)).symm

end Middle

/-! ## A live block becomes free -/

/-- The stores with which a block is linked behind the word `pp`. -/
def linkAt (h : Heap) (pp : Cell Unit ℕ) (b : ℕ) : Heap :=
  (h.setLink (.next b) (h.link pp)).setLink pp (some b)

theorem Shape.linkIn (hT : Shape h (T₁ ++ ⟨b, n, true⟩ :: T₂)) :
    Shape (linkAt h (placeOf T₁) b) (T₁ ++ ⟨b, n, false⟩ :: T₂) ∧
      Frame (T₁ ++ ⟨b, n, true⟩ :: T₂) b h (linkAt h (placeOf T₁) b) := by
  change Shape h (T₁ ++ ([⟨b, n, true⟩] ++ T₂)) at hT
  have hA := tiled_apart hT.tiled hT.aligned
  have hb : (⟨b, n, true⟩ : Seg) ∈ T₁ ++ ([⟨b, n, true⟩] ++ T₂) := by simp
  have hcb : CellOf (T₁ ++ ([⟨b, n, true⟩] ++ T₂)) (.next b) := ⟨_, hb, rfl⟩
  have hne : placeOf T₁ ≠ .next b := placeOf_ne_next hT.tiled List.mem_cons_self
  have hptr : IsPtr (h.link (placeOf T₁)) := by
    have hrest : Chain h.link (placeOf T₁) ((frees T₂).map Prod.fst) := by
      refine chain_drop ?_
      have hchain := hT.chain
      rwa [frees_append, List.singleton_append, frees_cons_live rfl, List.map_append] at hchain
    cases hfs : (frees T₂).map Prod.fst <;> rw [hfs] at hrest
    · rw [show h.link (placeOf T₁) = none from hrest]
      nofun
    · obtain ⟨s, hs, rfl, -⟩ := mem_frees_map (hfs ▸ List.mem_cons_self)
      rw [hrest.1]
      exact hT.isPtr (by simp [hs])
  have hself : (linkAt h (placeOf T₁) b).link (.next b) = h.link (placeOf T₁) :=
    (hA.link_setLink cellOf_placeOf hcb hne.symm).trans (link_setLink hptr)
  have hsize : ∀ a, CellOf (T₁ ++ ([⟨b, n, true⟩] ++ T₂)) (.next a) →
      (linkAt h (placeOf T₁) b).size a = h.size a := fun a hc =>
    (hA.size_setLink cellOf_placeOf hc).trans (hA.size_setLink hcb hc)
  have hw : Writes (b :: (frees T₁).map Prod.fst) h (linkAt h (placeOf T₁) b) :=
    Writes.trans (writes_setLink (c := .next b) (by simp))
      (writes_place fun x hx => List.mem_cons_of_mem _ hx)
  refine ⟨Shape.rework (N := [⟨b, n, false⟩]) hT hw (fun _ _ ht => ht) (fun s hs => ?_)
    (fun a hc => hsize a hc.around) (fun x hx hp => ?_) (fun l hl hrest => ?_),
    hT.frame hw fun x hx => ?_⟩
  · rw [List.mem_singleton.mp hs]
    exact ⟨hT.aligned ⟨b, n, true⟩ hb, (hsize b hcb).trans (hT.header _ hb)⟩
  · exact (hA.link_setLink cellOf_placeOf hx.around hp).trans
      (hA.link_setLink hcb hx.around (hx.around_ne hT.tiled List.mem_cons_self))
  · exact ⟨link_setLink (hT.isPtr hb), chain_move hl hself hrest⟩
  · rcases List.mem_cons.mp hx with rfl | hx
    · have h16 : 16 ≤ n := tiled_size hT.tiled hT.aligned hb
      exact .inl ⟨le_rfl, by omega⟩
    · exact .inr hx

/-! ## A free block takes over its neighbour -/

/-- The stores with which two free neighbours become one. -/
def absorb (h : Heap) (a c : ℕ) : Heap :=
  let h := h.setSize a (h.size a + h.size c)
  h.setLink (.next a) (h.link (.next c))

theorem absorb_eq (h : Heap) (a c : ℕ) : absorb h a c =
    (h.setSize a (h.size a + h.size c)).setLink (.next a)
      ((h.setSize a (h.size a + h.size c)).link (.next c)) := rfl

theorem Shape.absorb {a m c : ℕ} (hT : Shape h (T₁ ++ ⟨a, m, false⟩ :: ⟨c, n, false⟩ :: T₂)) :
    Shape (absorb h a c) (T₁ ++ ⟨a, m + n, false⟩ :: T₂) ∧ Writes [a] h (absorb h a c) := by
  change Shape h (T₁ ++ ([⟨a, m, false⟩, ⟨c, n, false⟩] ++ T₂)) at hT
  have hA := tiled_apart hT.tiled hT.aligned
  have ha : (⟨a, m, false⟩ : Seg) ∈ T₁ ++ ([⟨a, m, false⟩, ⟨c, n, false⟩] ++ T₂) := by simp
  have hc : (⟨c, n, false⟩ : Seg) ∈ T₁ ++ ([⟨a, m, false⟩, ⟨c, n, false⟩] ++ T₂) := by simp
  have hca : CellOf (T₁ ++ ([⟨a, m, false⟩, ⟨c, n, false⟩] ++ T₂)) (.next a) := ⟨_, ha, rfl⟩
  have hsa : h.size a = m := hT.header ⟨a, m, false⟩ ha
  have hsc : h.size c = n := hT.header ⟨c, n, false⟩ hc
  have hsum : (m + n) % 2 ^ 64 = m + n := by
    obtain ⟨-, -, hcm, -⟩ := hT.tiled.split
    have h1 : c + n ≤ 2 ^ 64 := hT.stop_le hc
    have h2 : 0 < a := hT.addr_pos ha
    have h3 : c = a + m := hcm
    omega
  have hw : Writes [a] h (Kheap.absorb h a c) :=
    Writes.trans (writes_setSize List.mem_cons_self) (writes_setLink (c := .next a) (by simp))
  -- the word behind `a` is now what the word behind its neighbour was
  have hword : ∀ x, CellOf (T₁ ++ T₂) x → (Kheap.absorb h a c).link x = h.link x := fun x hx =>
    (hA.link_setLink hca hx.around (hx.around_ne hT.tiled List.mem_cons_self)).trans
      (hA.link_setSize hca hx.around)
  have hself : (Kheap.absorb h a c).link (.next a) = h.link (.next c) := by
    rw [absorb_eq, link_setLink isPtr_next]
    exact hA.link_setSize hca ⟨_, hc, rfl⟩
  refine ⟨Shape.rework (N := [⟨a, m + n, false⟩]) hT hw (fun lo hi ht => ?_) (fun s hs => ?_)
    (fun x hx => ?_) (fun x hx _ => hword x hx) (fun l hl hrest => ?_), hw⟩
  · obtain ⟨rfl, hm, hcm, hn, rfl⟩ := ht
    have h1 : c = a + m := hcm
    have h2 : 0 < m := hm
    refine ⟨rfl, by show 0 < m + n; omega, ?_⟩
    show a + (m + n) = c + n
    omega
  · rw [List.mem_singleton.mp hs]
    refine ⟨Nat.dvd_add (hT.aligned _ ha) (hT.aligned _ hc), (hA.size_setLink hca hca).trans ?_⟩
    rw [size_setSize, hsa, hsc, hsum]
  · refine (hA.size_setLink hca hx.around).trans (hA.size_setSize hca hx.around ?_)
    rintro rfl
    exact hx.around_ne hT.tiled List.mem_cons_self rfl
  · exact ⟨(hword _ cellOf_placeOf).trans hl.1, chain_move hl.2.2 hself hrest⟩

/-! ## A free block becomes live -/

/-- The whole block is taken. -/
theorem Shape.takeWhole (hT : Shape h (T₁ ++ ⟨b, n, false⟩ :: T₂)) :
    Shape (h.setLink (placeOf T₁) (h.link (.next b))) (T₁ ++ ⟨b, n, true⟩ :: T₂) ∧
      Frame (T₁ ++ ⟨b, n, false⟩ :: T₂) b h (h.setLink (placeOf T₁) (h.link (.next b))) := by
  change Shape h (T₁ ++ ([⟨b, n, false⟩] ++ T₂)) at hT
  have hA := tiled_apart hT.tiled hT.aligned
  have hb : (⟨b, n, false⟩ : Seg) ∈ T₁ ++ ([⟨b, n, false⟩] ++ T₂) := by simp
  have hw : Writes ((frees T₁).map Prod.fst) h (h.setLink (placeOf T₁) (h.link (.next b))) :=
    writes_place fun x hx => hx
  refine ⟨Shape.rework (N := [⟨b, n, true⟩]) hT hw (fun _ _ ht => ht) (fun s hs => ?_)
    (fun x hx => hA.size_setLink cellOf_placeOf hx.around)
    (fun x hx hp => hA.link_setLink cellOf_placeOf hx.around hp) (fun l hl hrest => ?_),
    hT.frame hw fun x hx => .inr hx⟩
  · rw [List.mem_singleton.mp hs]
    exact ⟨hT.aligned ⟨b, n, false⟩ hb,
      (hA.size_setLink cellOf_placeOf ⟨_, hb, rfl⟩).trans (hT.header _ hb)⟩
  · exact chain_move hl.2 (link_setLink isPtr_next) hrest

/-- The stores with which the front of a block is taken. -/
def splitAt (h : Heap) (pp : Cell Unit ℕ) (b need rest left : ℕ) : Heap :=
  (((h.setSize rest left).setLink (.next rest) ((h.setSize rest left).link (.next b))).setSize b
    need).setLink pp (some rest)

/-- The front of the block is taken. -/
theorem Shape.takeFront (hT : Shape h (T₁ ++ ⟨b, n, false⟩ :: T₂)) (h16 : 16 ∣ need)
    (hpos : 0 < need) (hlt : need < n) :
    Shape (splitAt h (placeOf T₁) b need (b + need) (n - need))
        (T₁ ++ ⟨b, need, true⟩ :: ⟨b + need, n - need, false⟩ :: T₂) ∧
      Frame (T₁ ++ ⟨b, n, false⟩ :: T₂) b h
        (splitAt h (placeOf T₁) b need (b + need) (n - need)) := by
  have hb : (⟨b, n, false⟩ : Seg) ∈ T₁ ++ ([⟨b, n, false⟩] ++ T₂) := by simp
  have hn16 : 16 ∣ n := hT.aligned ⟨b, n, false⟩ hb
  have hstop : b + n ≤ 2 ^ 64 := hT.stop_le hb
  -- the blocks afterwards; all stores go to headers of theirs
  set N : List Seg := [⟨b, need, true⟩, ⟨b + need, n - need, false⟩] with hN
  have htile : ∀ lo hi, Tiled lo hi [⟨b, n, false⟩] → Tiled lo hi N := by
    rintro lo hi ⟨rfl, -, rfl⟩
    refine ⟨rfl, hpos, rfl, by simp only; omega, ?_⟩
    show b + need + (n - need) = b + n
    omega
  have ht' : Tiled h.arena (h.arena + arenaSz) (T₁ ++ (N ++ T₂)) := by
    obtain ⟨a, h₁, h₂⟩ := tiled_append.mp hT.tiled
    obtain ⟨rfl, hn, h₃⟩ := h₂
    exact tiled_append.mpr ⟨_, h₁, tiled_append.mpr ⟨_, htile _ _ ⟨rfl, hn, rfl⟩, h₃⟩⟩
  have haN : ∀ s, s ∈ N → 16 ∣ s.size := by simp [hN, h16, Nat.dvd_sub hn16 h16]
  have hA : Apart (T₁ ++ (N ++ T₂)) := by
    refine tiled_apart ht' fun s hs => ?_
    by_cases hsN : s ∈ N
    · exact haN s hsN
    · exact hT.aligned s (mem_around (M := [⟨b, n, false⟩]) (by simp_all))
  have hbN : (⟨b, need, true⟩ : Seg) ∈ N := by simp [hN]
  have hrN : (⟨b + need, n - need, false⟩ : Seg) ∈ N := by simp [hN]
  have hcb : CellOf (T₁ ++ (N ++ T₂)) (.next b) := ⟨⟨b, need, true⟩, by simp [hN], rfl⟩
  have hcr : CellOf (T₁ ++ (N ++ T₂)) (.next (b + need)) :=
    ⟨⟨b + need, n - need, false⟩, by simp [hN], rfl⟩
  have hpr : placeOf T₁ ≠ .next (b + need) := placeOf_ne_next ht' (List.mem_append_left _ hrN)
  have hrest : (splitAt h (placeOf T₁) b need (b + need) (n - need)).link (.next (b + need)) =
      h.link (.next b) := by
    rw [splitAt, hA.link_setLink cellOf_placeOf hcr hpr.symm, hA.link_setSize hcb hcr,
      link_setLink isPtr_next, hA.link_setSize hcr hcb]
  have hw : Writes ((b + need) :: b :: (frees T₁).map Prod.fst) h
      (splitAt h (placeOf T₁) b need (b + need) (n - need)) := by
    refine Writes.trans (Writes.trans (Writes.trans (writes_setSize List.mem_cons_self)
      (writes_setLink (by simp))) (writes_setSize (by simp))) (writes_place fun x hx => ?_)
    exact List.mem_cons_of_mem _ (List.mem_cons_of_mem _ hx)
  refine ⟨Shape.rework (M := [⟨b, n, false⟩]) hT hw htile (fun s hs => ⟨haN s hs, ?_⟩)
    (fun x hx => ?_) (fun x hx hp => ?_) (fun l hl hkeep => ?_), hT.frame hw fun x hx => ?_⟩
  · rcases List.mem_cons.mp hs with rfl | hs
    · rw [splitAt, hA.size_setLink cellOf_placeOf hcb, size_setSize, Nat.mod_eq_of_lt (by omega)]
    rw [List.mem_singleton.mp hs, splitAt, hA.size_setLink cellOf_placeOf hcr,
      hA.size_setSize hcb hcr (by omega), hA.size_setLink hcr hcr, size_setSize,
      Nat.mod_eq_of_lt (by omega)]
  · rw [splitAt, hA.size_setLink cellOf_placeOf hx.around, hA.size_setSize hcb hx.around,
      hA.size_setLink hcr hx.around, hA.size_setSize hcr hx.around]
    all_goals rintro rfl
    exacts [hx.around_ne ht' hrN rfl, hx.around_ne ht' hbN rfl]
  · rw [splitAt, hA.link_setLink cellOf_placeOf hx.around hp, hA.link_setSize hcb hx.around,
      hA.link_setLink hcr hx.around (hx.around_ne ht' hrN), hA.link_setSize hcr hx.around]
  · refine ⟨link_setLink fun x hx => ?_, chain_move hl.2 hrest hkeep⟩
    cases hx
    omega
  · have hneed : 16 ≤ need := Nat.le_of_dvd hpos h16
    rcases List.mem_cons.mp hx with rfl | hx
    · exact .inl (by omega)
    rcases List.mem_cons.mp hx with rfl | hx
    · exact .inl (by omega)
    · exact .inr hx

end Xos.Kheap
