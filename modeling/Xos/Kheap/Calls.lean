import Xos.Kheap.Shape

/-!
# What the calls of the heap do

Each call takes a heap that represents a tiling to one that represents another, and leaves the
bytes of the other live blocks alone.

* **`Rep`** — the tiling of a heap: no two free blocks are neighbours, and `used_sz` is the sum of
  the live sizes;
* **`Rep.kmalloc`, `Rep.kfree`** — one live block more or less;
* **`Rep.store`** — a write to the payload of a live block changes no header;
* **`Rep.kcalloc`, `Rep.krealloc`** — put together from these.
-/

namespace Xos.Kheap

open Xos.Lib

variable {h h' h'' : Heap} {T T' T₁ T₂ : List Seg} {b n : ℕ} {L L' : List (ℕ × ℕ)} {size : ℕ}

/-- `h` has the blocks `T`. -/
structure Rep (h : Heap) (T : List Seg) : Prop where
  shape : Shape h T
  sparse : Sparse T
  used : h.usedSz = ((lives T).map Prod.snd).sum

/-- The blocks `L` have the bytes they had, header and payload. -/
def Keeps (L : List (ℕ × ℕ)) (h h' : Heap) : Prop :=
  ∀ x, x ∈ L → ∀ j, x.1 ≤ j → j < x.1 + x.2 → h'.mem j = h.mem j

theorem Keeps.refl : Keeps L h h := fun _ _ _ _ _ => rfl

theorem Keeps.trans (h₁ : Keeps L h h') (h₂ : Keeps L h' h'') : Keeps L h h'' :=
  fun x hx j h3 h4 => (h₂ x hx j h3 h4).trans (h₁ x hx j h3 h4)

theorem Keeps.mono (h₁ : Keeps L h h') (hL : ∀ x, x ∈ L' → x ∈ L) : Keeps L' h h' :=
  fun x hx => h₁ x (hL x hx)

theorem Frame.keeps (hF : Frame T b h h') (hL : ∀ x, x ∈ L → x ∈ lives T ∧ x.1 ≠ b) :
    Keeps L h h' := fun x hx j h1 h2 =>
  hF.mem ⟨x.1, x.2, true⟩ (mem_lives.mp (hL x hx).1) rfl (hL x hx).2 j h1 h2

theorem Shape.setUsed (hT : Shape h T) : Shape { h with usedSz := u } T :=
  ⟨hT.tiled, hT.aligned, hT.header, hT.chain, hT.base, hT.top⟩

theorem Shape.length_lt (hT : Shape h T) : ((frees T).map Prod.fst).length < turns := by
  have := frees_length hT.tiled
  unfold turns
  omega

/-- Two live blocks, or a live and a free one, start at different addresses. -/
theorem lives_ne (ht : Tiled lo hi (T₁ ++ ⟨b, n, true⟩ :: T₂)) (hx : x ∈ lives T₁ ++ lives T₂) :
    x.1 ≠ b := by
  obtain ⟨ht1, hpos, ht2⟩ := ht.split
  rcases List.mem_append.mp hx with hx | hx
  · have hb := ht1.bounds (mem_lives.mp hx)
    simp only [Seg.stop] at hb
    omega
  have hb := ht2.bounds (mem_lives.mp hx)
  simp only [Seg.stop] at hb hpos
  omega

theorem lives_live : lives (T₁ ++ ⟨b, n, true⟩ :: T₂) = lives T₁ ++ (b, n) :: lives T₂ := by
  rw [lives_append, lives_cons_live rfl]

theorem lives_free : lives (T₁ ++ ⟨b, n, false⟩ :: T₂) = lives T₁ ++ lives T₂ := by
  rw [lives_append, lives_cons_free rfl]

theorem lives_ne_free (ht : Tiled lo hi T) (hb : (⟨b, n, false⟩ : Seg) ∈ T) (hx : x ∈ lives T) :
    x.1 ≠ b := by
  intro heq
  cases ht.eq_of_addr (mem_lives.mp hx) hb heq

/-! ## `kmalloc` -/

theorem Shape.takeBlock (hT : Shape h (T₁ ++ ⟨b, n, false⟩ :: T₂))
    (hS : Sparse (T₁ ++ ⟨b, n, false⟩ :: T₂)) (h16 : 16 ∣ need) (hpos : 0 < need) (hle : need ≤ n) :
    ∃ k U, Shape (takeBlock h (placeOf T₁) b need) (T₁ ++ ⟨b, k, true⟩ :: U) ∧
      Sparse (T₁ ++ ⟨b, k, true⟩ :: U) ∧ need ≤ k ∧ lives U = lives T₂ ∧
      Frame (T₁ ++ ⟨b, n, false⟩ :: T₂) b h (takeBlock h (placeOf T₁) b need) := by
  have hstop : b + n ≤ 2 ^ 64 := hT.stop_le (s := ⟨b, n, false⟩) (by simp)
  by_cases hsplit : minSplit ≤ n - need
  · have heq : Kheap.takeBlock h (placeOf T₁) b need =
        splitAt h (placeOf T₁) b need ((b + need) % 2 ^ 64) (n - need) := by
      unfold Kheap.takeBlock splitAt
      rw [hT.size_eq, if_pos hsplit]
    have hmin : need < n := by
      unfold minSplit at hsplit
      omega
    have hrest : (b + need) % 2 ^ 64 = b + need := Nat.mod_eq_of_lt (by omega)
    obtain ⟨hshape, hframe⟩ := hT.takeFront h16 hpos hmin
    rw [heq, hrest]
    exact ⟨need, ⟨b + need, n - need, false⟩ :: T₂, hshape,
      (sparse_append_live rfl).mpr ⟨hS.left, hS.right.replace rfl⟩, le_rfl, lives_cons_free rfl,
      hframe⟩
  · have heq : Kheap.takeBlock h (placeOf T₁) b need =
        h.setLink (placeOf T₁) (h.link (.next b)) := by
      unfold Kheap.takeBlock
      rw [hT.size_eq, if_neg hsplit]
    obtain ⟨hshape, hframe⟩ := hT.takeWhole
    rw [heq]
    exact ⟨n, T₂, hshape, (sparse_append_live rfl).mpr ⟨hS.left, hS.right.tail⟩, hle, rfl, hframe⟩

/-- What an allocation of `size` bytes may do: it returns `NULL` and changes nothing, or there is
one live block more, which has room for the bytes. -/
def Allocates (h : Heap) (T : List Seg) (size p : ℕ) (h' : Heap) : Prop :=
  p = 0 ∧ h' = h ∨ ∃ b k T', p = b + 16 ∧ Rep h' T' ∧ (lives T').Perm ((b, k) :: lives T) ∧
    size + 16 ≤ k ∧ Keeps (lives T) h h'

/-- What `kmalloc` asks for when nothing wraps. -/
theorem need_eq (hsize : size ≤ 2 ^ 64 - 32) :
    16 ∣ (align16 size + hdrSize) % 2 ^ 64 ∧ size + 16 ≤ (align16 size + hdrSize) % 2 ^ 64 := by
  unfold align16 hdrSize
  omega

/-- **`kmalloc`.** -/
theorem Rep.kmalloc (hR : Rep h T) (hsize : size ≤ 2 ^ 64 - 32) :
    ∃ p h', kmalloc h size = some (p, h') ∧ h'.arena = h.arena ∧ Allocates h T size p h' := by
  by_cases h0 : size = 0
  · exact ⟨0, h, if_pos h0, rfl, .inl ⟨rfl, rfl⟩⟩
  obtain ⟨h16, hneed⟩ := need_eq hsize
  unfold Kheap.kmalloc
  rw [if_neg h0]
  dsimp only
  generalize (align16 size + hdrSize) % 2 ^ 64 = need at h16 hneed
  rcases scan_chain (fun b => decide (need ≤ h.size b)) hR.shape.chain hR.shape.length_lt with
    ⟨hscan, -⟩ | ⟨l₁, b, l₂, hl, -, hfits, hscan⟩
  · exact ⟨0, h, by rw [hscan], rfl, .inl ⟨rfl, rfl⟩⟩
  obtain ⟨T₁, n, T₂, rfl, rfl, rfl⟩ := frees_split hl
  have hb : (⟨b, n, false⟩ : Seg) ∈ T₁ ++ ⟨b, n, false⟩ :: T₂ := by simp
  have hfits : need ≤ n := by
    have := of_decide_eq_true hfits
    rwa [hR.shape.size_eq] at this
  obtain ⟨k, U, hshape, hsparse, hk, hU, hframe⟩ :=
    hR.shape.takeBlock hR.sparse h16 (by omega) hfits
  have hscan' : scan (fun b => decide (need ≤ h.size b)) h.link turns (.head ()) =
      some (some (placeOf T₁, b)) := hscan
  have hlives : lives (T₁ ++ ⟨b, k, true⟩ :: U) = lives T₁ ++ (b, k) :: lives T₂ := by
    rw [lives_live, hU]
  have hkeeps : Keeps (lives (T₁ ++ ⟨b, n, false⟩ :: T₂)) h (takeBlock h (placeOf T₁) b need) :=
    hframe.keeps fun x hx => ⟨hx, lives_ne_free hR.shape.tiled hb hx⟩
  rw [hscan']
  dsimp only
  rw [hshape.size_eq, hframe.usedSz]
  generalize takeBlock h (placeOf T₁) b need = g at hshape hkeeps hframe
  have hsize' : size + 16 ≤ k := by omega
  refine ⟨b + hdrSize, { g with usedSz := (h.usedSz + k) % 2 ^ 64 }, rfl, hframe.arena,
    .inr ⟨b, k, T₁ ++ ⟨b, k, true⟩ :: U, rfl, ⟨hshape.setUsed, hsparse, ?_⟩, ?_, hsize', hkeeps⟩⟩
  swap
  · rw [hlives, lives_free]
    exact List.perm_middle
  -- the sum of the live sizes fits a word, so `used_sz` does not wrap
  have hsum := hshape.tiled.sum_le
  have hused := hR.used
  rw [lives_free] at hused
  rw [hlives] at hsum ⊢
  simp only [List.map_append, List.map_cons, List.sum_append, List.sum_cons] at hsum hused ⊢
  unfold arenaSz at hsum
  omega

/-! ## `kfree` -/

@[simp] theorem mergeNext_arena (h : Heap) (b : ℕ) : (mergeNext h b).arena = h.arena := by
  unfold mergeNext
  split
  · rfl
  · split <;> simp

@[simp] theorem mergePrev_arena (h : Heap) (pp : Cell Unit ℕ) (b : ℕ) :
    (mergePrev h pp b).arena = h.arena := by
  unfold mergePrev
  split
  · rfl
  · split <;> simp

/-- The loop of `insert_free` finds the place of a block. -/
theorem Shape.findPlace (hT : Shape h (T₁ ++ ⟨b, n, true⟩ :: T₂)) :
    findPlace h b = some (placeOf T₁) := by
  obtain ⟨ht1, hpos, ht2⟩ := hT.tiled.split
  have hlow : ∀ x, x ∈ (frees T₁).map Prod.fst → x < b := fun x hx => (frees_bounds ht1 hx).2
  have hhigh : ∀ x, x ∈ (frees T₂).map Prod.fst → b ≤ x := fun x hx =>
    (Nat.le_add_right b n).trans (frees_bounds ht2 hx).1
  have hsplit : (frees (T₁ ++ ⟨b, n, true⟩ :: T₂)).map Prod.fst =
      (frees T₁).map Prod.fst ++ (frees T₂).map Prod.fst := by
    simp [frees_cons_live]
  have hchain := hT.chain
  have hlen := hT.length_lt
  rw [hsplit] at hchain hlen
  unfold Kheap.findPlace
  rcases scan_chain (fun x => decide (b ≤ x)) hchain hlen with
    ⟨hscan, hall⟩ | ⟨l₁, x, l₂, hl, hl₁, hx, hscan⟩
  · -- no free block lies behind `b`
    have hnil : (frees T₂).map Prod.fst = [] := by
      refine List.eq_nil_iff_forall_not_mem.mpr fun x hx => ?_
      have h1 := of_decide_eq_false (hall x (List.mem_append_right _ hx))
      have h2 := hhigh x hx
      omega
    rw [hscan]
    rw [tailCell_chain hchain hlen, hnil, List.append_nil]
    rfl
  -- both splits of the list are at the first block that is not below `b`
  have htake : ∀ l l' : List ℕ, (∀ y, y ∈ l → y < b) → (∀ y, y ∈ l'.head? → b ≤ y) →
      (l ++ l').takeWhile (fun y => decide (y < b)) = l := by
    intro l l' hl hl'
    rw [List.takeWhile_append_of_pos fun y hy => decide_eq_true (hl y hy)]
    cases l' with
    | nil => simp
    | cons y =>
      have := hl' y (by simp)
      rw [List.takeWhile_cons_of_neg (by simpa using this), List.append_nil]
  have h1 := htake _ _ hlow fun y hy => hhigh y (List.mem_of_mem_head? hy)
  have h2 := htake l₁ (x :: l₂) (fun y hy => by have := of_decide_eq_false (hl₁ y hy); omega)
    fun y hy => by
      cases hy
      exact of_decide_eq_true hx
  rw [← hl, h1] at h2
  rw [hscan, ← h2]
  rfl

/-- The first block of a list of free blocks. -/
theorem Shape.link_free (hT : Shape h (T₁ ++ ⟨b, n, false⟩ :: T₂)) :
    h.link (.next b) = ((frees T₂).map Prod.fst).head? := by
  have hchain := hT.chain
  rw [frees_append, frees_cons_free rfl, List.map_append] at hchain
  have hrest := (chain_drop hchain).2
  cases hl : (frees T₂).map Prod.fst <;> rw [hl] at hrest
  exacts [hrest, hrest.1]

theorem absorb_keeps (hT : Shape h T) (ha : (⟨a, n, false⟩ : Seg) ∈ T) (hw : Writes [a] h h') :
    Keeps (lives T) h h' := by
  have h16 := tiled_size hT.tiled hT.aligned ha
  have hF : Frame T a h h' := hw.frame hT.tiled fun x hx => by
    obtain rfl := List.mem_singleton.mp hx
    exact ⟨_, ha, .inl rfl, le_rfl, by unfold Seg.stop; simp only at h16 ⊢; omega⟩
  exact hF.keeps fun x hx => ⟨hx, lives_ne_free hT.tiled ha hx⟩

/-- **Coalescing to the right.** -/
theorem Shape.mergeNext (hT : Shape h (T₁ ++ ⟨b, n, false⟩ :: T₂)) (hS : Sparse T₂) :
    ∃ m U, Shape (mergeNext h b) (T₁ ++ ⟨b, m, false⟩ :: U) ∧ Sparse (⟨b, m, false⟩ :: U) ∧
      lives U = lives T₂ ∧ Keeps (lives T₁ ++ lives T₂) h (mergeNext h b) ∧
      (mergeNext h b).usedSz = h.usedSz := by
  have hb : (⟨b, n, false⟩ : Seg) ∈ T₁ ++ ⟨b, n, false⟩ :: T₂ := by simp
  have hlink := hT.link_free
  obtain ⟨-, hpos, ht2⟩ := hT.tiled.split
  cases T₂ with
  | nil =>
    have hsame : Kheap.mergeNext h b = h := by
      unfold Kheap.mergeNext
      rw [hlink]
      rfl
    rw [hsame]
    exact ⟨n, [], hT, List.isChain_singleton _, rfl, Keeps.refl, rfl⟩
  | cons t T₂ =>
    obtain ⟨hta, htpos, ht2⟩ := ht2
    obtain ⟨c, m, live⟩ := t
    have hc : c = b + n := hta
    subst hc
    cases live with
    | true =>
      -- the next free block lies behind the live one
      have hsame : Kheap.mergeNext h b = h := by
        unfold Kheap.mergeNext
        rw [hlink, frees_cons_live rfl]
        cases hl : (frees T₂).map Prod.fst with
        | nil => rfl
        | cons =>
          have h1 := (frees_bounds ht2 (hl ▸ List.mem_cons_self)).1
          simp only [Seg.stop] at h1 htpos
          simp only [List.head?_cons]
          rw [hT.size_eq, if_neg (by omega)]
      rw [hsame]
      exact ⟨n, _, hT, List.isChain_cons_cons.mpr ⟨.inr rfl, hS⟩, rfl, Keeps.refl, rfl⟩
    | false =>
      have hmerge : Kheap.mergeNext h b = Kheap.absorb h b (b + n) := by
        have hstop := hT.stop_le (s := ⟨b + n, m, false⟩) (by simp)
        have hmod : (b + n) % 2 ^ 64 = b + n := by
          simp only [Seg.stop] at hstop htpos
          exact Nat.mod_eq_of_lt (by omega)
        unfold Kheap.mergeNext
        rw [hlink, frees_cons_free rfl]
        simp only [List.map_cons, List.head?_cons]
        rw [hT.size_eq, if_pos hmod, absorb_eq, hT.size_eq]
      obtain ⟨hshape, hw⟩ := hT.absorb
      rw [hmerge]
      refine ⟨n + m, T₂, hshape, hS.replace rfl, (lives_cons_free rfl).symm, ?_, hw.usedSz⟩
      refine (absorb_keeps hT hb hw).mono fun x hx => ?_
      rw [lives_free]
      exact hx

/-- **Coalescing to the left.** -/
theorem Shape.mergePrev (hT : Shape h (T₁ ++ ⟨b, n, false⟩ :: T₂)) (hS₁ : Sparse T₁)
    (hS₂ : Sparse (⟨b, n, false⟩ :: T₂)) :
    ∃ U, Shape (mergePrev h (placeOf T₁) b) U ∧ Sparse U ∧ lives U = lives T₁ ++ lives T₂ ∧
      Keeps (lives T₁ ++ lives T₂) h (mergePrev h (placeOf T₁) b) ∧
      (mergePrev h (placeOf T₁) b).usedSz = h.usedSz := by
  rcases List.eq_nil_or_concat' T₁ with rfl | ⟨T₁, t, rfl⟩
  · exact ⟨_, hT, hS₂, lives_free, Keeps.refl, rfl⟩
  obtain ⟨a, m, live⟩ := t
  cases live with
  | true =>
    -- the block in front is live, and the last free one ends before it
    have hsame : Kheap.mergePrev h (placeOf (T₁ ++ [⟨a, m, true⟩])) b = h := by
      rw [placeOf_snoc_live]
      rcases placeOf_eq T₁ with heq | ⟨s, hs, -, heq⟩
      · rw [heq]
        rfl
      rw [heq]
      unfold Kheap.mergePrev
      obtain ⟨ht1, -, -⟩ := hT.tiled.split
      obtain ⟨ht0, hmpos, hend⟩ := ht1.split
      have hend : a + m = b := hend
      have hbd := ht0.bounds hs
      have hsz : h.size s.addr = s.size := hT.header s (by simp [hs])
      simp only [Seg.stop] at hbd hmpos ⊢
      rw [if_neg (by omega)]
    rw [hsame]
    refine ⟨_, hT, ?_, lives_free, Keeps.refl, rfl⟩
    rw [List.append_assoc]
    exact (sparse_append_live rfl).mpr ⟨hS₁.left, hS₂⟩
  | false =>
    have hT' : Shape h (T₁ ++ ⟨a, m, false⟩ :: ⟨b, n, false⟩ :: T₂) := by
      rw [List.append_assoc] at hT
      exact hT
    have ha : (⟨a, m, false⟩ : Seg) ∈ T₁ ++ ⟨a, m, false⟩ :: ⟨b, n, false⟩ :: T₂ := by simp
    have hmerge : Kheap.mergePrev h (placeOf (T₁ ++ [⟨a, m, false⟩])) b = Kheap.absorb h a b := by
      obtain ⟨-, -, hab, hnpos, -⟩ := hT'.tiled.split
      have hab : b = a + m := hab
      have hstop := hT'.stop_le (s := ⟨b, n, false⟩) (by simp)
      have hmod : (a + m) % 2 ^ 64 = b := by
        simp only [Seg.stop] at hstop hnpos
        rw [hab]
        exact Nat.mod_eq_of_lt (by omega)
      rw [placeOf_snoc_free]
      unfold Kheap.mergePrev
      simp only
      rw [hT'.size_eq, if_pos hmod, absorb_eq, hT'.size_eq]
    obtain ⟨hshape, hw⟩ := hT'.absorb
    have hlives' : lives (T₁ ++ ⟨a, m, false⟩ :: ⟨b, n, false⟩ :: T₂) =
        lives (T₁ ++ [⟨a, m, false⟩]) ++ lives T₂ := by
      simp [lives_cons_free]
    rw [hmerge]
    refine ⟨_, hshape, ?_, ?_, ?_, hw.usedSz⟩
    · -- the front ends in a free block, and stays as it was before it
      refine List.isChain_append.mpr ⟨hS₁.left, hS₂.replace rfl, fun x hx y hy => ?_⟩
      cases hy
      exact (List.isChain_append.mp hS₁).2.2 x hx ⟨a, m, false⟩ rfl
    · simp [lives_cons_free]
    · rw [← hlives']
      exact absorb_keeps hT' ha hw

/-- **`kfree`.**  It returns, and one live block less is there. -/
theorem Rep.kfree (hR : Rep h T) (hb : (b, n) ∈ lives T) :
    ∃ h' T', kfree h (b + 16) = some h' ∧ h'.arena = h.arena ∧ Rep h' T' ∧
      (lives T).Perm ((b, n) :: lives T') ∧ Keeps (lives T') h h' := by
  obtain ⟨T₁, T₂, rfl⟩ := List.append_of_mem (mem_lives.mp hb)
  obtain ⟨hS₁, hS₂⟩ := (sparse_append_live rfl).mp hR.sparse
  set h₀ : Heap := { h with usedSz := (h.usedSz + (2 ^ 64 - n)) % 2 ^ 64 } with hh₀
  have hT₀ : Shape h₀ (T₁ ++ ⟨b, n, true⟩ :: T₂) := hR.shape.setUsed
  have hused : h₀.usedSz = ((lives T₁ ++ lives T₂).map Prod.snd).sum := by
    have hsum := hR.shape.tiled.sum_le
    have hold := hR.used
    rw [lives_live] at hsum hold
    simp only [List.map_append, List.map_cons, List.sum_append, List.sum_cons] at hsum hold ⊢
    show (h.usedSz + (2 ^ 64 - n)) % 2 ^ 64 = _
    unfold arenaSz at hsum
    omega
  obtain ⟨hshape₁, hframe₁⟩ := hT₀.linkIn
  have hsub : ∀ x, x ∈ lives T₁ ++ lives T₂ → x ∈ lives (T₁ ++ ⟨b, n, true⟩ :: T₂) := by
    intro x hx
    rw [lives_live]
    exact List.perm_middle.mem_iff.mpr (List.mem_cons_of_mem _ hx)
  have hk₁ : Keeps (lives T₁ ++ lives T₂) h₀ (linkAt h₀ (placeOf T₁) b) :=
    hframe₁.keeps fun x hx => ⟨hsub x hx, lives_ne hT₀.tiled hx⟩
  obtain ⟨m, U, hshape₂, hS, hU, hk₂, hu₂⟩ := hshape₁.mergeNext hS₂
  obtain ⟨V, hshape₃, hSV, hV, hk₃, hu₃⟩ := hshape₂.mergePrev hS₁ hS
  rw [hU] at hV hk₃
  refine ⟨mergePrev (mergeNext (linkAt h₀ (placeOf T₁) b) b) (placeOf T₁) b, V, ?_,
    by simp [linkAt, hh₀], ⟨hshape₃, hSV, ?_⟩, ?_, ?_⟩
  · unfold Kheap.kfree
    show insertFree { h with usedSz := (h.usedSz + (2 ^ 64 - h.size b)) % 2 ^ 64 } b = _
    rw [hR.shape.size_eq]
    unfold insertFree
    rw [hT₀.findPlace]
    rfl
  · rw [hu₃, hu₂, hframe₁.usedSz, hused, hV]
  · rw [lives_live, hV]
    exact List.perm_middle
  · rw [hV]
    have hk₀ : Keeps (lives T₁ ++ lives T₂) h h₀ := Keeps.refl
    exact ((hk₀.trans hk₁).trans hk₂).trans hk₃

/-! ## Writes to a payload -/

/-- **A payload.**  Writes behind the header of a live block are seen by this block only. -/
theorem Rep.store (hR : Rep h T) (hb : (b, n) ∈ lives T)
    (hm : ∀ j, j < b + 16 ∨ b + n ≤ j → m j = h.mem j) :
    Rep { h with mem := m } T ∧ ∀ x, x ∈ lives T → x.1 ≠ b → Keeps [x] h { h with mem := m } := by
  have hbT := mem_lives.mp hb
  have hbytes : ∀ s, s ∈ T → ∀ j, s.addr ≤ j → j < s.addr + 16 → m j = h.mem j := by
    intro s hs j h1 h2
    refine hm j ?_
    rcases hR.shape.tiled.apart hs hbT with rfl | hle | hle
    · exact .inl h2
    all_goals
      simp only [Seg.stop] at hle
      omega
  refine ⟨⟨⟨hR.shape.tiled, hR.shape.aligned, fun s hs => ?_, ?_, hR.shape.base, hR.shape.top⟩,
    hR.sparse, hR.used⟩, fun x hx hne y hy j h1 h2 => ?_⟩
  · have hread : readLE m s.addr 8 = readLE h.mem s.addr 8 :=
      readLE_congr fun j h1 h2 => hbytes s hs j h1 (by omega)
    exact hread.trans (hR.shape.header s hs)
  · refine hR.shape.chain.congr fun x hx => ?_
    rcases List.mem_cons.mp hx with rfl | hx
    · rfl
    obtain ⟨a, ha, rfl⟩ := List.mem_map.mp hx
    obtain ⟨s, hs, rfl, -⟩ := mem_frees_map ha
    have hread : readLE m (s.addr + 8) 8 = readLE h.mem (s.addr + 8) 8 :=
      readLE_congr fun j h1 h2 => hbytes s hs j (by omega) (by omega)
    exact congrArg ptr hread
  · obtain rfl := List.mem_singleton.mp hy
    refine hm j ?_
    rcases hR.shape.tiled.apart (mem_lives.mp hx) hbT with heq | hle | hle
    · exact absurd (congrArg Seg.addr heq) hne
    all_goals
      simp only [Seg.stop] at hle
      omega

/-! ## `kcalloc` and `krealloc` -/

theorem lives_nodup (ht : Tiled lo hi T) : ((lives T).map Prod.fst).Nodup := by
  refine List.pairwise_map.mpr ((lives_apart ht).imp_of_mem fun {x y} hx _ hle heq => ?_)
  have hpos : 0 < x.2 := (ht.bounds (mem_lives.mp hx)).2.2
  omega

/-- The other live blocks start elsewhere. -/
theorem Rep.ne_of_perm (hR : Rep h T) (hp : (lives T).Perm (y :: L)) (hx : x ∈ L) : x.1 ≠ y.1 := by
  have hnd := (hp.map Prod.fst).nodup_iff.mp (lives_nodup hR.shape.tiled)
  rw [List.map_cons, List.nodup_cons] at hnd
  intro heq
  exact hnd.1 (heq ▸ List.mem_map_of_mem hx)

/-- What is stored to the payload of the block that was just handed out. -/
theorem Rep.fill (hR : Rep h T') (hp : (lives T').Perm ((b, k) :: lives T))
    (hm : ∀ j, j < b + 16 ∨ b + k ≤ j → m j = h.mem j) :
    Rep { h with mem := m } T' ∧ Keeps (lives T) h { h with mem := m } := by
  obtain ⟨hR', hother⟩ := hR.store (hp.mem_iff.mpr List.mem_cons_self) hm
  refine ⟨hR', fun x hx => ?_⟩
  exact hother x (hp.mem_iff.mpr (List.mem_cons_of_mem _ hx)) (hR.ne_of_perm hp hx) x
    List.mem_cons_self

section

variable (hR : Rep h T) (hb : (b, n) ∈ lives T)
include hR hb

theorem Rep.size_live : h.size b = n := hR.shape.header ⟨b, n, true⟩ (mem_lives.mp hb)

theorem Rep.le_live : 16 ≤ n := tiled_size hR.shape.tiled hR.shape.aligned (mem_lives.mp hb)

end

/-- **`kcalloc`.** -/
theorem Rep.kcalloc (hR : Rep h T) (hsize : n * size ≤ 2 ^ 64 - 32) :
    ∃ p h', kcalloc h n size = some (p, h') ∧ h'.arena = h.arena ∧
      Allocates h T (n * size) p h' := by
  have htotal : n * size % 2 ^ 64 = n * size := Nat.mod_eq_of_lt (by omega)
  obtain ⟨p, h₁, hcall, harena, hcase⟩ := hR.kmalloc hsize
  unfold Kheap.kcalloc
  rw [htotal]
  dsimp only
  rw [hcall]
  rcases hcase with ⟨rfl, rfl⟩ | ⟨b, k, T', rfl, hR₁, hp, hk, hkeeps⟩
  · exact ⟨0, h₁, if_pos rfl, rfl, .inl ⟨rfl, rfl⟩⟩
  obtain ⟨hR₂, hkeeps₂⟩ := hR₁.fill (m := zeroFill h₁.mem (b + 16) (n * size)) hp fun j hj =>
    zeroFill_of_not_mem (by omega)
  exact ⟨b + 16, _, if_neg (by omega), harena,
    .inr ⟨b, k, T', rfl, hR₂, hp, hk, hkeeps.trans hkeeps₂⟩⟩

/-- How a call of `krealloc` for the block at `b` may end. -/
inductive Reallocates (h : Heap) (T : List Seg) (b n size : ℕ) : ℕ → Heap → Prop
  /-- `krealloc(p, 0)` is `kfree`. -/
  | freed {h' : Heap} {T' : List Seg} : size = 0 → Rep h' T' →
      (lives T).Perm ((b, n) :: lives T') → Keeps (lives T') h h' → Reallocates h T b n size 0 h'
  | fits : 0 < size → size + 16 ≤ n → Reallocates h T b n size (b + 16) h
  | fails : 0 < size → Reallocates h T b n size 0 h
  | moves {h' : Heap} {T' : List Seg} {c k : ℕ} {L : List (ℕ × ℕ)} : 0 < size → Rep h' T' →
      (lives T).Perm ((b, n) :: L) → (lives T').Perm ((c, k) :: L) → size + 16 ≤ k →
      Keeps L h h' → Reallocates h T b n size (c + 16) h'

theorem bytes_length (h : Heap) (p n : ℕ) : (h.bytes p n).length = n := by simp [Heap.bytes]

/-- **`krealloc`.** -/
theorem Rep.krealloc (hR : Rep h T) (hb : (b, n) ∈ lives T) (hsize : size ≤ 2 ^ 64 - 32) :
    ∃ p h', krealloc h (b + 16) size = some (p, h') ∧ h'.arena = h.arena ∧
      Reallocates h T b n size p h' := by
  have h16 := hR.le_live hb
  have hstop : b + n ≤ 2 ^ 64 := hR.shape.stop_le (mem_lives.mp hb)
  have hold : (n + (2 ^ 64 - hdrSize)) % 2 ^ 64 = n - 16 := by
    have := hR.shape.addr_pos (mem_lives.mp hb)
    unfold hdrSize
    omega
  have hblk : h.size (b + 16 - hdrSize) = n := hR.size_live hb
  unfold Kheap.krealloc
  rw [if_neg (by omega)]
  by_cases h0 : size = 0
  · obtain ⟨h', T', hcall, harena, hR', hp, hkeeps⟩ := hR.kfree hb
    rw [if_pos h0, hcall]
    exact ⟨0, h', rfl, harena, .freed h0 hR' hp hkeeps⟩
  have hpos : 0 < size := Nat.pos_of_ne_zero h0
  rw [if_neg h0, hblk, hold]
  by_cases hfits : size ≤ n - 16
  · exact ⟨b + 16, h, if_pos hfits, rfl, .fits hpos (by omega)⟩
  obtain ⟨p, h₁, hcall, harena₁, hcase⟩ := hR.kmalloc hsize
  rw [if_neg hfits, hcall]
  dsimp only
  rcases hcase with ⟨rfl, rfl⟩ | ⟨c, k, T₁, rfl, hR₁, hp₁, hk, hkeeps₁⟩
  · exact ⟨0, h₁, if_pos rfl, rfl, .fails hpos⟩
  -- the old bytes fit the new block, because they did not fit `size`
  obtain ⟨hR₂, hkeeps₂⟩ := hR₁.fill (m := memcpy h₁.mem (c + 16) (h₁.bytes (b + 16) (n - 16))) hp₁
    fun j hj => memcpy_of_not_mem (by rw [bytes_length]; omega)
  obtain ⟨h₃, T₃, hfree, harena₃, hR₃, hp₃, hkeeps₃⟩ :=
    hR₂.kfree (hp₁.mem_iff.mpr (List.mem_cons_of_mem _ hb))
  rw [hfree]
  have hlives : (lives T).Perm ((b, n) :: (lives T).erase (b, n)) := List.perm_cons_erase hb
  have hlives₃ : (lives T₃).Perm ((c, k) :: (lives T).erase (b, n)) := by
    have h1 : ((b, n) :: lives T₃).Perm ((c, k) :: (b, n) :: (lives T).erase (b, n)) :=
      hp₃.symm.trans (hp₁.trans (hlives.cons _))
    exact (h1.trans (List.Perm.swap _ _ _)).cons_inv
  have hsub : ∀ x, x ∈ (lives T).erase (b, n) → x ∈ lives T := fun x hx => List.mem_of_mem_erase hx
  have hsub₃ : ∀ x, x ∈ (lives T).erase (b, n) → x ∈ lives T₃ := fun x hx =>
    hlives₃.mem_iff.mpr (List.mem_cons_of_mem _ hx)
  have hkeeps : Keeps ((lives T).erase (b, n)) h h₃ :=
    ((hkeeps₁.mono hsub).trans (hkeeps₂.mono hsub)).trans (hkeeps₃.mono hsub₃)
  exact ⟨c + 16, h₃, rfl, harena₃.trans harena₁, .moves hpos hR₃ hlives hlives₃ hk hkeeps⟩

end Xos.Kheap
