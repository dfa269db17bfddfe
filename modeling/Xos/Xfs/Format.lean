import Xos.Xfs.Tree

/-!
# A freshly formatted disk

`xfs_format` followed by `xfs_mount`, on a device that has room for the superblock, the
bitmap, the root directory and its block: the tree has one inode and no entries.

* **the disk after format and mount** — `mount_format`;
* **its tree** — `Blank.live_iff`, `Blank.sound`, `Blank.complete`.
-/

namespace Xos.Xfs

open Xos.Lib

variable {x y : Fs}

/-- The device has room for what `xfs_format` writes, and block numbers fit the 32-bit
fields that hold them. -/
structure Fits (x : Fs) : Prop where
  room : 1 + bitmapBlocksFor x.dev.blockCount + 2 ≤ x.dev.blockCount
  small : x.dev.blockCount ≤ 2 ^ 32

/-- A disk with an empty root directory and no open descriptor. -/
structure Blank (y : Fs) : Prop where
  geometry : Geometry y
  root : y.rootBlock = y.dataStart
  room : y.dataStart + 2 ≤ y.total
  used : ∀ b, b < y.total → (bitmapGet y b = true ↔ b < y.dataStart + 2)
  inode : SameFields (readInode y y.rootBlock) (newInode [slash] 1 (y.rootBlock + 1))
  empty : y.read (y.rootBlock + 1) = fun _ => 0#8
  fds : y.fds = fun _ => noFd

/-! ## Format and mount -/

/-- The marking of the first blocks. -/
theorem foldl_mark_spec (bs : List ℕ) (hg : Geometry x) (hb : ∀ b ∈ bs, b < x.total) :
    let y := bs.foldl (fun x b => bitmapSet x b true) x
    SameGlobals x y ∧ y.read 0 = x.read 0 ∧ (∀ q, x.dataStart ≤ q → y.read q = x.read q) ∧
      ∀ c, bitmapGet y c = true ↔ bitmapGet x c = true ∨ c ∈ bs := by
  induction bs generalizing x with
  | nil => exact ⟨.refl x, rfl, fun _ _ => rfl, fun c => by simp⟩
  | cons b bs ih =>
    have hs := bitmapSet_same x b true
    have hbt : b < x.total := hb b List.mem_cons_self
    obtain ⟨h₁, h₂, h₃, h₄⟩ := ih (hg.same hs) fun c hc => by
      rw [hs.total]; exact hb c (List.mem_cons_of_mem b hc)
    refine ⟨hs.trans h₁, ?_, fun q hq => ?_, fun c => ?_⟩
    · rw [List.foldl_cons, h₂]
      have hne : 0 ≠ 1 + b / 8 / xfsBlockSize := by simp only [xfsBlockSize]; omega
      exact read_write_of_ne hne
    · rw [List.foldl_cons, h₃ q (by rwa [hs.dataStart])]
      exact read_bitmapSet hg hbt hq
    · rw [List.foldl_cons, h₄ c, bitmapGet_bitmapSet hg hbt]
      by_cases hcb : c = b <;> simp [hcb]

theorem superBlock_fields (total bitmapBlocks dataStart rootBlock : ℕ) (h₁ : total < 2 ^ 64)
    (h₂ : bitmapBlocks < 2 ^ 64) (h₃ : dataStart < 2 ^ 64) (h₄ : rootBlock < 2 ^ 64) :
    let sb := superBlock total bitmapBlocks dataStart rootBlock
    readLE sb 0 4 = xfsMagic ∧ readLE sb 8 8 = total ∧ readLE sb 24 8 = rootBlock ∧
      readLE sb 32 8 = bitmapBlocks ∧ readLE sb 40 8 = dataStart := by
  have hpow : (256 : ℕ) ^ 8 = 2 ^ 64 := by norm_num
  unfold superBlock
  refine ⟨?_, ?_, ?_, ?_, ?_⟩
  · iterate 6 rw [readLE_writeLE_of_disjoint (by omega)]
    rfl
  · iterate 4 rw [readLE_writeLE_of_disjoint (by omega)]
    rw [readLE_writeLE, hpow, Nat.mod_eq_of_lt h₁]
  · iterate 2 rw [readLE_writeLE_of_disjoint (by omega)]
    rw [readLE_writeLE, hpow, Nat.mod_eq_of_lt h₄]
  · rw [readLE_writeLE_of_disjoint (by omega), readLE_writeLE, hpow, Nat.mod_eq_of_lt h₂]
  · rw [readLE_writeLE, hpow, Nat.mod_eq_of_lt h₃]

section Clear

variable (x)

theorem formatClear_total : (formatClear x).total = x.dev.blockCount := (write_same _ _ _).total

theorem formatClear_blockCount : (formatClear x).dev.blockCount = x.dev.blockCount :=
  (write_same _ _ _).blockCount

theorem formatClear_bitmapBlocks :
    (formatClear x).bitmapBlocks = bitmapBlocksFor x.dev.blockCount :=
  (write_same _ _ _).bitmapBlocks

theorem formatClear_dataStart : (formatClear x).dataStart = 1 + bitmapBlocksFor x.dev.blockCount :=
  (write_same _ _ _).dataStart

theorem formatClear_rootBlock : (formatClear x).rootBlock = 1 + bitmapBlocksFor x.dev.blockCount :=
  (write_same _ _ _).rootBlock

variable {x}

theorem formatClear_geometry (h : Fits x) : Geometry (formatClear x) := by
  have hroom := h.room
  have hsmall := h.small
  refine ⟨?_, ?_, ?_, ?_⟩
  · rw [formatClear_total, formatClear_blockCount]
  · rw [formatClear_total]; exact h.small
  · rw [formatClear_total, formatClear_dataStart]
    unfold bitmapBlocksFor
    simp only [xfsBlockSize]
    omega
  · rw [formatClear_total, formatClear_dataStart]; omega

theorem read_formatClear (h : 1 ≤ b) (hb : b < x.dev.blockCount) :
    (formatClear x).read b = fun _ => 0#8 := by
  unfold formatClear
  rw [read_write_of_ne (by omega)]
  simp only [Fs.read]
  rw [if_pos hb, if_pos ⟨h, hb⟩]

theorem read_formatClear_zero (h : 0 < x.dev.blockCount) :
    (formatClear x).read 0 = superBlock x.dev.blockCount (bitmapBlocksFor x.dev.blockCount)
      (1 + bitmapBlocksFor x.dev.blockCount) (1 + bitmapBlocksFor x.dev.blockCount) :=
  read_write_self h

end Clear

/-- **Format and mount.** -/
theorem mount_format (h : Fits x) : ∃ y, xfsMount (xfsFormat x) = some y ∧ Blank y := by
  have hroom := h.room
  have hsmall := h.small
  have hg := formatClear_geometry h
  set x₁ := formatClear x with hx₁
  have hstart : x₁.dataStart = 1 + bitmapBlocksFor x.dev.blockCount := formatClear_dataStart x
  have hroot : x₁.rootBlock = x₁.dataStart := by rw [formatClear_rootBlock, hstart]
  have htot : x₁.total = x.dev.blockCount := formatClear_total x
  obtain ⟨hs, h0, hdata, hused⟩ := foldl_mark_spec (List.range (x₁.dataStart + 2)) hg fun b hb => by
      have := List.mem_range.1 hb
      omega
  set x₂ := (List.range (x₁.dataStart + 2)).foldl (fun x b => bitmapSet x b true) x₁ with hx₂
  have hg₂ := hg.same hs
  set x₃ := x₂.write x₂.rootBlock (newInode [slash] 1 (x₂.rootBlock + 1)) with hx₃
  have hs₃ : SameGlobals x₂ x₃ := write_same _ _ _
  have hformat : xfsFormat x = x₃ := rfl
  have hroot₂ : x₂.rootBlock = x₁.dataStart := hs.rootBlock.trans hroot
  -- the mount reads back what the format stored
  have hsb : x₃.read 0 = superBlock x.dev.blockCount (bitmapBlocksFor x.dev.blockCount)
      (1 + bitmapBlocksFor x.dev.blockCount) (1 + bitmapBlocksFor x.dev.blockCount) := by
    rw [read_write_of_ne (by omega), h0]
    exact read_formatClear_zero (by omega)
  obtain ⟨hm, hf₁, hf₂, hf₃, hf₄⟩ := superBlock_fields x.dev.blockCount
    (bitmapBlocksFor x.dev.blockCount) (1 + bitmapBlocksFor x.dev.blockCount)
    (1 + bitmapBlocksFor x.dev.blockCount) (by omega) (by omega) (by omega) (by omega)
  set y : Fs := { x₃ with fds := fun _ => noFd } with hy
  have hmount : xfsMount (xfsFormat x) = some y := by
    rw [hformat]
    unfold xfsMount
    simp only [hsb, hm, hf₁, hf₂, hf₃, hf₄, ne_eq, not_true_eq_false, if_false]
    have e₁ : x₃.total = x.dev.blockCount := by rw [hs₃.total, hs.total, htot]
    have e₂ : x₃.rootBlock = 1 + bitmapBlocksFor x.dev.blockCount := by
      rw [hs₃.rootBlock, hroot₂, hstart]
    have e₃ : x₃.bitmapBlocks = bitmapBlocksFor x.dev.blockCount := by
      rw [hs₃.bitmapBlocks, hs.bitmapBlocks, formatClear_bitmapBlocks]
    have e₄ : x₃.dataStart = 1 + bitmapBlocksFor x.dev.blockCount := by
      rw [hs₃.dataStart, hs.dataStart, hstart]
    rw [hy]
    simp only [e₁, e₂, e₃, e₄]
  have hsy : SameGlobals x₃ y := ⟨rfl, rfl, rfl, rfl, rfl, rfl⟩
  have hyt : y.total = x₁.total := hs₃.total.trans hs.total
  have hyd : y.dataStart = x₁.dataStart := hs₃.dataStart.trans hs.dataStart
  have hyr : y.rootBlock = x₁.dataStart := hs₃.rootBlock.trans hroot₂
  refine ⟨y, hmount, (hg₂.same hs₃).same hsy, by rw [hyr, hyd], by rw [hyt]; omega,
    fun b hb => ?_, ?_, ?_, rfl⟩
  · rw [hyt] at hb
    have hblank : bitmapGet x₁ b = false := by
      unfold bitmapGet
      have hlt := hg.bitmapBlock_lt hb
      rw [read_formatClear (Nat.le_add_right 1 _) (by omega)]
      simp
    have hbw : bitmapGet y b = bitmapGet x₂ b := by
      exact bitmapGet_write hg₂ (by rw [hs.total]; exact hb) (by rw [hroot₂, hs.dataStart])
    rw [hbw, hused b, hblank, hyd]
    simp
  · have hfields : SameFields (readInode x₃ x₂.rootBlock)
        (newInode [slash] 1 (x₂.rootBlock + 1)) := by
      intro j hj
      unfold readInode
      rw [if_pos hj, read_write_self]
      rw [hs.blockCount, ← hg.total]
      omega
    rw [hyr, ← hroot₂]
    exact hfields
  · change x₃.read (y.rootBlock + 1) = _
    rw [read_write_of_ne (by omega), hdata _ (by omega)]
    exact read_formatClear (by omega) (by omega)

/-! ## The tree of a blank disk -/

section Blank

variable (h : Blank y)

include h

theorem Blank.slot_zero : (tree y).slot y.rootBlock 0 = y.rootBlock + 1 := by
  have hroom := h.room
  have hsmall := h.geometry.small
  rw [tree_slot, h.inode.block (Nat.zero_le _), dataBlock_newInode_zero]
  rw [h.root]
  omega

theorem Blank.count_root : (tree y).count y.rootBlock = 1 := by
  rw [tree_count, h.inode.count, blockCount_newInode]

theorem Blank.dir_root : (tree y).dir y.rootBlock = true := by
  rw [tree_dir, h.inode.isDir, isDir, inodeFlags_newInode]
  rfl

theorem Blank.no_entry : ¬ (tree y).Entry y.rootBlock i d c := by
  intro he
  have hi := he.index
  rw [h.count_root] at hi
  have hn := he.names
  rw [show i = 0 by omega, h.slot_zero, tree_ent, h.empty] at hn
  have hz : entInode (fun _ => 0#8) d = 0 := readLE_eq_zero fun _ _ _ => rfl
  exact he.nonzero (hn.symm.trans hz)

theorem Blank.live_iff : (tree y).Live q ↔ q = y.rootBlock := by
  constructor
  · intro hq
    induction hq with
    | root => rfl
    | child _ he ih => subst ih; exact absurd he h.no_entry
  · rintro rfl; exact .root

theorem Blank.refers_iff : (tree y).Refers o b ↔
    (o = .super ∧ b = y.rootBlock) ∨ (o = .slot y.rootBlock 0 ∧ b = y.rootBlock + 1) := by
  cases o with
  | super => simp [BlockTree.Refers, tree]
  | entry =>
    simp only [BlockTree.Refers, h.live_iff, reduceCtorEq, false_and, or_false, iff_false, not_and]
    rintro rfl he
    exact h.no_entry he
  | slot p i =>
    simp only [BlockTree.Refers, h.live_iff, reduceCtorEq, false_and, false_or,
      BlockTree.Owner.slot.injEq]
    constructor
    · rintro ⟨rfl, hi, hb⟩
      rw [h.count_root] at hi
      obtain rfl : i = 0 := by omega
      exact ⟨⟨rfl, rfl⟩, hb.symm.trans h.slot_zero⟩
    · rintro ⟨⟨rfl, rfl⟩, rfl⟩
      exact ⟨rfl, by rw [h.count_root]; exact Nat.one_pos, h.slot_zero⟩

theorem Blank.sound : (tree y).Sound := by
  have hroot := h.root
  have hroom := h.room
  have hrange : ∀ {o b}, (tree y).Refers o b → y.dataStart ≤ b ∧ b < y.dataStart + 2 := by
    intro o b hr
    rcases h.refers_iff.1 hr with ⟨-, rfl⟩ | ⟨-, rfl⟩ <;> omega
  refine ⟨h.dir_root, ?_, ?_, ?_, ?_, ?_⟩
  · intro o b hr
    have := hrange hr
    exact ⟨this.1, lt_of_lt_of_le this.2 hroom⟩
  · intro o b hr
    have := hrange hr
    exact (h.used b (by omega)).2 this.2
  · intro o o' b hr hr'
    rcases h.refers_iff.1 hr with ⟨ho, hb⟩ | ⟨ho, hb⟩ <;>
      rcases h.refers_iff.1 hr' with ⟨ho', hb'⟩ | ⟨ho', hb'⟩
    · exact ho.trans ho'.symm
    · omega
    · omega
    · exact ho.trans ho'.symm
  · intro p hp
    rw [h.live_iff.1 hp, h.count_root]
    exact (by decide : 1 ≤ maxDirect)
  · intro p i hp hi hc
    rw [h.live_iff.1 hp] at hi ⊢
    rw [h.count_root] at hi
    obtain ⟨k, rfl⟩ : ∃ k, i = k + 1 := ⟨i - 1, by omega⟩
    rw [tree_slot, h.inode.block (le_of_lt hc), dataBlock_newInode_succ]

theorem Blank.complete : (tree y).Complete := by
  intro b hlo hhi hu
  have hlt := (h.used b hhi).1 hu
  have hroot := h.root
  have hlo : y.dataStart ≤ b := hlo
  by_cases hb : b = y.rootBlock
  · exact ⟨.super, h.refers_iff.2 (.inl ⟨rfl, hb⟩)⟩
  · exact ⟨.slot y.rootBlock 0, h.refers_iff.2 (.inr ⟨rfl, by omega⟩)⟩

end Blank

end Xos.Xfs
