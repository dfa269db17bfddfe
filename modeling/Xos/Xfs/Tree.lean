import Mathlib.Data.List.Find
import Xos.Lib.BlockPaths
import Xos.Xfs.Ops

/-!
# The tree on the disk

`tree x` reads the disk as a tree of blocks.  An operation touches the data area one
block at a time; `Frame` says which blocks it may have touched, and as long as none of
them is the inode of a live file or directory or a block of a live directory, the tree
is the same.

* **frames** — `Frame.agree`;
* **scans** — `findDent_some`, `findDent_none`;
* **freeing** — `freeData_frame`, `bitmapGet_freeData`.
-/

namespace Xos.Xfs

open Xos.Lib

/-- The disk as a tree of blocks. -/
def tree (x : Fs) : BlockTree (List Byte) where
  root := x.rootBlock
  lo := x.dataStart
  hi := x.total
  width := maxDents
  cap := maxDirect
  used := bitmapGet x
  dir p := isDir (readInode x p)
  count p := blockCount (readInode x p)
  slot p i := dataBlock (readInode x p) i
  ent b d := entInode (x.read b) d
  label b d := entName (x.read b) d

theorem tree_used (x : Fs) (b : ℕ) : (tree x).used b = bitmapGet x b := rfl
theorem tree_dir (x : Fs) (p : ℕ) : (tree x).dir p = isDir (readInode x p) := rfl
theorem tree_count (x : Fs) (p : ℕ) : (tree x).count p = blockCount (readInode x p) := rfl
theorem tree_slot (x : Fs) (p i : ℕ) : (tree x).slot p i = dataBlock (readInode x p) i := rfl
theorem tree_ent (x : Fs) (b d : ℕ) : (tree x).ent b d = entInode (x.read b) d := rfl
theorem tree_label (x : Fs) (b d : ℕ) : (tree x).label b d = entName (x.read b) d := rfl

variable {x y z : Fs} {W : ℕ → Prop} {b : ℕ}

/-! ## Frames -/

/-- Only the blocks in `W` of the data area may have changed. -/
structure Frame (x y : Fs) (W : ℕ → Prop) : Prop where
  same : SameGlobals x y
  read : ∀ q, x.dataStart ≤ q → ¬ W q → y.read q = x.read q

theorem Frame.refl (x : Fs) (W : ℕ → Prop) : Frame x x W := ⟨.refl x, fun _ _ _ => rfl⟩

theorem Frame.trans (h : Frame x y W) (h' : Frame y z W) : Frame x z W :=
  ⟨h.same.trans h'.same, fun q hq hw =>
    (h'.read q (by rwa [h.same.dataStart]) hw).trans (h.read q hq hw)⟩

theorem Frame.mono {W' : ℕ → Prop} (h : Frame x y W) (hw : ∀ q, W q → W' q) : Frame x y W' :=
  ⟨h.same, fun q hq hn => h.read q hq fun h => hn (hw q h)⟩

theorem Frame.write (x : Fs) (b : ℕ) (buf : Bytes) : Frame x (x.write b buf) (· = b) :=
  ⟨write_same x b buf, fun _ _ hq => read_write_of_ne hq⟩

theorem Frame.bitmapSet (h : Geometry x) (hb : b < x.total) (v : Bool) (W : ℕ → Prop) :
    Frame x (bitmapSet x b v) W :=
  ⟨bitmapSet_same x b v, fun _ hq _ => read_bitmapSet h hb hq⟩

theorem Frame.freeBlock (h : Geometry x) (b : ℕ) (W : ℕ → Prop) : Frame x (freeBlock x b) W := by
  unfold Xfs.freeBlock
  split
  · exact .refl x W
  · exact .bitmapSet h (by omega) false W

theorem SameGlobals.shape (h : SameGlobals x y) : BlockTree.SameShape (tree x) (tree y) :=
  ⟨h.rootBlock, h.dataStart, h.total, rfl, rfl⟩

theorem sameInode_of_read (h : SameGlobals x y) (hp : y.read p = x.read p) :
    BlockTree.SameInode (tree x) (tree y) p := by
  have he := readInode_congr h hp
  exact ⟨by simp only [tree, he], by simp only [tree, he], fun i => by simp only [tree, he]⟩

theorem sameEntry_of_read (hb : y.read b = x.read b) (d : ℕ) :
    BlockTree.SameEntry (tree x) (tree y) b d :=
  ⟨by simp only [tree, hb], by simp only [tree, hb]⟩

/-- The blocks that hold the entries of a directory of the tree. -/
def DirBlock (x : Fs) (q : ℕ) : Prop :=
  ∃ p i, (tree x).Live p ∧ (tree x).dir p = true ∧ i < (tree x).count p ∧ (tree x).slot p i = q

/-- The blocks that hold the tree: inodes and directory blocks. -/
def Meta (x : Fs) (q : ℕ) : Prop := (tree x).Live q ∨ DirBlock x q

section

variable (hs : (tree x).Sound)
include hs

theorem Meta.range (h : Meta x q) : x.dataStart ≤ q ∧ q < x.total := by
  rcases h with hq | ⟨p, i, hp, -, hi, rfl⟩
  · exact hs.live_range hq
  · exact hs.slot_range hp hi

theorem Meta.used (h : Meta x q) : bitmapGet x q = true := by
  rcases h with hq | ⟨p, i, hp, -, hi, rfl⟩
  · exact hs.live_used hq
  · exact hs.slot_used hp hi

/-- A directory's block is no inode of the tree. -/
theorem DirBlock.ne_live (h : DirBlock x q) (hf : (tree x).Live f) : q ≠ f := by
  obtain ⟨p, i, hp, -, hi, rfl⟩ := h
  exact hs.live_ne_slot hf hp hi

/-- A file's data block does not hold the tree. -/
theorem not_meta_of_file (hf : (tree x).Live f) (hfile : (tree x).dir f = false)
    (hi : i < (tree x).count f) :
    ¬ Meta x ((tree x).slot f i) := by
  rintro (hq | ⟨p, j, hp, hd, hj, he⟩)
  · exact hs.live_ne_slot hq hf hi rfl
  · obtain ⟨rfl, -⟩ := hs.slot_inj hp hj hf hi he
    rw [hfile] at hd
    cases hd

/-- **Frames.**  The tree does not change if nothing that holds it does. -/
theorem Frame.agree (h : Frame x y W) (hw : ∀ q, W q → ¬ Meta x q) :
    BlockTree.Agree (tree x) (tree y) := by
  have hread : ∀ {q}, Meta x q → y.read q = x.read q := fun hq =>
    h.read _ (hq.range hs).1 fun hn => hw _ hn hq
  exact ⟨h.same.shape, fun hp => sameInode_of_read h.same (hread (.inl hp)),
    fun hp hd hi _ => sameEntry_of_read (hread (.inr ⟨_, _, hp, hd, hi, rfl⟩)) _⟩

end

/-! ## The directories' blocks after an edit -/

section DirBlocks

variable {q p i d f ino data : ℕ} {new : Bool}

theorem DirBlock.agree_iff (h : BlockTree.Agree (tree x) (tree y)) :
    DirBlock y q ↔ DirBlock x q := by
  refine exists_congr fun p => exists_congr fun i => ?_
  rw [h.live_iff]
  refine and_congr_right fun hp => ?_
  rw [(h.inode hp).dir, (h.inode hp).count, (h.inode hp).slot]

theorem DirBlock.resize_iff (h : BlockTree.Resize (tree x) (tree y) f) :
    DirBlock y q ↔ DirBlock x q := by
  refine exists_congr fun p => exists_congr fun i => ?_
  rw [h.live_iff]
  refine and_congr_right fun hp => ?_
  by_cases hpf : p = f
  · subst hpf
    rw [h.dir, h.file]
    simp
  · rw [(h.inode hp hpf).dir, (h.inode hp hpf).count, (h.inode hp hpf).slot]

theorem DirBlock.of_remove (h : BlockTree.Remove (tree x) (tree y) p i d f) (hs : (tree x).Sound)
    (hq : DirBlock y q) : DirBlock x q := by
  obtain ⟨p', j, hp', hdir, hj, hslot⟩ := hq
  obtain ⟨hp', -⟩ := (h.live_iff hs).1 hp'
  rw [(h.inode hp').dir] at hdir
  rw [(h.inode hp').count] at hj
  rw [(h.inode hp').slot] at hslot
  exact ⟨p', j, hp', hdir, hj, hslot⟩

theorem DirBlock.of_create (h : BlockTree.Create (tree x) (tree y) p i d ino data new)
    (hq : DirBlock y q) : DirBlock x q ∨ (new = true ∧ q = data) := by
  obtain ⟨p', j, hp', hdir, hj, hslot⟩ := hq
  rcases h.live_iff.1 hp' with hp' | rfl
  · rw [(h.inode hp').dir] at hdir
    rw [(h.inode hp').count] at hj
    rw [(h.inode hp').slot] at hslot
    exact .inl ⟨p', j, hp', hdir, hj, hslot⟩
  · have hj0 : j = 0 := by rw [h.newCount] at hj; omega
    rw [hj0, h.newSlot] at hslot
    exact .inr ⟨h.newDir ▸ hdir, hslot.symm⟩

end DirBlocks

/-! ## Descriptors -/

section SetFd

variable (x : Fs) (i : ℕ) (f : Fd)

theorem setFd_same : SameGlobals x (x.setFd i f) := ⟨rfl, rfl, rfl, rfl, rfl, rfl⟩

@[simp] theorem setFd_fds : (x.setFd i f).fds = Function.update x.fds i f := rfl

theorem fdOf_congr {x : Fs} (h : y.fds = x.fds) : fdOf y pid fd = fdOf x pid fd := by
  unfold fdOf
  rw [h]

@[simp] theorem tree_setFd : tree (x.setFd i f) = tree x := rfl

theorem writeInode_setFd (b : ℕ) (inode : Bytes) :
    writeInode (x.setFd i f) b inode = (writeInode x b inode).setFd i f := by
  change (if b < x.dev.blockCount then _ else _) =
    Fs.setFd (if b < x.dev.blockCount then _ else _) i f
  split <;> rfl

end SetFd

/-! ## Scans -/

section Scan

variable {inode : Bytes} {pick : ℕ → Bytes → ℕ → Bool} {e : ℕ × ℕ}

theorem mem_dentPlaces : e ∈ dentPlaces inode ↔ e.1 < blockCount inode ∧ e.2 < maxDents := by
  unfold dentPlaces
  simp only [List.mem_flatMap, List.mem_range, List.mem_map]
  constructor
  · rintro ⟨db, hdb, d, hd, rfl⟩
    exact ⟨hdb, hd⟩
  · rintro ⟨h₁, h₂⟩
    exact ⟨e.1, h₁, e.2, h₂, rfl⟩

theorem findDent_some (h : findDent x inode pick = some e) :
    e.1 < blockCount inode ∧ e.2 < maxDents ∧
      pick (dataBlock inode e.1) (x.read (dataBlock inode e.1)) e.2 = true := by
  have hmem := mem_dentPlaces.1 (List.mem_of_find?_eq_some h)
  have hpick := List.find?_some h
  exact ⟨hmem.1, hmem.2, hpick⟩

theorem findDent_none (h : findDent x inode pick = none) (hdb : db < blockCount inode)
    (hd : d < maxDents) : pick (dataBlock inode db) (x.read (dataBlock inode db)) d = false := by
  have := List.find?_eq_none.1 h (db, d) (mem_dentPlaces.2 ⟨hdb, hd⟩)
  simpa using this

/-- A scan sees only the entries of the inode's blocks. -/
theorem findDent_congr (h : ∀ db d, db < blockCount inode → d < maxDents →
    pick (dataBlock inode db) (y.read (dataBlock inode db)) d =
      pick (dataBlock inode db) (x.read (dataBlock inode db)) d) :
    findDent y inode pick = findDent x inode pick := by
  apply List.find?_congr
  intro e he
  obtain ⟨h₁, h₂⟩ := mem_dentPlaces.1 he
  exact h e.1 e.2 h₁ h₂

/-- Of the inode a scan sees only the list of blocks. -/
theorem findDent_inode (hcount : blockCount inode' = blockCount inode)
    (hblock : ∀ i, dataBlock inode' i = dataBlock inode i) :
    findDent x inode' pick = findDent x inode pick := by
  simp only [findDent, dentPlaces, hcount, hblock]

end Scan

/-! ## Freeing -/

section Free

variable {inode : Bytes} {i j : ℕ}

theorem bitmapGet_freeBlock (h : Geometry x) (hc : c < x.total) :
    bitmapGet (freeBlock x b) c = true ↔ bitmapGet x c = true ∧ c ≠ b := by
  unfold freeBlock
  split
  · constructor
    · intro hu; exact ⟨hu, by omega⟩
    · exact And.left
  · rw [bitmapGet_bitmapSet h (by omega)]
    by_cases hcb : c = b <;> simp [hcb]

/-- The effect of a list of frees. -/
theorem foldl_free_spec (inode : Bytes) (ks : List ℕ) (hg : Geometry x) :
    let y := ks.foldl
      (fun x k => if dataBlock inode k ≠ 0 then freeBlock x (dataBlock inode k) else x) x
    Frame x y (fun _ => False) ∧ y.fds = x.fds ∧ ∀ b, b < x.total → (bitmapGet y b = true ↔
        bitmapGet x b = true ∧ ∀ k ∈ ks, dataBlock inode k ≠ 0 → dataBlock inode k ≠ b) := by
  induction ks generalizing x with
  | nil => exact ⟨.refl x _, rfl, fun b _ => by simp⟩
  | cons k ks ih =>
    by_cases hk : dataBlock inode k ≠ 0
    · have hfr : Frame x (freeBlock x (dataBlock inode k)) (fun _ => False) := .freeBlock hg _ _
      obtain ⟨h₁, h₂, h₃⟩ := ih (hg.same hfr.same)
      simp only [List.foldl_cons, if_pos hk]
      refine ⟨hfr.trans h₁, h₂.trans (freeBlock_fds _ _), fun b hb => ?_⟩
      rw [h₃ b (by rwa [hfr.same.total]), bitmapGet_freeBlock hg hb]
      simp only [List.mem_cons, forall_eq_or_imp]
      constructor
      · rintro ⟨⟨hu, hne⟩, hall⟩; exact ⟨hu, fun _ => hne.symm, hall⟩
      · rintro ⟨hu, hne, hall⟩; exact ⟨⟨hu, (hne hk).symm⟩, hall⟩
    · obtain ⟨h₁, h₂, h₃⟩ := ih hg
      simp only [List.foldl_cons, if_neg hk]
      refine ⟨h₁, h₂, fun b hb => ?_⟩
      rw [h₃ b hb]
      simp only [List.mem_cons, forall_eq_or_imp]
      exact and_congr_right fun _ => ⟨fun h => ⟨fun hk' => absurd hk' hk, h⟩, And.right⟩

theorem freeData_frame (hg : Geometry x) : Frame x (freeData x inode i j) (fun _ => False) :=
  (foldl_free_spec inode _ hg).1

theorem freeData_fds (hg : Geometry x) : (freeData x inode i j).fds = x.fds :=
  (foldl_free_spec inode _ hg).2.1

theorem bitmapGet_freeData (hg : Geometry x) (hb : b < x.total) :
    bitmapGet (freeData x inode i j) b = true ↔ bitmapGet x b = true ∧
        ∀ k, i ≤ k → k < j → dataBlock inode k ≠ 0 → dataBlock inode k ≠ b := by
  unfold freeData
  rw [(foldl_free_spec inode (List.range' i (j - i)) hg).2.2 b hb]
  refine and_congr_right fun _ => ?_
  simp only [List.mem_range'_1]
  constructor
  · intro h k hk hk'; exact h k ⟨hk, by omega⟩
  · rintro h k ⟨hk, hk'⟩; exact h k hk (by omega)

end Free

end Xos.Xfs
