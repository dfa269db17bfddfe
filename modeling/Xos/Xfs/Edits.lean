import Xos.Xfs.Tree

/-!
# What the calls do to the tree

Each call of XFS that changes the disk is one edit of the tree, or none.

* **creation** — `createEntry_spec`;
* **unlink** — `xfsUnlink_spec`;
* **write and truncate** — `xfsWrite_spec`, `xfsFtruncate_spec`.

The hypotheses of these theorems say what the code does not check: that the directory
found for a path is one, that a descriptor still belongs to a file, and so on.
-/

namespace Xos.Xfs

open Xos.Lib

variable {x y : Fs} {path : List Byte}

/-- Tree, bitmap and descriptors are as they were. -/
structure Unchanged (x y : Fs) : Prop where
  same : SameGlobals x y
  agree : BlockTree.Agree (tree x) (tree y)
  held : ∀ q, Meta x q → y.read q = x.read q
  used : ∀ b, b < x.total → bitmapGet y b = bitmapGet x b
  fds : y.fds = x.fds

theorem Frame.unchanged (hs : (tree x).Sound) {W : ℕ → Prop} (h : Frame x y W)
    (hw : ∀ q, W q → ¬ Meta x q) (hu : ∀ b, b < x.total → bitmapGet y b = bitmapGet x b)
    (hfds : y.fds = x.fds) : Unchanged x y where
  same := h.same
  agree := h.agree hs hw
  held q hq := h.read q (hq.range hs).1 fun hn => hw q hn hq
  used := hu
  fds := hfds

/-- Only free blocks were written to; bitmap and descriptors are as they were. -/
structure Undone (x y : Fs) : Prop where
  frame : Frame x y fun q => bitmapGet x q = false
  used : ∀ b, b < x.total → bitmapGet y b = bitmapGet x b
  fds : y.fds = x.fds

theorem Undone.refl (x : Fs) : Undone x x := ⟨.refl x _, fun _ _ => rfl, rfl⟩

theorem Undone.unchanged (h : Undone x y) (hs : (tree x).Sound) : Unchanged x y := by
  refine h.frame.unchanged hs (fun q hq hm => ?_) h.used h.fds
  rw [hm.used hs] at hq
  cases hq

theorem Unchanged.refl (hs : (tree x).Sound) : Unchanged x x := (Undone.refl x).unchanged hs

/-! ## Creation -/

/-- The data block that a creation would get. -/
def freshData (x : Fs) : Option ℕ := (allocBlock (allocBlock x).2).1

/-- What a creation reads off the disk: the parent, the block of the new inode, its data
block, and the place of the entry in the parent. -/
def plan (x : Fs) (path : List Byte) : Option (ℕ × ℕ × ℕ × ℕ × ℕ) :=
  (parentInode x path).bind fun p =>
    if baseName path = [] then none
    else
      (allocBlock x).1.bind fun ino =>
        (freshData x).bind fun data =>
          (findDent x (readInode x p) fun _ s d => entInode s d == 0).map fun e =>
            (p, ino, data, e.1, e.2)

/-- The state after the two allocations of a creation and the write of the inode. -/
def withInode (x : Fs) (ino data : ℕ) (inode : Bytes) : Fs :=
  writeInode (bitmapSet (bitmapSet x ino true) data true) ino inode

section Create

variable {ino data : ℕ} {inode : Bytes}

theorem withInode_frame (hg : Geometry x) (hi : ino < x.total) (hd : data < x.total) :
    Frame x (withInode x ino data inode) (· = ino) := by
  have h₁ : Frame x (bitmapSet x ino true) (· = ino) := .bitmapSet hg hi true _
  have hg₁ := hg.same h₁.same
  have h₂ : Frame (bitmapSet x ino true) (bitmapSet (bitmapSet x ino true) data true) (· = ino) :=
    .bitmapSet hg₁ (by rwa [h₁.same.total]) true _
  exact (h₁.trans h₂).trans (Frame.write _ _ _)

theorem bitmapGet_withInode (hg : Geometry x) (hi : ino < x.total) (hd : data < x.total)
    (hlo : x.dataStart ≤ ino) (hb : b < x.total) :
    bitmapGet (withInode x ino data inode) b = true ↔
      bitmapGet x b = true ∨ b = ino ∨ b = data := by
  have h₁ := bitmapSet_same x ino true
  have hg₁ := hg.same h₁
  have h₂ := bitmapSet_same (bitmapSet x ino true) data true
  have hg₂ := hg₁.same h₂
  unfold withInode writeInode
  rw [bitmapGet_write hg₂ (by rwa [h₂.total, h₁.total]) (by rwa [h₂.dataStart, h₁.dataStart]),
    bitmapGet_bitmapSet hg₁ (by rwa [h₁.total]), bitmapGet_bitmapSet hg hi]
  by_cases hbd : b = data
  · simp [hbd]
  · by_cases hbi : b = ino <;> simp [hbd, hbi]

theorem withInode_fds : (withInode x ino data inode).fds = x.fds := by
  simp [withInode]

/-- One block is given back. -/
theorem undone_of_bitmapSet (hg : Geometry x) (hi : ino < x.total) (hfi : bitmapGet x ino = false) :
    Undone x (freeBlock (bitmapSet x ino true) ino) := by
  have h₁ := bitmapSet_same x ino true
  have hg₁ := hg.same h₁
  refine ⟨(Frame.bitmapSet hg hi true _).trans (.freeBlock hg₁ _ _), fun b hb => ?_, by simp⟩
  rw [Bool.eq_iff_iff, bitmapGet_freeBlock hg₁ (by rwa [h₁.total]), bitmapGet_bitmapSet hg hi]
  by_cases hbi : b = ino <;> simp [hbi, hfi]

/-- Both blocks are given back. -/
theorem undone_of_withInode (hg : Geometry x) (hlo : x.dataStart ≤ ino) (hi : ino < x.total)
    (hd : data < x.total) (hfi : bitmapGet x ino = false) (hfd : bitmapGet x data = false) :
    Undone x (freeBlock (freeBlock (withInode x ino data inode) data) ino) := by
  have hfr : Frame x (withInode x ino data inode) (fun q => bitmapGet x q = false) := by
    refine (withInode_frame hg hi hd).mono ?_
    rintro q rfl
    exact hfi
  have hg₁ := hg.same hfr.same
  have hf₁ := hfr.trans (.freeBlock hg₁ data _)
  have hg₂ := hg.same hf₁.same
  refine ⟨hf₁.trans (.freeBlock hg₂ _ _), fun b hb => ?_, by simp [withInode_fds]⟩
  rw [Bool.eq_iff_iff, bitmapGet_freeBlock hg₂ (by rwa [hf₁.same.total]),
    bitmapGet_freeBlock hg₁ (by rwa [hfr.same.total]), bitmapGet_withInode hg hi hd hlo hb]
  constructor
  · rintro ⟨⟨hu | hu | hu, h₁⟩, h₂⟩
    · exact hu
    · exact absurd hu h₂
    · exact absurd hu h₁
  · intro hu
    refine ⟨⟨.inl hu, ?_⟩, ?_⟩
    · rintro rfl; rw [hfd] at hu; cases hu
    · rintro rfl; rw [hfi] at hu; cases hu

/-- Both blocks of a creation are free, and not the same. -/
theorem freshData_spec (hg : Geometry x) (ha : allocBlock x = (some ino, bitmapSet x ino true))
    (hi : ino < x.total) :
    (∃ data, allocBlock (bitmapSet x ino true) =
        (some data, bitmapSet (bitmapSet x ino true) data true) ∧ freshData x = some data ∧
        x.dataStart ≤ data ∧ data < x.total ∧ bitmapGet x data = false ∧ ino ≠ data) ∨
      (allocBlock (bitmapSet x ino true) = (none, bitmapSet x ino true) ∧ freshData x = none) := by
  have h₁ := bitmapSet_same x ino true
  rcases allocBlock_spec (bitmapSet x ino true) with ⟨data, ha', hlo, hhi, hfree⟩ | ha'
  · rw [bitmapGet_bitmapSet hg hi] at hfree
    have hne : ino ≠ data := by rintro rfl; simp at hfree
    rw [if_neg (Ne.symm hne)] at hfree
    rw [h₁.dataStart] at hlo
    rw [h₁.total] at hhi
    exact .inl ⟨data, ha', by unfold freshData; rw [ha, ha'], hlo, hhi, hfree, hne⟩
  · exact .inr ⟨ha', by unfold freshData; rw [ha, ha']⟩

/-- **A creation that fails is undone.** -/
theorem createEntry_none (hg : Geometry x) (h : createEntry x path flags = (none, y)) :
    Undone x y := by
  unfold createEntry at h
  cases hp : parentInode x path with
  | none => simp only [hp, Prod.mk.injEq, true_and] at h; rw [← h]; exact .refl x
  | some =>
    simp only [hp] at h
    by_cases hname : baseName path = []
    · simp only [hname, if_true, Prod.mk.injEq, true_and] at h; rw [← h]; exact .refl x
    simp only [hname, if_false] at h
    rcases allocBlock_spec x with ⟨ino, ha, hlo, hhi, hfree⟩ | ha
    swap
    · simp only [ha, Prod.mk.injEq, true_and] at h; rw [← h]; exact .refl x
    simp only [ha] at h
    rcases freshData_spec hg ha hhi with ⟨data, ha', -, -, hdhi, hdfree, -⟩ | ⟨ha', -⟩
    swap
    · simp only [ha', Prod.mk.injEq, true_and] at h
      rw [← h]
      exact undone_of_bitmapSet hg hhi hfree
    simp only [ha'] at h
    split at h
    · simp only [Prod.mk.injEq, true_and] at h
      rw [← h]
      exact undone_of_withInode hg hlo hhi hdhi hfree hdfree
    · simp at h

end Create

/-- `y` is `x` with the new inode `ino` of the given kind, entered in place `(db, d)` of
the parent `p` under the last component of the path. -/
structure Made (x y : Fs) (path : List Byte) (flags p db d ino data : ℕ) : Prop where
  same : SameGlobals x y
  planned : plan x path = some (p, ino, data, db, d)
  create : BlockTree.Create (tree x) (tree y) p db d ino data (flags.testBit 0)
  block : y.read ((tree x).slot p db) =
    setDirent (x.read ((tree x).slot p db)) d (baseName path) ino flags
  inode : SameFields (readInode y ino) (newInode (baseName path) flags data)
  frame : Frame x y fun q => q = ino ∨ q = (tree x).slot p db
  fds : y.fds = x.fds

theorem plan_eq_some (h : plan x path = some (p, ino, data, db, d)) :
    parentInode x path = some p ∧ baseName path ≠ [] ∧ (allocBlock x).1 = some ino ∧
      freshData x = some data ∧
      findDent x (readInode x p) (fun _ s d => entInode s d == 0) = some (db, d) := by
  unfold plan at h
  simp only [Option.bind_eq_some_iff, Option.ite_none_left_eq_some, Option.map_eq_some_iff] at h
  obtain ⟨p', hp, hname, ino', hino, data', hdata, e, he, rfl, rfl, rfl, rfl, rfl⟩ := h
  exact ⟨hp, hname, hino, hdata, he⟩

theorem Made.parent (h : Made x y path flags p db d ino data) : parentInode x path = some p :=
  (plan_eq_some h.planned).1

theorem Made.fresh (h : Made x y path flags p db d ino data) : freshData x = some data :=
  (plan_eq_some h.planned).2.2.2.1

section Made

variable {path : List Byte} {flags p db d ino data : ℕ}

section

variable (h : Made x y path flags p db d ino data) (hs : (tree x).Sound)
include h hs

/-- Of the blocks that held the tree only the one with the new entry has changed. -/
theorem Made.read_held (hq : Meta x q) (hne : q ≠ (tree x).slot p db) : y.read q = x.read q := by
  refine h.frame.read q (hq.range hs).1 ?_
  rintro (rfl | he)
  · have hu : bitmapGet x q = true := hq.used hs
    have hfree : bitmapGet x q = false := (h.create.range q (.inl rfl)).2.2
    rw [hu] at hfree
    cases hfree
  · exact hne he

/-- The data block of the new inode is as it was. -/
theorem Made.read_data : y.read data = x.read data := by
  have hr := h.create.range data (.inr rfl)
  refine h.frame.read data hr.1 ?_
  rintro (he | he)
  · exact h.create.ne he.symm
  · have hu : bitmapGet x data = true := he ▸ hs.slot_used h.create.parent h.create.index
    have hfree : bitmapGet x data = false := hr.2.2
    rw [hu] at hfree
    cases hfree

end

end Made

/-- The write of the entry, after the inode: the tree of the result. -/
theorem made_of_entry (hg : Geometry x) (hs : (tree x).Sound) (hflags : flags < 2)
    (hplan : plan x path = some (p, ino, data, db, d)) (hp : (tree x).Live p)
    (hdir : (tree x).dir p = true) (hdb : db < (tree x).count p) (hd : d < maxDents)
    (hfree : entInode (x.read ((tree x).slot p db)) d = 0)
    (hino : x.dataStart ≤ ino ∧ ino < x.total ∧ bitmapGet x ino = false)
    (hdata : x.dataStart ≤ data ∧ data < x.total ∧ bitmapGet x data = false) (hne : ino ≠ data)
    (hempty : flags.testBit 0 = true → ∀ e, e < maxDents → entInode (x.read data) e = 0) :
    let x₃ := withInode x ino data (newInode (baseName path) flags data)
    let b := (tree x).slot p db
    Made x (x₃.write b (setDirent (x₃.read b) d (baseName path) ino flags)) path flags p db d ino
      data := by
  intro x₃ b
  have hfr : Frame x x₃ (· = ino) := withInode_frame hg hino.2.1 hdata.2.1
  have hg₃ := hg.same hfr.same
  have hb : x.dataStart ≤ b ∧ b < x.total := hs.slot_range hp hdb
  have hbu : bitmapGet x b = true := hs.slot_used hp hdb
  have hbi : b ≠ ino := by intro h; rw [h, hino.2.2] at hbu; cases hbu
  have hbd : b ≠ data := by intro h; rw [h, hdata.2.2] at hbu; cases hbu
  have hbdev : b < x₃.dev.blockCount := by rw [← hg₃.total, hfr.same.total]; exact hb.2
  have hrb : x₃.read b = x.read b := hfr.read b hb.1 hbi
  set y := x₃.write b (setDirent (x₃.read b) d (baseName path) ino flags) with hy
  have hyb : y.read b = setDirent (x.read b) d (baseName path) ino flags := by
    rw [read_write_self hbdev, hrb]
  have hyq : ∀ q, x.dataStart ≤ q → q ≠ ino → q ≠ b → y.read q = x.read q := by
    intro q hq hqi hqb
    rw [read_write_of_ne hqb]
    exact hfr.read q hq hqi
  have hsame : SameGlobals x y := hfr.same.trans (write_same _ _ _)
  -- the new inode
  have hyi : SameFields (readInode y ino) (newInode (baseName path) flags data) := by
    have hri : readInode y ino = readInode x₃ ino :=
      readInode_congr (write_same _ _ _) (read_write_of_ne (Ne.symm hbi))
    rw [hri]
    refine readInode_writeInode ?_ _
    rw [(bitmapSet_same _ _ _).blockCount, (bitmapSet_same _ _ _).blockCount, ← hg.total]
    exact hino.2.1
  have hsmall : ∀ {v : ℕ}, v < x.total → v % 2 ^ 32 = v := fun hv =>
    Nat.mod_eq_of_lt (lt_of_lt_of_le hv hg.small)
  have hlive : ∀ {q}, (tree x).Live q → q ≠ ino ∧ q ≠ b := by
    intro q hq
    refine ⟨?_, fun h => hs.live_ne_slot hq hp hdb h.symm⟩
    rintro rfl
    have hu : bitmapGet x q = true := hs.live_used hq
    rw [hino.2.2] at hu
    cases hu
  have hlo := hg.dataStart_pos
  refine ⟨hsame, hplan, ⟨hsame.shape, hp, hdir, hdb, hd, hfree, ?_, hlo, hne, ?_, ?_, ?_, ?_, ?_,
    ?_, ?_, ?_, ?_⟩, hyb, hyi, ⟨hsame, ?_⟩, ?_⟩
  · rintro c (rfl | rfl)
    · exact hino
    · exact hdata
  · -- the bitmap
    intro c hc
    rw [tree_used, bitmapGet_write hg₃ (by rwa [hfr.same.total])
      (by rw [hfr.same.dataStart]; exact hb.1)]
    exact bitmapGet_withInode hg hino.2.1 hdata.2.1 hino.1 hc
  · intro q hq
    exact sameInode_of_read hsame (hyq q (hs.live_range hq).1 (hlive hq).1 (hlive hq).2)
  · -- the other entries: in another block, or elsewhere in this one
    intro q j e hq hqd hj he hat
    by_cases hsl : (tree x).slot q j = b
    · obtain ⟨rfl, rfl⟩ := hs.slot_inj hq hj hp hdb hsl
      have hed : e ≠ d := fun h => hat ⟨rfl, rfl, h⟩
      refine ⟨?_, ?_⟩
      · rw [tree_ent, tree_ent, hyb, entInode_setDirent_of_ne hed]
      · rw [tree_label, tree_label, hyb, entName_setDirent_of_ne hed]
    · have hu : bitmapGet x ((tree x).slot q j) = true := hs.slot_used hq hj
      have hqi : (tree x).slot q j ≠ ino := by intro h; rw [h, hino.2.2] at hu; cases hu
      exact sameEntry_of_read (hyq _ (hs.slot_range hq hj).1 hqi hsl) e
  · rw [tree_ent, hyb, entInode_setDirent_self, hsmall hino.2.1]
  · rw [tree_dir, hyi.isDir, isDir, inodeFlags_newInode, Nat.mod_eq_of_lt (by omega)]
  · rw [tree_count, hyi.count, blockCount_newInode]
  · rw [tree_slot, hyi.block (Nat.zero_le _), dataBlock_newInode_zero, hsmall hdata.2.1]
  · intro j hj hj'
    obtain ⟨k, rfl⟩ : ∃ k, j = k + 1 := ⟨j - 1, by omega⟩
    rw [tree_slot, hyi.block (le_of_lt hj'), dataBlock_newInode_succ]
  · intro hfl e he
    rw [tree_ent, hyq data hdata.1 (Ne.symm hne) (Ne.symm hbd)]
    exact hempty hfl e he
  · intro q hq hw
    push Not at hw
    exact hyq q hq hw.1 hw.2
  · rw [write_fds]
    exact withInode_fds

/-- **Creation.**  If the parent found for the path is a directory, and the block for a
new directory's entries holds none, a creation changes nothing or enters a new inode. -/
theorem createEntry_spec (hg : Geometry x) (hs : (tree x).Sound) (flags : ℕ) (hflags : flags < 2)
    (hpar : ∀ p, parentInode x path = some p → (tree x).Live p ∧ (tree x).dir p = true)
    (hempty : flags.testBit 0 = true → ∀ b, freshData x = some b → ∀ e, e < maxDents →
      entInode (x.read b) e = 0) :
    (∃ y, createEntry x path flags = (none, y) ∧ Unchanged x y ∧ plan x path = none) ∨
    ∃ y p db d ino data, createEntry x path flags = (some ino, y) ∧
      Made x y path flags p db d ino data := by
  unfold createEntry
  cases hp : parentInode x path with
  | none => exact .inl ⟨x, rfl, .refl hs, by simp [plan, hp]⟩
  | some p =>
    obtain ⟨hlive, hdir⟩ := hpar p hp
    by_cases hname : baseName path = []
    · exact .inl ⟨x, by simp [hname], .refl hs, by simp [plan, hname]⟩
    simp only [hname]
    rcases allocBlock_spec x with ⟨ino, ha, hilo, hihi, hifree⟩ | ha
    swap
    · rw [ha]; exact .inl ⟨x, rfl, .refl hs, by simp [plan, ha]⟩
    simp only [ha]
    rcases freshData_spec hg ha hihi with ⟨data, ha', hfresh, hdlo, hdhi, hdfree, hne⟩ | ⟨ha', hno⟩
    swap
    · simp only [ha']
      exact .inl ⟨_, rfl, (undone_of_bitmapSet hg hihi hifree).unchanged hs, by simp [plan, hno]⟩
    simp only [ha']
    -- the inode is written; the scan for a free place sees the parent as it was
    set inode := newInode (baseName path) flags data with hinode
    have hx₃ : writeInode (bitmapSet (bitmapSet x ino true) data true) ino inode =
        withInode x ino data inode := rfl
    have hfr : Frame x (withInode x ino data inode) (· = ino) := withInode_frame hg hihi hdhi
    have hpi : p ≠ ino := by
      rintro rfl
      have hu : bitmapGet x p = true := hs.live_used hlive
      rw [hifree] at hu
      cases hu
    have hpr : readInode (withInode x ino data inode) p = readInode x p :=
      readInode_congr hfr.same (hfr.read p (hs.live_range hlive).1 hpi)
    have hscan : findDent (withInode x ino data inode) (readInode x p)
        (fun _ s d => entInode s d == 0) =
          findDent x (readInode x p) (fun _ s d => entInode s d == 0) := by
      apply findDent_congr
      intro db d hdb _
      have hbu : bitmapGet x (dataBlock (readInode x p) db) = true := hs.slot_used hlive hdb
      have hbi : dataBlock (readInode x p) db ≠ ino := by
        intro h; rw [h, hifree] at hbu; cases hbu
      rw [hfr.read (dataBlock (readInode x p) db) (hs.slot_range hlive hdb).1 hbi]
    rw [hx₃]
    simp only [addDirent, hpr, hscan]
    cases hfd : findDent x (readInode x p) (fun _ s d => entInode s d == 0) with
    | none =>
      exact .inl ⟨_, rfl, (undone_of_withInode hg hilo hihi hdhi hifree hdfree).unchanged hs,
        by simp [plan, hp, hfd]⟩
    | some e =>
      obtain ⟨hdb, hd, hpick⟩ := findDent_some hfd
      have hplan : plan x path = some (p, ino, data, e.1, e.2) := by
        simp [plan, hp, hname, ha, hfresh, hfd]
      exact .inr ⟨_, p, e.1, e.2, ino, data, rfl,
        made_of_entry hg hs hflags hplan hlive hdir hdb hd (beq_iff_eq.1 hpick)
          ⟨hilo, hihi, hifree⟩ ⟨hdlo, hdhi, hdfree⟩ hne
          fun h e he => hempty h data hfresh e he⟩

/-! ## Unlink -/

theorem walk_range (hi : ino ≠ 0 ∧ ino < 2 ^ 32) (h : walk x ino names = some c) :
    c ≠ 0 ∧ c < 2 ^ 32 := by
  induction names generalizing ino with
  | nil => cases h; exact hi
  | cons name names ih =>
    simp only [walk, lookup, Option.bind_eq_some_iff, Option.map_eq_some_iff] at h
    obtain ⟨next, ⟨e, he, rfl⟩, hw⟩ := h
    obtain ⟨-, -, hpick⟩ := findDent_some he
    simp only [Bool.and_eq_true, bne_iff_ne] at hpick
    exact ih ⟨hpick.1.2, readLE_lt⟩ hw

section

variable (hg : Geometry x) (hs : (tree x).Sound)
include hg hs

/-- A resolved path is the number of a block. -/
theorem resolvePath_range (h : resolvePath x path = some c) : c ≠ 0 ∧ c < 2 ^ 32 := by
  have hroot : x.rootBlock ≠ 0 ∧ x.rootBlock < 2 ^ 32 := by
    have hr : x.dataStart ≤ x.rootBlock ∧ x.rootBlock < x.total := hs.live_range .root
    have hpos := hg.dataStart_pos
    have hsmall := hg.small
    omega
  unfold resolvePath at h
  split at h
  · cases h
  split at h
  · cases h
  split at h
  · cases h
  split at h
  · cases h; exact hroot
  · exact walk_range hroot h

/-- What the search of `xfs_unlink` finds in a directory is the entry of a file. -/
theorem unlinkTarget_spec (h : unlinkTarget x path = some (ino, p, db, d))
    (hdir : (tree x).dir p = true) :
    (tree x).Entry p db d ino ∧ (tree x).dir ino = false ∧ resolvePath x path = some ino ∧
      parentInode x path = some p := by
  unfold unlinkTarget at h
  split at h
  · cases h
  cases hr : resolvePath x path with
  | none => simp [hr] at h
  | some c =>
    simp only [hr] at h
    split at h
    · cases h
    rename_i hfile
    cases hp : parentInode x path with
    | none => simp [hp] at h
    | some =>
      simp only [hp, Option.map_eq_some_iff] at h
      obtain ⟨e, he, rfl, rfl, rfl, rfl⟩ := h
      obtain ⟨hdb, hd, hpick⟩ := findDent_some he
      obtain ⟨hc0, hc⟩ := resolvePath_range hg hs hr
      simp only [Bool.and_eq_true, beq_iff_eq, Nat.mod_eq_of_lt hc] at hpick
      exact ⟨⟨hdir, hdb, hd, hpick.2, hc0⟩, eq_false_of_ne_true hfile, rfl, rfl⟩

/-- **Unlink.**  If the directory in which the entry is found is one, the call changes
nothing or removes the entry and frees the file's blocks. -/
theorem xfsUnlink_spec (hpar : ∀ ino p db d, unlinkTarget x path = some (ino, p, db, d) →
      (tree x).Live p ∧ (tree x).dir p = true) :
    xfsUnlink x path = (-1, x) ∨
    ∃ y p db d ino, xfsUnlink x path = (0, y) ∧ unlinkTarget x path = some (ino, p, db, d) ∧
      SameGlobals x y ∧ y.fds = x.fds ∧ BlockTree.Remove (tree x) (tree y) p db d ino ∧
      Frame x y (· = (tree x).slot p db) ∧
      y.read ((tree x).slot p db) = clearDirent (x.read ((tree x).slot p db)) d := by
  unfold xfsUnlink
  cases ht : unlinkTarget x path with
  | none => exact .inl rfl
  | some r =>
    obtain ⟨ino, p, db, d⟩ := r
    right
    obtain ⟨hp, hdir⟩ := hpar ino p db d ht
    obtain ⟨hent, hfile, -⟩ := unlinkTarget_spec hg hs ht hdir
    have hino : (tree x).Live ino := .child hp hent
    set b := (tree x).slot p db with hb
    have hbr : x.dataStart ≤ b ∧ b < x.total := hs.slot_range hp hent.index
    have hbdev : b < x.dev.blockCount := by rw [← hg.total]; exact hbr.2
    set x₁ := x.write b (clearDirent (x.read b) d) with hx₁
    have hf₁ : Frame x x₁ (· = b) := .write x b _
    have hg₁ := hg.same hf₁.same
    set inode := readInode x ino with hinode
    set x₂ := freeData x₁ inode 0 (blockCount inode) with hx₂
    have hf₂ : Frame x₁ x₂ (· = b) := (freeData_frame hg₁).mono fun _ h => h.elim
    have hg₂ := hg₁.same hf₂.same
    have hf₃ : Frame x₂ (freeBlock x₂ ino) (· = b) := .freeBlock hg₂ _ _
    have hall := (hf₁.trans hf₂).trans hf₃
    have hyb : (freeBlock x₂ ino).read b = clearDirent (x.read b) d := by
      have h₂ : x₂.read b = x₁.read b :=
        (freeData_frame hg₁).read b (by rw [hf₁.same.dataStart]; exact hbr.1) id
      have h₃ : (freeBlock x₂ ino).read b = x₂.read b :=
        (Frame.freeBlock hg₂ ino fun _ => False).read b
          (by rw [hf₂.same.dataStart, hf₁.same.dataStart]; exact hbr.1) id
      rw [h₃, h₂, read_write_self hbdev]
    refine ⟨freeBlock x₂ ino, p, db, d, ino, rfl, rfl, hall.same, ?_, ⟨hall.same.shape, hp, hent,
      hfile, ?_, ?_, ?_, ?_⟩, hall, hyb⟩
    · rw [freeBlock_fds, freeData_fds hg₁, write_fds]
    · -- the bitmap: all blocks of the file lie in the data area, so none is skipped
      intro c hc
      rw [tree_used]
      have hc₁ : c < x₁.total := by rw [hf₁.same.total]; exact hc
      have hc₂ : c < x₂.total := by rw [hf₂.same.total]; exact hc₁
      rw [bitmapGet_freeBlock hg₂ hc₂, bitmapGet_freeData hg₁ hc₁, 
        bitmapGet_write hg hc hbr.1]
      have hnz : ∀ j, j < blockCount inode → dataBlock inode j ≠ 0 := by
        intro j hj
        have hr : x.dataStart ≤ dataBlock inode j ∧ dataBlock inode j < x.total :=
          hs.slot_range hino hj
        have hpos := hg.dataStart_pos
        omega
      constructor
      · rintro ⟨⟨hu, hall⟩, hne⟩
        exact ⟨hu, hne, fun j hj => hall j (Nat.zero_le _) hj (hnz j hj)⟩
      · rintro ⟨hu, hne, hall⟩
        exact ⟨⟨hu, fun j _ hj _ => hall j hj⟩, hne⟩
    · intro q hq
      have hqb : q ≠ b := fun h => hs.live_ne_slot hq hp hent.index h.symm
      exact sameInode_of_read hall.same (hall.read q (hs.live_range hq).1 hqb)
    · intro q j e hq hqd hj he hat
      by_cases hsl : (tree x).slot q j = b
      · obtain ⟨rfl, rfl⟩ := hs.slot_inj hq hj hp hent.index hsl
        have hed : e ≠ d := fun h => hat ⟨rfl, rfl, h⟩
        refine ⟨?_, ?_⟩
        · rw [tree_ent, tree_ent, hyb, entInode_clearDirent_of_ne hed]
        · rw [tree_label, tree_label, hyb, entName_clearDirent_of_ne hed]
      · exact sameEntry_of_read (hall.read _ (hs.slot_range hq hj).1 hsl) e
    · rw [tree_ent, hyb, entInode_clearDirent_self]

end

end Xos.Xfs
