import Xos.Xfs.Edits

/-!
# Write and truncate

The loops of `xfs_write` and `xfs_ftruncate` take blocks from the bitmap and append them
to an inode in memory, and only at the end the inode goes to the disk.

* **loop rules** — what every growth step and every data write keeps holds after the
  loop: `writeLoop_rule`, `extendLoop_rule`;
* **growing** — `Growing`: the state in the middle of such a loop, against the state
  before it;
* **the calls** — `xfsWrite_spec` and `xfsFtruncate_spec`: the file is resized and
  nothing else in the tree changes.
-/

namespace Xos.Xfs

open Xos.Lib

variable {x y : Fs} {inode : Bytes}

/-! ## Loop rules -/

/-- The slots behind the counted ones are empty. -/
structure Tidy (inode : Bytes) : Prop where
  count_le : blockCount inode ≤ maxDirect
  zero : ∀ j, blockCount inode ≤ j → j < maxDirect → dataBlock inode j = 0

section Append

variable {nb j : ℕ}

theorem blockCount_appendBlock (h : blockCount inode < maxDirect) :
    blockCount (appendBlock inode nb) = blockCount inode + 1 := by
  unfold appendBlock
  rw [blockCount_setBlockCount]
  simp only [maxDirect] at h
  omega

theorem dataBlock_appendBlock_self (h : nb < 2 ^ 32) :
    dataBlock (appendBlock inode nb) (blockCount inode) = nb := by
  unfold appendBlock
  rw [dataBlock_setBlockCount, dataBlock_setDataBlock_self, Nat.mod_eq_of_lt h]

theorem dataBlock_appendBlock_of_ne (h : j ≠ blockCount inode) :
    dataBlock (appendBlock inode nb) j = dataBlock inode j := by
  unfold appendBlock
  rw [dataBlock_setBlockCount, dataBlock_setDataBlock_of_ne h]

@[simp] theorem isDir_appendBlock : isDir (appendBlock inode nb) = isDir inode := by
  simp [appendBlock]

@[simp] theorem inodeSize_appendBlock : inodeSize (appendBlock inode nb) = inodeSize inode := by
  simp [appendBlock]

theorem Tidy.append (h : Tidy inode) (hc : blockCount inode < maxDirect) :
    Tidy (appendBlock inode nb) := by
  refine ⟨by rw [blockCount_appendBlock hc]; exact hc, fun j hj hj' => ?_⟩
  rw [blockCount_appendBlock hc] at hj
  rw [dataBlock_appendBlock_of_ne (by omega)]
  exact h.zero j (by omega) hj'

end Append

/-- What a loop keeps: a growth by a free block and a write to a block of the inode. -/
structure Kept (P : Fs → Bytes → Prop) : Prop where
  tidy : ∀ {x inode}, P x inode → Tidy inode
  geometry : ∀ {x inode}, P x inode → Geometry x
  grow : ∀ {x inode nb}, P x inode → blockCount inode < maxDirect → x.dataStart ≤ nb →
    nb < x.total → bitmapGet x nb = false → P (bitmapSet x nb true) (appendBlock inode nb)
  write : ∀ {x inode idx} (buf : Bytes), P x inode → idx < blockCount inode →
    dataBlock inode idx ≠ 0 → P (x.write (dataBlock inode idx) buf) inode

variable {P : Fs → Bytes → Prop} {idx : ℕ} {inode' : Bytes}

theorem growFor_rule (hP : Kept P) (h : P x inode) (hr : growFor x inode idx = some (y, inode')) :
    P y inode' ∧ ((inode' = inode ∧ idx < blockCount inode) ∨
      (blockCount inode ≤ idx ∧ blockCount inode < maxDirect ∧
        blockCount inode' = blockCount inode + 1)) := by
  unfold growFor at hr
  split at hr
  · rename_i hlt
    cases hr
    exact ⟨h, .inl ⟨rfl, hlt⟩⟩
  split at hr
  · cases hr
  have hc : blockCount inode < maxDirect := by omega
  rcases allocBlock_spec x with ⟨b, ha, hlo, hhi, hfree⟩ | ha
  · rw [ha] at hr
    cases hr
    exact ⟨hP.grow h hc hlo hhi hfree, .inr ⟨by omega, hc, blockCount_appendBlock hc⟩⟩
  · rw [ha] at hr
    cases hr

/-- The byte at which the loop of `xfs_write` stands lies in one of the direct blocks, or
the inode is full. -/
def InBounds (offset : ℕ) (inode : Bytes) : Prop :=
  offset % 2 ^ 32 / xfsBlockSize < maxDirect ∨ maxDirect ≤ blockCount inode

/-- A round of the loop of `xfs_write` at the byte `pos`, after the growth: the block that it
writes is one of the inode's, and the next round is in bounds again. -/
theorem InBounds.next (hin : InBounds pos inode) (ht : Tidy inode')
    (hcount : (inode' = inode ∧ pos % 2 ^ 32 / xfsBlockSize < blockCount inode) ∨
      (blockCount inode ≤ pos % 2 ^ 32 / xfsBlockSize ∧ blockCount inode < maxDirect ∧
        blockCount inode' = blockCount inode + 1))
    (hb : dataBlock inode' (pos % 2 ^ 32 / xfsBlockSize) ≠ 0) :
    pos % 2 ^ 32 / xfsBlockSize < blockCount inode' ∧
      ∀ n, n ≤ xfsBlockSize - pos % 2 ^ 32 % xfsBlockSize → InBounds (pos + n) inode' := by
  -- behind the counted blocks there is nothing, so the block is one of them
  have hlt : pos % 2 ^ 32 / xfsBlockSize < blockCount inode' := by
    rcases hcount with ⟨rfl, hlt⟩ | ⟨hge, hlt, hc⟩
    · exact hlt
    by_contra hno
    have hidx : pos % 2 ^ 32 / xfsBlockSize < maxDirect := hin.resolve_right (by omega)
    exact hb (ht.zero _ (by omega) hidx)
  refine ⟨hlt, fun n hn => ?_⟩
  unfold InBounds
  simp only [xfsBlockSize] at *
  omega

/-- One round of the loop of `xfs_write`, at the byte `pos`: after the growth, the block can be
written, and the next round is in bounds again. -/
theorem writeStep_rule (hP : Kept P) (h : P x inode) (hin : InBounds pos inode)
    (hr : growFor x inode (pos % 2 ^ 32 / xfsBlockSize) = some (y, inode'))
    (hb : dataBlock inode' (pos % 2 ^ 32 / xfsBlockSize) ≠ 0) :
    (∀ buf, P (y.write (dataBlock inode' (pos % 2 ^ 32 / xfsBlockSize)) buf) inode') ∧
      ∀ n, n ≤ xfsBlockSize - pos % 2 ^ 32 % xfsBlockSize → InBounds (pos + n) inode' := by
  obtain ⟨hy, hcount⟩ := growFor_rule hP h hr
  obtain ⟨hlt, hnext⟩ := hin.next (hP.tidy hy) hcount hb
  exact ⟨fun buf => hP.write buf hy hlt hb, hnext⟩

/-- **The loop of `xfs_write`** keeps what its steps keep. -/
theorem writeLoop_rule (hP : Kept P) (offset : ℕ) (data : List Byte) (fuel : ℕ) :
    ∀ {x : Fs} {inode : Bytes} {done : ℕ}, P x inode → InBounds (offset + done) inode →
      P (writeLoop offset data fuel x inode done).1
        (writeLoop offset data fuel x inode done).2.1 := by
  induction fuel with
  | zero => intro x inode done h _; exact h
  | succ fuel ih =>
    intro x inode done h hin
    unfold writeLoop
    split
    · exact h
    simp only
    cases hg : growFor x inode ((offset + done) % 2 ^ 32 / xfsBlockSize) with
    | none => exact h
    | some r =>
      simp only
      split
      · exact (growFor_rule hP h hg).1
      rename_i hb
      obtain ⟨hwrite, hnext⟩ := writeStep_rule hP h hin hg hb
      refine ih (hwrite _) ?_
      rw [← Nat.add_assoc]
      exact hnext _ (min_le_left _ _)

/-- One round of the growth loop of `xfs_ftruncate`: a block is appended and zeroed. -/
theorem extendStep_rule (hP : Kept P) (h : P x inode) (hc : blockCount inode < maxDirect)
    (hlo : x.dataStart ≤ nb) (hhi : nb < x.total) (hfree : bitmapGet x nb = false) :
    P ((bitmapSet x nb true).write nb fun _ => 0#8) (appendBlock inode nb) := by
  have hcount : blockCount (appendBlock inode nb) = blockCount inode + 1 :=
    blockCount_appendBlock hc
  have hself : dataBlock (appendBlock inode nb) (blockCount inode) = nb :=
    dataBlock_appendBlock_self (lt_of_lt_of_le hhi (hP.geometry h).small)
  have hpos := (hP.geometry h).dataStart_pos
  have hidx : blockCount inode < blockCount (appendBlock inode nb) := by omega
  have hw := hP.write (fun _ => 0#8) (hP.grow h hc hlo hhi hfree) hidx (by rw [hself]; omega)
  rw [hself] at hw
  exact hw

/-- **The growth loop of `xfs_ftruncate`** keeps what its steps keep. -/
theorem extendLoop_rule (hP : Kept P) (needed fuel : ℕ) : ∀ {x : Fs} {inode : Bytes}, P x inode →
      P (extendLoop needed fuel x inode (blockCount inode)).1
        (extendLoop needed fuel x inode (blockCount inode)).2 := by
  induction fuel with
  | zero => intro x inode h; exact h
  | succ fuel ih =>
    intro x inode h
    unfold extendLoop
    split
    · rename_i hlt
      rcases allocBlock_spec x with ⟨nb, ha, hlo, hhi, hfree⟩ | ha
      · rw [ha]
        have hcount : blockCount (appendBlock inode nb) = blockCount inode + 1 :=
          blockCount_appendBlock hlt.2
        have hrest := ih (extendStep_rule hP h hlt.2 hlo hhi hfree)
        rw [hcount] at hrest
        exact hrest
      · rw [ha]; exact h
    · exact h

/-! ## Growing -/

/-- In the middle of a growth of the file `f`: `z` and `inode` against the state `x` before
it.  The new blocks were free, and only they were taken. -/
structure Growing (x : Fs) (f : ℕ) (z : Fs) (inode : Bytes) : Prop where
  frame : Frame x z fun q => ¬ Meta x q
  fds : z.fds = x.fds
  tidy : Tidy inode
  dir : isDir inode = isDir (readInode x f)
  count : blockCount (readInode x f) ≤ blockCount inode
  old : ∀ j, j < blockCount (readInode x f) → dataBlock inode j = dataBlock (readInode x f) j
  new : ∀ j, blockCount (readInode x f) ≤ j → j < blockCount inode →
    x.dataStart ≤ dataBlock inode j ∧ dataBlock inode j < x.total ∧
      bitmapGet x (dataBlock inode j) = false
  inj : ∀ j k, blockCount (readInode x f) ≤ j → j < k → k < blockCount inode →
    dataBlock inode j ≠ dataBlock inode k
  used : ∀ b, b < x.total → (bitmapGet z b = true ↔ bitmapGet x b = true ∨
    ∃ j, blockCount (readInode x f) ≤ j ∧ j < blockCount inode ∧ dataBlock inode j = b)

section Growing

variable {f : ℕ} {z : Fs}

theorem Growing.start (hs : (tree x).Sound) (hf : (tree x).Live f) :
    Growing x f x (readInode x f) where
  frame := .refl x _
  fds := rfl
  tidy := ⟨hs.count_le hf, fun _ hj hj' => hs.zero hf hj hj'⟩
  dir := rfl
  count := le_rfl
  old _ _ := rfl
  new j hj hj' := absurd hj' (by omega)
  inj j k hj hjk hk := absurd hk (by omega)
  used b _ := by
    constructor
    · exact .inl
    · rintro (hu | ⟨j, hj, hj', -⟩)
      · exact hu
      · exact absurd hj' (by omega)

section

variable (h : Growing x f z inode)
include h

/-- A block of the growing inode is a data block of the file, old or new. -/
theorem Growing.block_spec (hs : (tree x).Sound) (hf : (tree x).Live f)
    (hfile : (tree x).dir f = false) (hidx : idx < blockCount inode) :
    x.dataStart ≤ dataBlock inode idx ∧ dataBlock inode idx < x.total ∧
      ¬ Meta x (dataBlock inode idx) := by
  by_cases hold : idx < blockCount (readInode x f)
  · rw [h.old idx hold]
    have hr := hs.slot_range hf hold
    exact ⟨hr.1, hr.2, not_meta_of_file hs hf hfile hold⟩
  obtain ⟨hlo, hhi, hfree⟩ := h.new idx (by omega) hidx
  refine ⟨hlo, hhi, fun hm => ?_⟩
  rw [hm.used hs] at hfree
  cases hfree

/-- No block is there twice: two old slots, a new one and an old one, or two new ones. -/
theorem Growing.block_inj (hs : (tree x).Sound) (hf : (tree x).Live f) (hj : j < blockCount inode)
    (hk : k < blockCount inode) (he : dataBlock inode j = dataBlock inode k) : j = k := by
  have hlt : ∀ j k, j < k → k < blockCount inode → dataBlock inode j ≠ dataBlock inode k := by
    intro j k hjk hk he
    by_cases hj : blockCount (readInode x f) ≤ j
    · exact h.inj j k hj hjk hk he
    by_cases hk' : blockCount (readInode x f) ≤ k
    · have hu : bitmapGet x ((tree x).slot f j) = true := hs.slot_used hf (not_le.1 hj)
      rw [tree_slot, ← h.old j (by omega), he, (h.new k hk' hk).2.2] at hu
      cases hu
    rw [h.old j (by omega), h.old k (by omega)] at he
    have := (hs.slot_inj hf (not_le.1 hj) hf (not_le.1 hk') he).2
    omega
  rcases lt_trichotomy j k with hjk | hjk | hjk
  · exact absurd he (hlt j k hjk hk)
  · exact hjk
  · exact absurd he.symm (hlt k j hjk hj)

theorem Growing.grow (hg : Geometry x) (hc : blockCount inode < maxDirect) (hlo : z.dataStart ≤ nb)
    (hhi : nb < z.total) (hfree : bitmapGet z nb = false) :
    Growing x f (bitmapSet z nb true) (appendBlock inode nb) := by
  have hgz := hg.same h.frame.same
  rw [h.frame.same.dataStart] at hlo
  rw [h.frame.same.total] at hhi
  have hnb : nb < 2 ^ 32 := lt_of_lt_of_le hhi hg.small
  have hcount : blockCount (appendBlock inode nb) = blockCount inode + 1 :=
    blockCount_appendBlock hc
  have hself : dataBlock (appendBlock inode nb) (blockCount inode) = nb :=
    dataBlock_appendBlock_self hnb
  have hne : ∀ {j}, j < blockCount inode → dataBlock (appendBlock inode nb) j = dataBlock inode j :=
    fun hj => dataBlock_appendBlock_of_ne (by omega)
  -- the block was free all along, and is none of the earlier ones
  have hnew : ¬ (bitmapGet x nb = true ∨ ∃ j, blockCount (readInode x f) ≤ j ∧
      j < blockCount inode ∧ dataBlock inode j = nb) := by
    intro hu
    rw [(h.used nb hhi).2 hu] at hfree
    cases hfree
  push Not at hnew
  have hfreeX : bitmapGet x nb = false := by simpa using hnew.1
  refine ⟨h.frame.trans (.bitmapSet hgz (by rw [h.frame.same.total]; exact hhi) true _), ?_,
    h.tidy.append hc, ?_, ?_, ?_, ?_, ?_, ?_⟩
  · rw [bitmapSet_fds]; exact h.fds
  · rw [isDir_appendBlock]; exact h.dir
  · have := h.count; omega
  · intro j hj
    have := h.count
    rw [hne (by omega)]; exact h.old j hj
  · intro j hj hj'
    by_cases hjc : j = blockCount inode
    · rw [hjc, hself]; exact ⟨hlo, hhi, hfreeX⟩
    · rw [hne (by omega)]; exact h.new j hj (by omega)
  · intro j k hj hjk hk
    rw [hne (by omega)]
    by_cases hkc : k = blockCount inode
    · rw [hkc, hself]; exact hnew.2 j hj (by omega)
    · rw [hne (by omega)]; exact h.inj j k hj hjk (by omega)
  · intro b hb
    rw [bitmapGet_bitmapSet hgz (by rw [h.frame.same.total]; exact hhi)]
    by_cases hbn : b = nb
    · rw [if_pos hbn]
      exact iff_of_true rfl (.inr ⟨blockCount inode, h.count, by omega, by rw [hself, hbn]⟩)
    rw [if_neg hbn, h.used b hb]
    refine or_congr_right ⟨?_, ?_⟩
    · rintro ⟨j, hj, hj', hjb⟩
      exact ⟨j, hj, by omega, by rw [hne hj']; exact hjb⟩
    · rintro ⟨j, hj, hj', hjb⟩
      have hjc : j ≠ blockCount inode := by
        rintro rfl
        exact hbn (hjb.symm.trans hself)
      rw [hne (by omega)] at hjb
      exact ⟨j, hj, by omega, hjb⟩

theorem Growing.write (hg : Geometry x) (hs : (tree x).Sound)
    (hf : (tree x).Live f) (hfile : (tree x).dir f = false) (buf : Bytes)
    (hidx : idx < blockCount inode) : Growing x f (z.write (dataBlock inode idx) buf) inode := by
  obtain ⟨hlo, hhi, hmeta⟩ := h.block_spec hs hf hfile hidx
  refine ⟨h.frame.trans ((Frame.write z _ buf).mono ?_), ?_, h.tidy, h.dir, h.count, h.old, h.new,
    h.inj, fun b hb => ?_⟩
  · rintro q rfl; exact hmeta
  · rw [write_fds]; exact h.fds
  · rw [bitmapGet_write (hg.same h.frame.same) (by rw [h.frame.same.total]; exact hb)
      (by rw [h.frame.same.dataStart]; exact hlo)]
    exact h.used b hb

end

/-- Growing is kept by the loops. -/
theorem growing_kept (hg : Geometry x) (hs : (tree x).Sound) (hf : (tree x).Live f)
    (hfile : (tree x).dir f = false) : Kept (Growing x f) where
  tidy h := h.tidy
  geometry h := hg.same h.frame.same
  grow h hc hlo hhi hfree := h.grow hg hc hlo hhi hfree
  write buf h hidx _ := h.write hg hs hf hfile buf hidx

/-- The end of a growth: the inode goes to the disk. -/
theorem Growing.resize (h : Growing x f z inode) (hg : Geometry x) (hs : (tree x).Sound)
    (hf : (tree x).Live f) (hfile : (tree x).dir f = false) (hdir : isDir inode' = isDir inode)
    (hcount : blockCount inode' = blockCount inode)
    (hblock : ∀ j, dataBlock inode' j = dataBlock inode j) :
    BlockTree.Resize (tree x) (tree (writeInode z f inode')) f := by
  have hfr := hs.live_range hf
  have hgz := hg.same h.frame.same
  have hdev : f < z.dev.blockCount := by
    rw [← hgz.total, h.frame.same.total]; exact hfr.2
  have hsame : SameGlobals x (writeInode z f inode') := h.frame.same.trans (writeInode_same _ _ _)
  have hfields : SameFields (readInode (writeInode z f inode') f) inode' :=
    readInode_writeInode hdev _
  have hread : ∀ {q}, Meta x q → q ≠ f → (writeInode z f inode').read q = x.read q := by
    intro q hm hq
    rw [writeInode, read_write_of_ne hq]
    exact h.frame.read q (hm.range hs).1 (not_not.2 hm)
  have hcnt : (tree (writeInode z f inode')).count f = blockCount inode := by
    rw [tree_count, hfields.count, hcount]
  have hslot : ∀ j, j < maxDirect →
      (tree (writeInode z f inode')).slot f j = dataBlock inode j := by
    intro j hj
    rw [tree_slot, hfields.block (le_of_lt hj), hblock]
  have hle := h.tidy.count_le
  refine ⟨hsame.shape, hf, hfile, ?_, ?_, ?_, ?_, ?_, ?_, ?_, ?_⟩
  · intro q hq hqf
    exact sameInode_of_read hsame (hread (.inl hq) hqf)
  · intro q j e hq hqd hj _
    have hne : (tree x).slot q j ≠ f := hs.live_ne_slot hf hq hj
    exact sameEntry_of_read (hread (.inr ⟨q, j, hq, hqd, hj, rfl⟩) hne) e
  · rw [tree_dir, hfields.isDir, hdir, h.dir]; exact hfile
  · rw [hcnt]; exact hle
  · intro j hj hj'
    rw [hcnt] at hj
    rw [hslot j hj']
    exact h.tidy.zero j hj hj'
  · intro j hj
    rw [hcnt] at hj
    rw [hslot j (lt_of_lt_of_le hj hle)]
    by_cases hold : j < blockCount (readInode x f)
    · exact .inl ⟨hold, h.old j hold⟩
    · exact .inr (h.new j (by omega) hj)
  · intro j k hj hk he
    rw [hcnt] at hj hk
    rw [hslot j (lt_of_lt_of_le hj hle), hslot k (lt_of_lt_of_le hk hle)] at he
    exact h.block_inj hs hf hj hk he
  · intro b hb
    have hb' : bitmapGet (writeInode z f inode') b = bitmapGet z b :=
      bitmapGet_write hgz (by rw [h.frame.same.total]; exact hb)
        (by rw [h.frame.same.dataStart]; exact hfr.1)
    rw [tree_used, hb', h.used b hb, hcnt]
    constructor
    · rintro (hu | ⟨j, hj, hj', hjb⟩)
      · by_cases hown : ∃ j, j < blockCount (readInode x f) ∧ dataBlock (readInode x f) j = b
        · obtain ⟨j, hj, hjb⟩ := hown
          have := h.count
          exact .inr ⟨j, by omega, by rw [hslot j (by omega), h.old j hj]; exact hjb⟩
        · push Not at hown
          exact .inl ⟨hu, hown⟩
      · exact .inr ⟨j, hj', by rw [hslot j (by omega)]; exact hjb⟩
    · rintro (⟨hu, -⟩ | ⟨j, hj, hjb⟩)
      · exact .inl hu
      · rw [hslot j (by omega)] at hjb
        by_cases hold : j < blockCount (readInode x f)
        · rw [h.old j hold] at hjb
          left
          rw [← hjb]
          exact hs.slot_used hf hold
        · exact .inr ⟨j, by omega, hj, hjb⟩

/-- The end of a growth leaves the rest of the tree's blocks alone. -/
theorem Growing.read_held (h : Growing x f z inode) (hs : (tree x).Sound) (hq : Meta x q)
    (hqf : q ≠ f) :
    (writeInode z f inode').read q = x.read q := by
  rw [writeInode, read_write_of_ne hqf]
  exact h.frame.read q (hq.range hs).1 (not_not.2 hq)

theorem Growing.inode_fields (h : Growing x f z inode) (hg : Geometry x) (hs : (tree x).Sound)
    (hf : (tree x).Live f) (inode' : Bytes) :
    SameFields (readInode (writeInode z f inode') f) inode' := by
  refine readInode_writeInode ?_ _
  rw [← (hg.same h.frame.same).total, h.frame.same.total]
  exact (hs.live_range hf).2

/-! ## The calls -/

/-- The inode that `xfs_write` stores after its loop. -/
def writtenInode (offset : ℕ) (r : Bytes × ℕ) : Bytes :=
  if inodeSize r.1 < (offset + r.2) % 2 ^ 32 then setSize r.1 ((offset + r.2) % 2 ^ 32) else r.1

/-- What `xfs_write` comes to when it gets to its loop. -/
theorem xfsWrite_eq (hfd : fdOf x pid fd = some i) (hdata : data ≠ [])
    (hflags : ((x.fds i).flags.testBit 0 || (x.fds i).flags.testBit 1) = true) :
    let r := writeLoop (x.fds i).offset data data.length x (readInode x (x.fds i).inodeBlock) 0
    xfsWrite x pid fd data = (toInt r.2.2,
      (writeInode r.1 (x.fds i).inodeBlock (writtenInode (x.fds i).offset r.2)).setFd i
        { x.fds i with offset := ((x.fds i).offset + r.2.2) % 2 ^ 32 }) := by
  intro r
  rw [← writeInode_setFd]
  simp only [xfsWrite, hfd, hdata, hflags, Bool.not_true]
  rfl

/-- **Write.**  A write through a descriptor of a live file, at an offset in the direct
blocks, resizes the file and leaves the rest of the tree alone. -/
theorem xfsWrite_spec (hg : Geometry x) (hs : (tree x).Sound) (hfd : fdOf x pid fd = some i)
    (hdata : data ≠ []) (hflags : ((x.fds i).flags.testBit 0 || (x.fds i).flags.testBit 1) = true)
    (hf : (tree x).Live (x.fds i).inodeBlock) (hfile : (tree x).dir (x.fds i).inodeBlock = false)
    (hin : InBounds (x.fds i).offset (readInode x (x.fds i).inodeBlock)) :
    let r := writeLoop (x.fds i).offset data data.length x (readInode x (x.fds i).inodeBlock) 0
    ∃ y, xfsWrite x pid fd data = (toInt r.2.2, y) ∧ SameGlobals x y ∧
      y.fds = Function.update x.fds i
        { x.fds i with offset := ((x.fds i).offset + r.2.2) % 2 ^ 32 } ∧
      BlockTree.Resize (tree x) (tree y) (x.fds i).inodeBlock ∧
      SameFields (readInode y (x.fds i).inodeBlock) (writtenInode (x.fds i).offset r.2) ∧
      ∀ q, Meta x q → q ≠ (x.fds i).inodeBlock → y.read q = x.read q := by
  intro r
  set f := (x.fds i).inodeBlock with hfi
  have hgrow : Growing x f r.1 r.2.1 :=
    writeLoop_rule (growing_kept hg hs hf hfile) _ data data.length (.start hs hf) hin
  set off := ((x.fds i).offset + r.2.2) % 2 ^ 32 with hoff
  set inode' := writtenInode (x.fds i).offset r.2 with hinode'
  have hcall : xfsWrite x pid fd data =
      (toInt r.2.2, (writeInode r.1 f inode').setFd i { x.fds i with offset := off }) :=
    xfsWrite_eq hfd hdata hflags
  have hres : BlockTree.Resize (tree x) (tree (writeInode r.1 f inode')) f := by
    apply hgrow.resize hg hs hf hfile
    · rw [hinode', writtenInode]; split <;> simp
    · rw [hinode', writtenInode]; split <;> simp
    · intro j; rw [hinode', writtenInode]; split <;> simp
  refine ⟨_, hcall, ?_, ?_, ?_, ?_, ?_⟩
  · exact (hgrow.frame.same.trans (writeInode_same _ _ _)).trans (setFd_same _ _ _)
  · rw [setFd_fds, writeInode_fds, hgrow.fds]
  · rw [tree_setFd]; exact hres
  · exact hgrow.inode_fields hg hs hf inode'
  · exact fun q hq hqf => hgrow.read_held hs hq hqf

theorem foldl_drop_spec (ks : List ℕ) (inode : Bytes) :
    let inode' := ks.foldl (fun inode k => setDataBlock inode k 0) inode
    isDir inode' = isDir inode ∧
      ∀ j, dataBlock inode' j = if j ∈ ks then 0 else dataBlock inode j := by
  induction ks generalizing inode with
  | nil => exact ⟨rfl, fun j => by simp⟩
  | cons k ks ih =>
    obtain ⟨h₁, h₂⟩ := ih (setDataBlock inode k 0)
    refine ⟨by rw [List.foldl_cons, h₁, isDir_setDataBlock], fun j => ?_⟩
    rw [List.foldl_cons, h₂ j]
    by_cases hj : j ∈ ks
    · simp [hj]
    by_cases hjk : j = k
    · subst hjk; simp [dataBlock_setDataBlock_self]
    · simp [hjk, dataBlock_setDataBlock_of_ne hjk]

theorem dataBlock_dropBlocks (inode : Bytes) (i k j : ℕ) :
    dataBlock (dropBlocks inode i k) j = if i ≤ j ∧ j < k then 0 else dataBlock inode j := by
  unfold dropBlocks
  rw [(foldl_drop_spec _ inode).2 j]
  simp only [List.mem_range'_1]
  by_cases h : i ≤ j ∧ j < k
  · rw [if_pos ⟨h.1, by omega⟩, if_pos h]
  · rw [if_neg (by omega), if_neg h]

theorem isDir_dropBlocks (inode : Bytes) (i k : ℕ) : isDir (dropBlocks inode i k) = isDir inode :=
  (foldl_drop_spec _ inode).1

/-- A shrink of a file to at most the blocks it has. -/
theorem resize_of_shrink (hg : Geometry x) (hs : (tree x).Sound) (hf : (tree x).Live f)
    (hfile : (tree x).dir f = false) (size : ℕ) (hneed : needed ≤ blockCount (readInode x f)) :
    let inode := readInode x f
    let shrunk := setBlockCount (dropBlocks inode needed (blockCount inode)) needed
    BlockTree.Resize (tree x)
      (tree (writeInode (freeData x inode needed (blockCount inode)) f (setSize shrunk size)))
      f := by
  intro inode shrunk
  have hneed : needed ≤ blockCount inode := hneed
  have hcx : (tree x).count f = blockCount inode := rfl
  set z := freeData x inode needed (blockCount inode) with hz
  have hfrz : Frame x z (fun _ => False) := freeData_frame hg
  have hgz := hg.same hfrz.same
  have hfr := hs.live_range hf
  have hdev : f < z.dev.blockCount := by rw [← hgz.total, hfrz.same.total]; exact hfr.2
  set y := writeInode z f (setSize shrunk size) with hy
  have hsame : SameGlobals x y := hfrz.same.trans (writeInode_same _ _ _)
  have hfields : SameFields (readInode y f) (setSize shrunk size) := readInode_writeInode hdev _
  have hread : ∀ {q}, x.dataStart ≤ q → q ≠ f → y.read q = x.read q := by
    intro q hq hqf
    rw [hy, writeInode, read_write_of_ne hqf]
    exact hfrz.read q hq id
  have hle : blockCount inode ≤ maxDirect := hs.count_le hf
  have hcnt : (tree y).count f = needed := by
    rw [tree_count, hfields.count, blockCount_setSize, blockCount_setBlockCount]
    simp only [maxDirect] at hle
    omega
  have hslot : ∀ j, j < maxDirect → (tree y).slot f j =
      if needed ≤ j ∧ j < blockCount inode then 0 else dataBlock inode j := by
    intro j hj
    rw [tree_slot, hfields.block (le_of_lt hj), dataBlock_setSize, dataBlock_setBlockCount,
      dataBlock_dropBlocks]
  have hkeep : ∀ j, j < needed → (tree y).slot f j = (tree x).slot f j := by
    intro j hj
    rw [hslot j (by omega), if_neg (by omega)]
    rfl
  refine ⟨hsame.shape, hf, hfile, ?_, ?_, ?_, ?_, ?_, ?_, ?_, ?_⟩
  · intro q hq hqf
    exact sameInode_of_read hsame (hread (hs.live_range hq).1 hqf)
  · intro q j e hq _ hj _
    exact sameEntry_of_read (hread (hs.slot_range hq hj).1 (hs.live_ne_slot hf hq hj)) e
  · rw [tree_dir, hfields.isDir, isDir_setSize, isDir_setBlockCount, isDir_dropBlocks]
    exact hfile
  · rw [hcnt]; exact hneed.trans hle
  · intro j hj hj'
    rw [hslot j hj']
    split
    · rfl
    · exact hs.zero hf (by rw [hcx]; omega) hj'
  · intro j hj
    rw [hcnt] at hj
    exact .inl ⟨by rw [hcx]; omega, hkeep j hj⟩
  · intro j k hj hk he
    rw [hcnt] at hj hk
    rw [hkeep j hj, hkeep k hk] at he
    exact (hs.slot_inj hf (by rw [hcx]; omega) hf (by rw [hcx]; omega) he).2
  · -- freed are exactly the slots from `needed` on
    intro b hb
    have hb' : bitmapGet y b = bitmapGet z b :=
      bitmapGet_write hgz (by rw [hfrz.same.total]; exact hb)
        (by rw [hfrz.same.dataStart]; exact hfr.1)
    have hnz : ∀ j, j < blockCount inode → dataBlock inode j ≠ 0 := by
      intro j hj
      have hr : x.dataStart ≤ dataBlock inode j ∧ dataBlock inode j < x.total := hs.slot_range hf hj
      have hpos := hg.dataStart_pos
      omega
    rw [tree_used, hb', bitmapGet_freeData hg hb, hcnt]
    constructor
    · rintro ⟨hu, hall⟩
      by_cases hown : ∃ j, j < needed ∧ (tree x).slot f j = b
      · obtain ⟨j, hj, hjb⟩ := hown
        exact .inr ⟨j, hj, by rw [hkeep j hj]; exact hjb⟩
      push Not at hown
      refine .inl ⟨hu, fun j hj => ?_⟩
      by_cases hjn : j < needed
      · exact hown j hjn
      · exact hall j (by omega) hj (hnz j hj)
    · rintro (⟨hu, hall⟩ | ⟨j, hj, hjb⟩)
      · exact ⟨hu, fun j _ hj _ => hall j hj⟩
      · rw [hkeep j hj] at hjb
        have hjc : j < (tree x).count f := by rw [hcx]; omega
        refine ⟨by rw [← hjb]; exact hs.slot_used hf hjc, fun k hk hk' _ he => ?_⟩
        have := (hs.slot_inj hf hjc hf (by rw [hcx]; exact hk') (hjb.trans he.symm)).2
        omega

/-- The inode that `xfs_ftruncate` stores. -/
def truncatedInode (x : Fs) (inode : Bytes) (size : ℕ) : Bytes :=
  if size ≤ inodeSize inode then
    setSize (setBlockCount (dropBlocks inode (neededBlocks size) (blockCount inode))
      (neededBlocks size)) size
  else
    setSize (extendLoop (neededBlocks size) (neededBlocks size - blockCount inode) x inode
      (blockCount inode)).2 size

/-- **Truncate.**  Through a descriptor of a live file, to a size that needs no more blocks
than the file has if it is a smaller size, the file is resized and the rest of the tree is
left alone. -/
theorem xfsFtruncate_spec (hg : Geometry x) (hs : (tree x).Sound) (hfd : fdOf x pid fd = some i)
    (hsize : 0 ≤ size) (hf : (tree x).Live (x.fds i).inodeBlock)
    (hfile : (tree x).dir (x.fds i).inodeBlock = false)
    (hneed : size.toNat % 2 ^ 32 ≤ inodeSize (readInode x (x.fds i).inodeBlock) →
      neededBlocks (size.toNat % 2 ^ 32) ≤ blockCount (readInode x (x.fds i).inodeBlock)) :
    ∃ y, xfsFtruncate x pid fd size = (0, y) ∧ SameGlobals x y ∧ y.fds = x.fds ∧
      BlockTree.Resize (tree x) (tree y) (x.fds i).inodeBlock ∧
      SameFields (readInode y (x.fds i).inodeBlock)
        (truncatedInode x (readInode x (x.fds i).inodeBlock) (size.toNat % 2 ^ 32)) ∧
      ∀ q, Meta x q → q ≠ (x.fds i).inodeBlock → y.read q = x.read q := by
  set f := (x.fds i).inodeBlock with hfi
  set n := size.toNat % 2 ^ 32 with hn
  set inode := readInode x f with hinode
  have hneg : ¬ size < 0 := by omega
  by_cases hshrink : n ≤ inodeSize inode
  · have hinode' : truncatedInode x inode n = setSize
        (setBlockCount (dropBlocks inode (neededBlocks n) (blockCount inode)) (neededBlocks n)) n :=
      if_pos hshrink
    refine ⟨_, ?_, ?_, ?_, resize_of_shrink hg hs hf hfile n (hneed hshrink), ?_,
      fun q hq hqf => ?_⟩
    · simp only [xfsFtruncate, hfd, hneg, if_false, ← hfi, ← hinode, ← hn, if_pos hshrink]
    · exact (freeData_frame hg).same.trans (writeInode_same _ _ _)
    · rw [writeInode_fds, freeData_fds hg]
    · rw [hinode']
      refine readInode_writeInode ?_ _
      rw [(freeData_frame hg).same.blockCount, ← hg.total]
      exact (hs.live_range hf).2
    · rw [writeInode, read_write_of_ne hqf]
      exact (freeData_frame hg).read q (hq.range hs).1 id
  set r := extendLoop (neededBlocks n) (neededBlocks n - blockCount inode) x inode
    (blockCount inode) with hr
  have hgrow : Growing x f r.1 r.2 :=
    extendLoop_rule (growing_kept hg hs hf hfile) _ _ (.start hs hf)
  have hinode' : truncatedInode x inode n = setSize r.2 n := if_neg hshrink
  refine ⟨writeInode r.1 f (setSize r.2 n), ?_, ?_, ?_, ?_, ?_, fun q hq hqf => ?_⟩
  · simp only [xfsFtruncate, hfd, hneg, if_false, ← hfi, ← hinode, ← hn, if_neg hshrink, ← hr]
  · exact hgrow.frame.same.trans (writeInode_same _ _ _)
  · rw [writeInode_fds]; exact hgrow.fds
  · apply hgrow.resize hg hs hf hfile
    · simp
    · simp
    · intro j; simp
  · rw [hinode']; exact hgrow.inode_fields hg hs hf _
  · exact hgrow.read_held hs hq hqf

end Growing

end Xos.Xfs
