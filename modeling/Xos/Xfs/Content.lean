import Xos.Lib.Splice
import Xos.Xfs.Resize

/-!
# The bytes of a file

The content of a file is the list of its `size` bytes, each found in the block of its index.

* **reading** — `readLoop_spec`: the loop of `xfs_read` returns the bytes at the offset;
* **writing** — `writeLoop_bytes`: the loop of `xfs_write` stores the first bytes of the buffer
  at the offset and leaves the file's other bytes alone, and it stops early only if all direct
  blocks are taken or no block is free;
* **apart** — `writeLoop_others`: no other block of the data area is written.
-/

namespace Xos.Xfs

open Xos.Lib

variable {x y z : Fs} {inode : Bytes} {f offset : ℕ} {data : List Byte} {done : ℕ}

/-- The byte at position `k` of the blocks of an inode. -/
def byteAt (x : Fs) (inode : Bytes) (k : ℕ) : Byte :=
  x.read (dataBlock inode (k / xfsBlockSize)) (k % xfsBlockSize)

/-- The bytes of the file with the inode `ino`. -/
def content (x : Fs) (ino : ℕ) : List Byte :=
  (List.range (inodeSize (readInode x ino))).map (byteAt x (readInode x ino))

theorem length_content (x : Fs) (ino : ℕ) :
    (content x ino).length = inodeSize (readInode x ino) := by
  simp [content]

theorem getElem?_content (h : k < inodeSize (readInode x ino)) :
    (content x ino)[k]? = some (byteAt x (readInode x ino) k) := by
  simp [content, h]

theorem content_congr (hinode : SameFields (readInode y ino) (readInode x ino))
    (hcount : blockCount (readInode x ino) ≤ maxDirect)
    (hsize : inodeSize (readInode x ino) ≤ xfsBlockSize * blockCount (readInode x ino))
    (hread : ∀ j, j < blockCount (readInode x ino) →
      y.read (dataBlock (readInode x ino) j) = x.read (dataBlock (readInode x ino) j)) :
    content y ino = content x ino := by
  unfold content
  rw [hinode.size]
  refine List.map_congr_left fun k hk => ?_
  rw [List.mem_range] at hk
  have hidx : k / xfsBlockSize < blockCount (readInode x ino) := by
    rw [Nat.div_lt_iff_lt_mul (by decide), Nat.mul_comm]
    omega
  unfold byteAt
  rw [hinode.block (by omega), hread _ hidx]

/-! ## Reading -/

/-- **The loop of `xfs_read`.**  If the blocks of the inode reach to the end of the request,
the loop returns its bytes. -/
theorem readLoop_spec {count : ℕ} (hreach : offset + count ≤ xfsBlockSize * blockCount inode)
    (hcount : blockCount inode ≤ maxDirect)
    (hblock : ∀ j, j < blockCount inode → dataBlock inode j ≠ 0) (fuel : ℕ) (acc : List Byte)
    (hfuel : count ≤ acc.length + fuel) (hacc : acc.length ≤ count)
    (hbytes : ∀ k, k < acc.length → acc[k]? = some (byteAt x inode (offset + k))) :
    (readLoop x inode offset count fuel acc).length = count ∧ ∀ k, k < count →
        (readLoop x inode offset count fuel acc)[k]? = some (byteAt x inode (offset + k)) := by
  induction fuel generalizing acc with
  | zero =>
    have hlen : acc.length = count := by omega
    exact ⟨hlen, fun k hk => hbytes k (by omega)⟩
  | succ fuel ih =>
    unfold readLoop
    by_cases hdone : count ≤ acc.length
    · have hlen : acc.length = count := by omega
      rw [if_pos hdone]
      exact ⟨hlen, fun k hk => hbytes k (by omega)⟩
    have hpos : (offset + acc.length) % 2 ^ 32 = offset + acc.length := by
      simp only [xfsBlockSize, maxDirect] at *
      omega
    have hidx : (offset + acc.length) / xfsBlockSize < blockCount inode := by
      rw [Nat.div_lt_iff_lt_mul (by decide), Nat.mul_comm]
      omega
    have hb := hblock _ hidx
    simp only [if_neg hdone, hpos, hb, not_le.mpr hidx, or_self]
    set off := (offset + acc.length) % xfsBlockSize with hoff
    set chunk := min (xfsBlockSize - off) (count - acc.length) with hchunk
    have hlt : off < xfsBlockSize := Nat.mod_lt _ (by decide)
    set got := (List.range chunk).map fun k =>
      x.read (dataBlock inode ((offset + acc.length) / xfsBlockSize)) (off + k) with hgot
    have hlen : got.length = chunk := by simp [hgot]
    refine ih (acc ++ got) ?_ ?_ ?_
    · rw [List.length_append]; omega
    · rw [List.length_append]; omega
    · intro k hk
      rw [List.length_append] at hk
      by_cases hold : k < acc.length
      · rw [List.getElem?_append_left hold]
        exact hbytes k hold
      -- the new bytes are in the block of the round
      have hk' : k - acc.length < chunk := by omega
      have hdiv : (offset + k) / xfsBlockSize = (offset + acc.length) / xfsBlockSize := by
        simp only [xfsBlockSize] at *
        omega
      have hmod : (offset + k) % xfsBlockSize = off + (k - acc.length) := by
        simp only [xfsBlockSize] at *
        omega
      rw [List.getElem?_append_right (by omega), List.getElem?_map,
        List.getElem?_range hk', Option.map_some]
      unfold byteAt
      rw [hdiv, hmod]

/-! ## Writing -/

/-- All blocks of the data area are marked used. -/
def Full (x : Fs) : Prop := ∀ b, x.dataStart ≤ b → b < x.total → bitmapGet x b = true

theorem allocBlock_full (h : (allocBlock x).1 = none) : Full x := by
  intro b hlo hhi
  unfold allocBlock at h
  split at h
  · simp at h
  next hfind =>
    have hb := List.find?_eq_none.mp hfind b (List.mem_range'_1.mpr ⟨hlo, by omega⟩)
    simpa using hb

/-- The growth at an index that is at most one behind the counted blocks: there is no space, or
the index is counted afterwards and the bytes are as they were. -/
theorem growFor_cases (h : Growing x f y inode) (hg : Geometry x) (hs : (tree x).Sound)
    (hf : (tree x).Live f) (hfile : (tree x).dir f = false) (hidx : idx ≤ blockCount inode) :
    (growFor y inode idx = none ∧ blockCount inode ≤ idx ∧
      (blockCount inode = maxDirect ∨ Full y)) ∨
    ∃ z inode', growFor y inode idx = some (z, inode') ∧ Growing x f z inode' ∧
      idx < blockCount inode' ∧ blockCount inode ≤ blockCount inode' ∧
      ∀ k, k < xfsBlockSize * blockCount inode → byteAt z inode' k = byteAt y inode k := by
  have hle := h.tidy.count_le
  unfold growFor
  by_cases hlt : idx < blockCount inode
  · rw [if_pos hlt]
    exact .inr ⟨y, inode, rfl, h, hlt, le_rfl, fun _ _ => rfl⟩
  rw [if_neg hlt]
  by_cases hmax : maxDirect ≤ blockCount inode
  · rw [if_pos hmax]
    exact .inl ⟨rfl, by omega, .inl (by omega)⟩
  rw [if_neg hmax]
  have hfull := allocBlock_full (x := y)
  rcases allocBlock_spec y with ⟨nb, ha, hlo, hhi, hfree⟩ | ha
  · rw [ha]
    have hcount : blockCount (appendBlock inode nb) = blockCount inode + 1 :=
      blockCount_appendBlock (by omega)
    refine .inr ⟨_, _, rfl, h.grow hg (by omega) hlo hhi hfree, by omega, by omega, ?_⟩
    intro k hk
    have hj : k / xfsBlockSize < blockCount inode := by
      rw [Nat.div_lt_iff_lt_mul (by decide), Nat.mul_comm]
      exact hk
    have hrange := h.block_spec hs hf hfile hj
    unfold byteAt
    rw [dataBlock_appendBlock_of_ne (by omega),
      read_bitmapSet (hg.same h.frame.same) hhi (by rw [h.frame.same.dataStart]; exact hrange.1)]
  · rw [ha] at hfull ⊢
    exact .inl ⟨rfl, by omega, .inr (hfull rfl)⟩

/-- The sector that a round of `xfs_write` stores in a block that holds `old`. -/
def sectorOf (old : Bytes) (off done : ℕ) (data : List Byte) : Bytes :=
  memcpy (if off ≠ 0 ∨ data.length - done < xfsBlockSize then old else fun _ => 0#8) off
    ((data.drop done).take (min (xfsBlockSize - off) (data.length - done)))

theorem sectorOf_of_mem (hj : off ≤ j) (hj' : j < xfsBlockSize)
    (hj'' : j - off < data.length - done) :
    some (sectorOf old off done data j) = data[done + (j - off)]? := by
  have hlen : ((data.drop done).take (min (xfsBlockSize - off) (data.length - done))).length =
      min (xfsBlockSize - off) (data.length - done) := by
    simp
  unfold sectorOf memcpy
  rw [if_pos (by omega), List.getD_eq_getElem?_getD, List.getElem?_take_of_lt (by omega),
    List.getElem?_drop, List.getElem?_eq_getElem (by omega)]
  rfl

theorem sectorOf_of_not_mem (hoff : off < xfsBlockSize) (hj : j < xfsBlockSize)
    (hout : j < off ∨ data.length - done ≤ j - off) :
    sectorOf old off done data j = old j := by
  have hlen : ((data.drop done).take (min (xfsBlockSize - off) (data.length - done))).length =
      min (xfsBlockSize - off) (data.length - done) := by
    simp
  unfold sectorOf
  rw [memcpy_of_not_mem (by rw [hlen]; omega), if_pos]
  omega

/-- **One round of `xfs_write`**, at the byte `offset + done` of a counted block: the bytes of
the buffer that fall into the block are in place, and the others are as they were. -/
theorem writeRound_bytes (data : List Byte) (h : Growing x f y inode) (hg : Geometry x)
    (hs : (tree x).Sound) (hf : (tree x).Live f) (hfile : (tree x).dir f = false)
    (hidx : (offset + done) / xfsBlockSize < blockCount inode)
    (hk : k < xfsBlockSize * blockCount inode) :
    let b := dataBlock inode ((offset + done) / xfsBlockSize)
    let off := (offset + done) % xfsBlockSize
    let chunk := min (xfsBlockSize - off) (data.length - done)
    let z := y.write b (sectorOf (y.read b) off done data)
    (offset + done ≤ k → k < offset + (done + chunk) → some (byteAt z inode k) = data[k - offset]?) ∧
    ((k < offset + done ∨ offset + (done + chunk) ≤ k) → byteAt z inode k = byteAt y inode k) := by
  intro b off chunk z
  have hoff : off < xfsBlockSize := Nat.mod_lt _ (by decide)
  have hkidx : k / xfsBlockSize < blockCount inode := by
    rw [Nat.div_lt_iff_lt_mul (by decide), Nat.mul_comm]
    exact hk
  have hdev : b < y.dev.blockCount := by
    rw [← (hg.same h.frame.same).total, h.frame.same.total]
    exact (h.block_spec hs hf hfile hidx).2.1
  have hkoff : k % xfsBlockSize < xfsBlockSize := Nat.mod_lt _ (by decide)
  by_cases hblk : k / xfsBlockSize = (offset + done) / xfsBlockSize
  · have hbyte : byteAt z inode k = sectorOf (y.read b) off done data (k % xfsBlockSize) := by
      unfold byteAt
      rw [hblk, read_write_self hdev]
    constructor
    · intro hlo hhi
      rw [hbyte, sectorOf_of_mem (by simp only [off, xfsBlockSize] at *; omega) hkoff
        (by simp only [off, xfsBlockSize] at *; omega)]
      congr 1
      simp only [off, xfsBlockSize] at *
      omega
    · intro hout
      rw [hbyte, sectorOf_of_not_mem hoff hkoff
        (by simp only [off, xfsBlockSize, chunk] at *; omega)]
      unfold byteAt
      rw [hblk]
  · constructor
    · intro hlo hhi
      simp only [off, xfsBlockSize, chunk] at *
      omega
    · intro _
      have hne : dataBlock inode (k / xfsBlockSize) ≠ b := fun he =>
        hblk (h.block_inj hs hf hkidx hidx he)
      unfold byteAt
      rw [read_write_of_ne hne]

/-- What the loop of `xfs_write` has done when it started after `done` bytes in `y` and
`inode`, and ended with `r`. -/
structure Wrote (offset : ℕ) (data : List Byte) (done : ℕ) (y : Fs) (inode : Bytes)
    (r : Fs × Bytes × ℕ) : Prop where
  done_le : done ≤ r.2.2
  le_length : r.2.2 ≤ data.length
  reach : offset + r.2.2 ≤ xfsBlockSize * blockCount r.2.1
  count : blockCount inode ≤ blockCount r.2.1
  old : ∀ k, k < xfsBlockSize * blockCount inode → k < offset + done ∨ offset + r.2.2 ≤ k →
    byteAt r.1 r.2.1 k = byteAt y inode k
  new : ∀ k, offset + done ≤ k → k < offset + r.2.2 →
    some (byteAt r.1 r.2.1 k) = data[k - offset]?
  short : r.2.2 < data.length → offset + r.2.2 = xfsBlockSize * blockCount r.2.1 ∧
    (blockCount r.2.1 = maxDirect ∨ Full r.1)

theorem Wrote.stop (hdone : done ≤ data.length)
    (hreach : offset + done ≤ xfsBlockSize * blockCount inode)
    (hshort : done < data.length → offset + done = xfsBlockSize * blockCount inode ∧
      (blockCount inode = maxDirect ∨ Full y)) :
    Wrote offset data done y inode (y, inode, done) :=
  ⟨le_rfl, hdone, hreach, le_rfl, fun _ _ _ => rfl, fun _ hk hk' => absurd hk' (not_lt.mpr hk),
    hshort⟩

/-- A round in front of the rest of the loop. -/
theorem Wrote.round (hg : Geometry x) (hs : (tree x).Sound) (hf : (tree x).Live f)
    (hfile : (tree x).dir f = false) (hz : Growing x f z inode')
    (hlt : (offset + done) / xfsBlockSize < blockCount inode')
    (hcount : blockCount inode ≤ blockCount inode')
    (hbytes : ∀ k, k < xfsBlockSize * blockCount inode → byteAt z inode' k = byteAt y inode k)
    (hnext : Wrote offset data
      (done + min (xfsBlockSize - (offset + done) % xfsBlockSize) (data.length - done))
      (z.write (dataBlock inode' ((offset + done) / xfsBlockSize))
        (sectorOf (z.read (dataBlock inode' ((offset + done) / xfsBlockSize)))
          ((offset + done) % xfsBlockSize) done data)) inode' r) :
    Wrote offset data done y inode r := by
  set chunk := min (xfsBlockSize - (offset + done) % xfsBlockSize) (data.length - done) with hchunk
  have hround := fun k hk => writeRound_bytes data (k := k) hz hg hs hf hfile hlt hk
  have hdl := hnext.done_le
  refine ⟨by omega, hnext.le_length, hnext.reach, hcount.trans hnext.count, ?_, ?_, hnext.short⟩
  · intro k hk hout
    have hkz : k < xfsBlockSize * blockCount inode' :=
      lt_of_lt_of_le hk (Nat.mul_le_mul_left _ hcount)
    rw [hnext.old k hkz (by omega), (hround k hkz).2 (by omega), hbytes k hk]
  · intro k hlo hhi
    by_cases hin : k < offset + (done + chunk)
    · -- the bytes of this round stay in the later ones
      have hkz : k < xfsBlockSize * blockCount inode' := by
        simp only [xfsBlockSize] at *
        omega
      rw [hnext.old k hkz (.inl hin)]
      exact (hround k hkz).1 hlo hin
    · exact hnext.new k (by omega) hhi

/-- **Before a round of `xfs_write`** at a byte that the blocks of the inode reach: no block can
be had, or the byte's block is one of the inode's after the growth, and its blocks reach the byte of
the next round. -/
theorem writeRound_cases (h : Growing x f y inode) (hg : Geometry x) (hs : (tree x).Sound)
    (hf : (tree x).Live f) (hfile : (tree x).dir f = false)
    (hreach : offset + done ≤ xfsBlockSize * blockCount inode) :
    let idx := (offset + done) / xfsBlockSize
    (offset + done) % 2 ^ 32 = offset + done ∧
    ((growFor y inode idx = none ∧ offset + done = xfsBlockSize * blockCount inode ∧
      (blockCount inode = maxDirect ∨ Full y)) ∨
    ∃ z inode', growFor y inode idx = some (z, inode') ∧ Growing x f z inode' ∧
      idx < blockCount inode' ∧ dataBlock inode' idx ≠ 0 ∧ blockCount inode ≤ blockCount inode' ∧
      (∀ k, k < xfsBlockSize * blockCount inode → byteAt z inode' k = byteAt y inode k) ∧
      ∀ n, n ≤ xfsBlockSize - (offset + done) % xfsBlockSize →
        offset + (done + n) ≤ xfsBlockSize * blockCount inode') := by
  have hle := h.tidy.count_le
  refine ⟨Nat.mod_eq_of_lt (by simp only [xfsBlockSize, maxDirect] at *; omega), ?_⟩
  rcases growFor_cases h hg hs hf hfile (Nat.div_le_of_le_mul hreach) with
    ⟨hgrow, hidx, hfull⟩ | ⟨z, inode', hgrow, hz, hlt, hcount, hbytes⟩
  · refine .inl ⟨hgrow, ?_, hfull⟩
    simp only [xfsBlockSize] at *
    omega
  refine .inr ⟨z, inode', hgrow, hz, hlt, ?_, hcount, hbytes, fun n hn => ?_⟩
  · have hlo := (hz.block_spec hs hf hfile hlt).1
    exact Nat.ne_of_gt (lt_of_lt_of_le hg.dataStart_pos hlo)
  · simp only [xfsBlockSize] at *
    omega

/-- **The loop of `xfs_write`.**  Started at a byte that the blocks of the inode reach, it
stores the buffer up to the end, or up to where no block can be had. -/
theorem writeLoop_bytes (hg : Geometry x) (hs : (tree x).Sound) (hf : (tree x).Live f)
    (hfile : (tree x).dir f = false) (fuel : ℕ) (h : Growing x f y inode)
    (hdone : done ≤ data.length) (hfuel : data.length ≤ done + fuel)
    (hreach : offset + done ≤ xfsBlockSize * blockCount inode) :
    Wrote offset data done y inode (writeLoop offset data fuel y inode done) := by
  induction fuel generalizing y inode done with
  | zero => exact .stop hdone hreach (fun hlt => absurd hlt (by omega))
  | succ fuel ih =>
    unfold writeLoop
    by_cases hend : data.length ≤ done
    · rw [if_pos hend]
      exact .stop hdone hreach (fun hlt => absurd hlt (by omega))
    rw [if_neg hend]
    obtain ⟨hpos, hcase⟩ := writeRound_cases h hg hs hf hfile hreach
    simp only [hpos]
    rcases hcase with
      ⟨hgrow, hfull⟩ | ⟨z, inode', hgrow, hz, hlt, hb, hcount, hbytes, hnext⟩
    · rw [hgrow]
      exact .stop hdone hreach (fun _ => hfull)
    rw [hgrow]
    simp only [if_neg hb]
    have hoff : (offset + done) % xfsBlockSize < xfsBlockSize := Nat.mod_lt _ (by decide)
    exact Wrote.round hg hs hf hfile hz hlt hcount hbytes
      (ih (hz.write hg hs hf hfile _ hlt) (by omega) (by omega) (hnext _ (min_le_left _ _)))

/-- In the middle of a growth, the size in the inode is the old one, and of the data area only
the blocks of the inode differ from the state before. -/
structure OnlyOwn (x : Fs) (f : ℕ) (z : Fs) (inode : Bytes) : Prop where
  growing : Growing x f z inode
  size : inodeSize inode = inodeSize (readInode x f)
  others : ∀ q, x.dataStart ≤ q → (∀ j, j < blockCount inode → dataBlock inode j ≠ q) →
    z.read q = x.read q

section

variable (hg : Geometry x) (hs : (tree x).Sound) (hf : (tree x).Live f)
  (hfile : (tree x).dir f = false)
include hg hs hf hfile

theorem onlyOwn_kept : Kept (OnlyOwn x f) where
  tidy h := h.growing.tidy
  geometry h := hg.same h.growing.frame.same
  grow := by
    intro z inode nb h hc hlo hhi hfree
    refine ⟨h.growing.grow hg hc hlo hhi hfree, ?_, fun q hq hown => ?_⟩
    · rw [inodeSize_appendBlock, h.size]
    · have hcount : blockCount (appendBlock inode nb) = blockCount inode + 1 :=
        blockCount_appendBlock hc
      have hsame := h.growing.frame.same
      rw [read_bitmapSet (hg.same hsame) hhi (by rw [hsame.dataStart]; exact hq)]
      refine h.others q hq fun j hj => ?_
      have hold : dataBlock (appendBlock inode nb) j = dataBlock inode j :=
        dataBlock_appendBlock_of_ne (Nat.ne_of_lt hj)
      rw [← hold]
      exact hown j (by omega)
  write := by
    intro z inode idx buf h hidx _
    refine ⟨h.growing.write hg hs hf hfile buf hidx, h.size, fun q hq hown => ?_⟩
    rw [read_write_of_ne (hown idx hidx).symm]
    exact h.others q hq hown

/-- **No other block is written.** -/
theorem writeLoop_others (hin : InBounds offset (readInode x f)) (data : List Byte) :
    let r := writeLoop offset data data.length x (readInode x f) 0
    OnlyOwn x f r.1 r.2.1 :=
  writeLoop_rule (onlyOwn_kept hg hs hf hfile) offset data data.length
    ⟨.start hs hf, rfl, fun _ _ _ => rfl⟩ hin

end

end Xos.Xfs
