import Xos.Xfs.FileStore

/-!
# Writing behind the end of a file

`xfs_lseek` takes any offset.  `xfs_write` appends one block in each round, wherever the offset is,
and does not clear what it skips: behind the blocks of a file it can leave the file with another
size and nothing written (`seek_far_behind_end`), and in front of them it shows what the blocks held
before.

* **`NoGap`** — the offset is in the file, or in a block that the first round has, and the bytes up
  to it are zero;
* **`writeIndices`** — the elements of `data_blocks` that the loop of `xfs_write` uses;
* **`WritesRight`** — the write stores its bytes at the offset and nothing else, or nothing at all;
* **`write_after_seek`** — after a seek, a write is right exactly at the gapless offsets.
-/

namespace Xos.Xfs

open Xos.Lib Function

variable {x y z : Fs} {f i o offset pid : ℕ} {fd : ℤ} {data : List Byte} {inode inode' : Bytes}

/-- A write at `o` leaves no gap in the file `f`: `o` is not behind the end, or the block of `o` is
one of the file's (the block that the first round appends included) and there are only zeros up to
`o`. -/
def NoGap (x : Fs) (f o : ℕ) : Prop :=
  o ≤ inodeSize (readInode x f) ∨
    ∃ z inode, growFor x (readInode x f) (o / xfsBlockSize) = some (z, inode) ∧
      o / xfsBlockSize < blockCount inode ∧
      ∀ k, inodeSize (readInode x f) ≤ k → k < o → byteAt z inode k = 0#8

/-- A write through the descriptor `i` does not come to its loop, or leaves no gap. -/
def Gapless (x : Fs) (i : ℕ) (data : List Byte) : Prop :=
  data = [] ∨ ¬ Writable (x.fds i) ∨ NoGap x (x.fds i).inodeBlock (x.fds i).offset

/-- The calls on regular files, with gapless writes. -/
def Seeks (x : Fs) : Call → Prop
  | .write pid fd data => ∀ i, fdOf x pid fd = some i → Gapless x i data
  | call => Regular x call

/-! ## The first round -/

/-- A block that the first round has is at most one behind the file's. -/
theorem growFor_reach (hgrow : growFor x inode idx = some (z, inode'))
    (hlt : idx < blockCount inode') : idx ≤ blockCount inode := by
  unfold growFor at hgrow
  split_ifs at hgrow with hin hmax
  · exact hin.le
  rcases allocBlock_spec x with ⟨nb, ha, -⟩ | ha
  · rw [ha] at hgrow
    cases hgrow
    rw [blockCount_appendBlock (by omega)] at hlt
    omega
  · rw [ha] at hgrow
    cases hgrow

/-- The loop goes on as if the block had been there before. -/
theorem writeLoop_grown (ho : o < 2 ^ 32)
    (hgrow : growFor x inode (o / xfsBlockSize) = some (z, inode'))
    (hlt : o / xfsBlockSize < blockCount inode') (hdata : data ≠ []) :
    writeLoop o data data.length x inode 0 = writeLoop o data data.length z inode' 0 := by
  have hagain : growFor z inode' (o / xfsBlockSize) = some (z, inode') := if_pos hlt
  cases data with
  | nil => exact absurd rfl hdata
  | cons b data =>
    simp only [List.length_cons, writeLoop, Nat.add_zero, Nat.mod_eq_of_lt ho, hgrow, hagain,
      if_neg (Nat.not_succ_le_zero _)]

section Grown

variable (h : WellFormed x) (hf : LiveFile x f) (ho : o < 2 ^ 31)
  (hgrow : growFor x (readInode x f) (o / xfsBlockSize) = some (z, inode'))
  (hlt : o / xfsBlockSize < blockCount inode')
include h hf hgrow hlt

theorem grown : Growing x f z inode' ∧ blockCount (readInode x f) ≤ blockCount inode' ∧
    (∀ k, k < xfsBlockSize * blockCount (readInode x f) →
      byteAt z inode' k = byteAt x (readInode x f) k) ∧ o < xfsBlockSize * blockCount inode' := by
  have hidx := growFor_reach hgrow hlt
  rcases growFor_cases (.start h.sound hf.1) h.geometry h.sound hf.1 hf.2 hidx with
    ⟨hnone, -⟩ | ⟨z', inode'', hsome, hz, -, hcount, hbytes⟩
  · cases hnone.symm.trans hgrow
  obtain ⟨rfl, rfl⟩ := Prod.mk.inj (Option.some.inj (hsome.symm.trans hgrow))
  refine ⟨hz, hcount, hbytes, ?_⟩
  simp only [xfsBlockSize] at *
  omega

include ho in
/-- **A write in a block of the first round.**  It stores at least a byte, and what the file has in
front of the offset is what was in its blocks. -/
theorem wroteFile_grown (hdata : data ≠ []) :
    let r := writeLoop o data data.length x (readInode x f) 0
    let y := writeInode r.1 f (writtenInode o r.2)
    WroteFile x y f o data r.2.2 ∧ 0 < r.2.2 ∧
      ∀ j, j < o → byteAt y (readInode y f) j = byteAt z inode' j := by
  intro r y
  obtain ⟨hz, hcount, hbytes, hreach⟩ := grown h hf hgrow hlt
  have hloop := writeLoop_grown (by omega) hgrow hlt hdata
  have hw : Wrote o data 0 z inode' r := by
    rw [show r = _ from hloop]
    exact writeLoop_bytes h.geometry h.sound hf.1 hf.2 _ hz (Nat.zero_le _) (by omega) hreach.le
  have hin : InBounds o (readInode x f) := by
    refine .inl ?_
    rw [Nat.mod_eq_of_lt (by omega)]
    exact hlt.trans_le hz.tidy.count_le
  have hown : OnlyOwn x f r.1 r.2.1 :=
    writeLoop_others h.geometry h.sound hf.1 hf.2 hin data
  have hgrew := Nat.mul_le_mul_left xfsBlockSize hw.count
  have hw' : Wrote o data 0 x (readInode x f) r :=
    ⟨hw.done_le, hw.le_length, hw.reach, hcount.trans hw.count, fun k hk hout =>
      (hw.old k (hk.trans_le (Nat.mul_le_mul_left _ hcount)) hout).trans (hbytes k hk), hw.new,
      hw.short⟩
  refine ⟨hw'.wroteFile h hf hown, ?_, fun j hj => ?_⟩
  · by_contra hzero
    have hend := (hw.short (by have := List.length_pos_iff.mpr hdata; omega)).1
    omega
  · rw [hown.byteAt_written h hf o (by omega)]
    exact hw.old j (by omega) (.inl (by omega))

end Grown

/-- A gapless write stores what its loop has written. -/
theorem Gapless.wroteFile (hc : Gapless x i data) (h : WellFormed x)
    (hf : LiveFile x (x.fds i).inodeBlock) (ho : (x.fds i).offset < 2 ^ 31) (hdata : data ≠ [])
    (hw : Writable (x.fds i)) :
    let r := writeLoop (x.fds i).offset data data.length x (readInode x (x.fds i).inodeBlock) 0
    WroteFile x (writeInode r.1 (x.fds i).inodeBlock (writtenInode (x.fds i).offset r.2))
      (x.fds i).inodeBlock (x.fds i).offset data r.2.2 := by
  rcases hc with hnil | hro | hle | ⟨z, inode, hgrow, hlt, -⟩
  · exact absurd hnil hdata
  · exact absurd hw hro
  · exact Xfs.wroteFile h hf (hle.trans (h.size hf)) data
  · exact (wroteFile_grown h hf ho hgrow hlt hdata).1

theorem exec_wellFormed (h : WellFormed x) (hc : Seeks x call) : WellFormed (exec x call).2 := by
  cases call with
  | write pid fd data =>
    cases hfd : fdOf x pid fd with
    | none =>
      have heq : (exec x (.write pid fd data)).2 = x := by simp only [exec, xfsWrite, hfd]
      rw [heq]
      exact h
    | some i =>
      obtain ⟨-, hi, hu, -⟩ := has_of_fdOf hfd
      obtain ⟨hf, ho⟩ := h.fds hi hu
      simp only [exec]
      rcases xfsWrite_cases hfd ((hc i hfd).wroteFile h hf ho) with
        ⟨-, heq⟩ | ⟨-, -, heq⟩ | ⟨k, y, -, heq, hw⟩
      · rw [heq]
        exact h
      · rw [heq]
        exact h
      · rw [heq]
        exact (hw.wellFormed h).setFd _ _ fun _ => ⟨(hw.live _).mpr hf, hw.reach⟩
  | _ =>
    refine (exec_does h ?_).2
    exact hc

/-! ## The block map -/

/-- The indices of `data_blocks` that `writeLoop` reads, each with the `block_count` at that
moment. -/
def writeIndices (offset : ℕ) (data : List Byte) : ℕ → Fs → Bytes → ℕ → List (ℕ × ℕ)
  | 0, _, _, _ => []
  | fuel + 1, x, inode, done =>
    if data.length ≤ done then []
    else
      let fileOff := (offset + done) % 2 ^ 32
      let idx := fileOff / xfsBlockSize
      let off := fileOff % xfsBlockSize
      match growFor x inode idx with
      | none => []
      | some (x, inode) =>
        let b := dataBlock inode idx
        (idx, blockCount inode) ::
          if b = 0 then []
          else
            writeIndices offset data fuel (x.write b (sectorOf (x.read b) off done data)) inode
              (done + min (xfsBlockSize - off) (data.length - done))

/-- **The loop uses counted blocks only.** -/
theorem writeIndices_lt (hg : Geometry x) (hs : (tree x).Sound) (hf : (tree x).Live f)
    (hfile : (tree x).dir f = false) (fuel : ℕ) {y : Fs} (h : Growing x f y inode)
    (hreach : offset + done ≤ xfsBlockSize * blockCount inode) :
    ∀ e, e ∈ writeIndices offset data fuel y inode done → e.1 < e.2 ∧ e.2 ≤ maxDirect := by
  induction fuel generalizing y inode done with
  | zero => simp [writeIndices]
  | succ fuel ih =>
    unfold writeIndices
    by_cases hend : data.length ≤ done
    · simp [hend]
    obtain ⟨hpos, hcase⟩ := writeRound_cases h hg hs hf hfile hreach
    simp only [if_neg hend, hpos]
    rcases hcase with ⟨hgrow, -⟩ | ⟨z, inode', hgrow, hz, hlt, hb, -, -, hnext⟩
    · simp [hgrow]
    simp only [hgrow, if_neg hb, List.mem_cons, forall_eq_or_imp]
    exact ⟨⟨hlt, hz.tidy.count_le⟩,
      ih (hz.write hg hs hf hfile _ hlt) (hnext _ (min_le_left _ _))⟩

theorem writeIndices_grown (ho : o < 2 ^ 32)
    (hgrow : growFor x inode (o / xfsBlockSize) = some (z, inode'))
    (hlt : o / xfsBlockSize < blockCount inode') :
    writeIndices o data data.length x inode 0 = writeIndices o data data.length z inode' 0 := by
  have hagain : growFor z inode' (o / xfsBlockSize) = some (z, inode') := if_pos hlt
  cases data with
  | nil => rfl
  | cons b data =>
    simp only [List.length_cons, writeIndices, Nat.add_zero, Nat.mod_eq_of_lt ho, hgrow, hagain]

/-- The first element that the loop uses. -/
theorem mem_writeIndices (ho : o < 2 ^ 32)
    (hgrow : growFor x inode (o / xfsBlockSize) = some (z, inode')) (hdata : data ≠ []) :
    (o / xfsBlockSize, blockCount inode') ∈ writeIndices o data data.length x inode 0 := by
  cases data with
  | nil => exact absurd rfl hdata
  | cons b data =>
    simp only [List.length_cons, writeIndices, Nat.add_zero, Nat.mod_eq_of_lt ho, hgrow,
      if_neg (Nat.not_succ_le_zero _)]
    exact List.mem_cons_self

theorem NoGap.indices (hc : NoGap x f o) (h : WellFormed x) (hf : LiveFile x f) (ho : o < 2 ^ 31) :
    ∀ e, e ∈ writeIndices o data data.length x (readInode x f) 0 → e.1 < e.2 ∧ e.2 ≤ maxDirect := by
  rcases hc with hle | ⟨z, inode, hgrow, hlt, -⟩
  · exact writeIndices_lt h.geometry h.sound hf.1 hf.2 _ (.start h.sound hf.1)
      (hle.trans (h.size hf))
  · obtain ⟨hz, -, -, hreach⟩ := grown h hf hgrow hlt
    rw [writeIndices_grown (by omega) hgrow hlt]
    exact writeIndices_lt h.geometry h.sound hf.1 hf.2 _ hz hreach.le

/-! ## A seek, a write and a read -/

theorem fdOf_setFd (hfd : fdOf x pid fd = some i) (hu : d.used = (x.fds i).used)
    (hp : d.pid = (x.fds i).pid) : fdOf (x.setFd i d) pid fd = some i := by
  unfold fdOf at hfd ⊢
  split_ifs at hfd with hc
  cases hfd
  rw [setFd_fds, update_self, hu, hp, if_pos hc]

/-- `xfs_lseek` to `o`. -/
theorem xfsLseek_start (hfd : fdOf x pid fd = some i) (o : ℕ) :
    xfsLseek x pid fd o 0 = ((o : ℤ), x.setFd i { x.fds i with offset := o }) := by
  simp [xfsLseek, hfd]

/-- What `xfs_read` returns after it. -/
theorem read_after_seek (h : WellFormed x) (hfd : fdOf x pid fd = some i) (ho : o < 2 ^ 31)
    (n : ℕ) :
    let w := (xfsLseek x pid fd o 0).2
    (xfsRead w pid fd n).1 = (slice (content x (x.fds i).inodeBlock) o n).length ∧
      (xfsRead w pid fd n).2.1 = slice (content x (x.fds i).inodeBlock) o n := by
  intro w
  obtain ⟨-, hi, hu, -⟩ := has_of_fdOf hfd
  have hw : w = x.setFd i { x.fds i with offset := o } := congrArg Prod.snd (xfsLseek_start hfd o)
  have hwf : WellFormed w := by
    rw [hw]
    exact h.setFd _ _ fun _ => ⟨(h.fds hi hu).1, ho⟩
  have hfdw : fdOf w pid fd = some i := by
    rw [hw]
    exact fdOf_setFd hfd rfl rfl
  obtain ⟨hcount, hgot, -⟩ := xfsRead_eq hwf (n := n) hfdw
  have hslice : slice (content w (w.fds i).inodeBlock) (w.fds i).offset n =
      slice (content x (x.fds i).inodeBlock) o n := by
    rw [hw, setFd_fds, update_self]
    rfl
  exact ⟨hcount.trans (by rw [hslice]), hgot.trans hslice⟩

/-- What is read at the place of a write. -/
theorem WroteFile.slice_content (h : WroteFile x y f offset data k) :
    slice (content y f) offset k = data.take k := by
  have hlen := h.length
  refine List.ext_getElem? fun m => ?_
  by_cases hm : m < k
  · rw [getElem?_slice hm, getElem?_content (by omega), h.new _ (by omega) (by omega),
      List.getElem?_take_of_lt hm, Nat.add_sub_cancel_left]
  · rw [List.getElem?_eq_none (by rw [length_slice]; omega),
      List.getElem?_eq_none (by rw [List.length_take]; omega)]

/-- What a write through the descriptor `i` should do: it fails or stores nothing, and the file is
as it was; or it stores `k` bytes, a read at the offset returns these, what lies between the old end
and the offset is zero, and the other bytes are as they were.  Its loop, if it comes to it, uses
counted elements of `data_blocks` only. -/
def WritesRight (x : Fs) (pid : ℕ) (fd : ℤ) (i : ℕ) (data : List Byte) : Prop :=
  let f := (x.fds i).inodeBlock
  let o := (x.fds i).offset
  let r := xfsWrite x pid fd data
  (((r.1 = -1 ∨ r.1 = 0) ∧ content r.2 f = content x f) ∨
    ∃ k : ℕ, 0 < k ∧ r.1 = k ∧ (xfsRead (xfsLseek r.2 pid fd o 0).2 pid fd k).1 = k ∧
      (xfsRead (xfsLseek r.2 pid fd o 0).2 pid fd k).2.1 = data.take k ∧
      (∀ j, inodeSize (readInode x f) ≤ j → j < o → (content r.2 f)[j]? = some 0#8) ∧
      ∀ j, j < inodeSize (readInode x f) → j < o ∨ o + k ≤ j →
        (content r.2 f)[j]? = (content x f)[j]?) ∧
  (Writable (x.fds i) →
    ∀ e, e ∈ writeIndices o data data.length x (readInode x f) 0 → e.1 < e.2 ∧ e.2 ≤ maxDirect)

/-- What a right write that stores bytes says about the bytes in front of them. -/
theorem WritesRight.zero (hright : WritesRight x pid fd i data)
    (hw : WroteFile x y (x.fds i).inodeBlock (x.fds i).offset data k) (hpos : 0 < k)
    (heq : xfsWrite x pid fd data = ((k : ℤ), y.setFd i d))
    (hj : inodeSize (readInode x (x.fds i).inodeBlock) ≤ j) (hjo : j < (x.fds i).offset) :
    byteAt y (readInode y (x.fds i).inodeBlock) j = 0#8 := by
  have hlen := hw.length
  have hin : j < inodeSize (readInode y (x.fds i).inodeBlock) := by omega
  obtain ⟨hbytes, -⟩ := hright
  rw [heq] at hbytes
  rcases hbytes with ⟨hret, -⟩ | ⟨k, -, -, -, -, hzero, -⟩
  · simp only at hret
    omega
  · exact Option.some.inj ((getElem?_content hin).symm.trans (hzero j hj hjo))

section Write

variable (h : WellFormed x) (hfd : fdOf x pid fd = some i)
include h hfd

/-- A gapless write that stores `k` bytes. -/
theorem WroteFile.writesRight {f o : ℕ} (hf : (x.fds i).inodeBlock = f) (ho : (x.fds i).offset = o)
    (hw : WroteFile x y f o data k) (heq : xfsWrite x pid fd data =
      ((k : ℤ), y.setFd i { x.fds i with offset := (x.fds i).offset + k }))
    (hk : k = 0 → content y f = content x f) (hgap : 0 < k → ∀ j, inodeSize (readInode x f) ≤ j →
      j < o → byteAt y (readInode y f) j = 0#8)
    (hidx : ∀ e, e ∈ writeIndices o data data.length x (readInode x f) 0 →
      e.1 < e.2 ∧ e.2 ≤ maxDirect) : WritesRight x pid fd i data := by
  subst hf ho
  obtain ⟨-, hi, hu, -⟩ := has_of_fdOf hfd
  obtain ⟨hf, ho⟩ := h.fds hi hu
  refine ⟨?_, fun _ => hidx⟩
  obtain ⟨w, hw'⟩ : ∃ w, w = y.setFd i { x.fds i with offset := (x.fds i).offset + k } := ⟨_, rfl⟩
  rw [heq, ← hw']
  have hbytes : content w (x.fds i).inodeBlock = content y (x.fds i).inodeBlock := by rw [hw']; rfl
  have hlen := hw.length
  have hblocks := h.size hf
  rcases Nat.eq_zero_or_pos k with rfl | hpos
  · exact .inl ⟨.inr rfl, hbytes.trans (hk rfl)⟩
  refine .inr ⟨k, hpos, rfl, ?_⟩
  -- the read is at the place of the write
  have hwr : WellFormed w := by
    rw [hw']
    exact (hw.wellFormed h).setFd _ _ fun _ => ⟨(hw.live _).mpr hf, hw.reach⟩
  have hfdw : fdOf w pid fd = some i ∧ (w.fds i).inodeBlock = (x.fds i).inodeBlock := by
    rw [hw', setFd_fds, update_self]
    refine ⟨fdOf_setFd ((fdOf_congr hw.fds).trans hfd) ?_ ?_, rfl⟩
    · rw [hw.fds]
    · rw [hw.fds]
  obtain ⟨hcount, hgot⟩ := read_after_seek hwr hfdw.1 ho k
  rw [hfdw.2, hbytes, hw.slice_content] at hcount hgot
  simp only [hbytes]
  refine ⟨?_, hgot, fun j hj hjo => ?_, fun j hj hout => ?_⟩
  · rw [hcount, List.length_take, min_eq_left hw.le]
  · rw [getElem?_content (by omega), hgap hpos j hj hjo]
  · rw [getElem?_content (by omega), getElem?_content hj, hw.old j (by omega) hout]

theorem Gapless.writesRight (hc : Gapless x i data) : WritesRight x pid fd i data := by
  obtain ⟨-, hi, hu, -⟩ := has_of_fdOf hfd
  obtain ⟨hf, ho⟩ := h.fds hi hu
  by_cases hdata : data = []
  · have heq : xfsWrite x pid fd data = (0, x) := by simp only [xfsWrite, hfd, hdata, if_true]
    refine ⟨.inl ⟨.inr (by rw [heq]), by rw [heq]⟩, fun _ => ?_⟩
    simp [hdata, writeIndices]
  by_cases hflags : Writable (x.fds i)
  · have hno : NoGap x (x.fds i).inodeBlock (x.fds i).offset :=
      (hc.resolve_left hdata).resolve_left (not_not_intro hflags)
    have hw := hc.wroteFile h hf ho hdata hflags
    have heq := xfsWrite_of_wroteFile hfd hdata hflags hw
    refine hw.writesRight h hfd rfl rfl heq ?_ ?_ (hno.indices h hf ho)
    · intro hk
      rcases hno with hle | ⟨z, inode, hgrow, hlt, -⟩
      · rw [hw.bytes h hf hle, hk, List.take_zero, splice_nil]
      · exact absurd hk (wroteFile_grown h hf ho hgrow hlt hdata).2.1.ne'
    · intro _ j hj hjo
      rcases hno with hle | ⟨z, inode, hgrow, hlt, hzero⟩
      · omega
      · rw [(wroteFile_grown h hf ho hgrow hlt hdata).2.2 j hjo, hzero j hj hjo]
  · have heq : xfsWrite x pid fd data = (-1, x) := by
      unfold Writable at hflags
      simp only [xfsWrite, hfd, hdata, hflags, if_false, Bool.not_false, if_true]
    exact ⟨.inl ⟨.inl (by rw [heq]), by rw [heq]⟩, fun hw => absurd hw hflags⟩

/-- A write behind the end that gets no block changes the size. -/
theorem not_writesRight_of_none (hdata : data ≠ []) (hflags : Writable (x.fds i))
    (hbehind : inodeSize (readInode x (x.fds i).inodeBlock) < (x.fds i).offset)
    (hgrow : growFor x (readInode x (x.fds i).inodeBlock)
      ((x.fds i).offset / xfsBlockSize) = none) : ¬ WritesRight x pid fd i data := by
  obtain ⟨-, hi, hu, -⟩ := has_of_fdOf hfd
  obtain ⟨hf, ho⟩ := h.fds hi hu
  have hloop : writeLoop (x.fds i).offset data data.length x
      (readInode x (x.fds i).inodeBlock) 0 = (x, readInode x (x.fds i).inodeBlock, 0) := by
    cases data with
    | nil => exact absurd rfl hdata
    | cons b data =>
      simp only [List.length_cons, writeLoop, Nat.add_zero, hgrow, if_neg (Nat.not_succ_le_zero _),
        Nat.mod_eq_of_lt (show (x.fds i).offset < 2 ^ 32 by omega)]
  have heq := xfsWrite_eq hfd hdata hflags
  rw [hloop] at heq
  rintro ⟨hright, -⟩
  rw [heq] at hright
  rcases hright with ⟨-, hsame⟩ | ⟨k, hk, hzero, -⟩
  · have hlen := congrArg List.length hsame
    have hsize := ((Growing.start h.sound hf.1).inode_fields h.geometry h.sound hf.1
      (writtenInode (x.fds i).offset (readInode x (x.fds i).inodeBlock, 0))).size
    have hwritten : inodeSize (writtenInode (x.fds i).offset
        (readInode x (x.fds i).inodeBlock, 0)) = (x.fds i).offset := by
      have hmod : ((x.fds i).offset + 0) % 2 ^ 32 = (x.fds i).offset := by omega
      rw [writtenInode, hmod, if_pos hbehind, inodeSize_setSize]
      omega
    rw [length_content, length_content] at hlen
    exact hbehind.ne ((hsize.trans hwritten).symm.trans hlen).symm
  · dsimp only at hzero
    rw [toInt_of_lt (by omega)] at hzero
    omega

/-- **Only gapless writes are right.** -/
theorem writesRight_iff : WritesRight x pid fd i data ↔ Gapless x i data := by
  refine ⟨fun hright => ?_, fun hc => hc.writesRight h hfd⟩
  obtain ⟨-, hi, hu, -⟩ := has_of_fdOf hfd
  obtain ⟨hf, ho⟩ := h.fds hi hu
  by_cases hdata : data = []
  · exact .inl hdata
  by_cases hflags : Writable (x.fds i)
  · refine .inr (.inr ?_)
    by_cases hle : (x.fds i).offset ≤ inodeSize (readInode x (x.fds i).inodeBlock)
    · exact .inl hle
    cases hgrow : growFor x (readInode x (x.fds i).inodeBlock)
        ((x.fds i).offset / xfsBlockSize) with
    | none =>
      exact absurd hright (not_writesRight_of_none h hfd hdata hflags (not_le.mp hle) hgrow)
    | some p =>
      obtain ⟨z, inode⟩ := p
      have hlt := (hright.2 hflags _ (mem_writeIndices (by omega) hgrow hdata)).1
      refine .inr ⟨z, inode, hgrow, hlt, fun j hj hjo => ?_⟩
      -- the write has stored a byte, so that the bytes in front of it are zero
      obtain ⟨hw, hpos, hgap⟩ := wroteFile_grown h hf ho hgrow hlt hdata
      have heq := xfsWrite_of_wroteFile hfd hdata hflags hw
      exact (hgap j hjo).symm.trans (hright.zero hw hpos heq hj hjo)
  · exact .inr (.inl hflags)

end Write

end Xos.Xfs
