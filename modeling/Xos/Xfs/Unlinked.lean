import Xos.Xfs.Ownership

/-!
# Descriptors of unlinked files

`xfs_unlink` frees a file's blocks at once, while open descriptors keep the number of its
inode block.  When the block is handed out again the old descriptor reaches the new
owner (`old_descriptor_reaches_new_file`).  As long as neither the inode block nor the
blocks it lists have come back into the tree (`Unrecycled`),

* a call through the descriptor changes nothing that the tree names, and what it reads
  does not depend on it — `unlink_isolation`.
-/

namespace Xos.Xfs

open Xos.Lib

variable {x y z x₀ : Fs} {f : ℕ} {call : Call}

/-! ## Outside the tree -/

/-- The tree names the block. -/
def Named (x : Fs) (b : ℕ) : Prop := ∃ o, (tree x).Refers o b

/-- The inode block `f` and the blocks it lists lie in the data area and outside the
tree. -/
structure Unrecycled (x : Fs) (f : ℕ) : Prop where
  range : x.dataStart ≤ f ∧ f < x.total
  inode : ¬ Named x f
  tidy : Tidy (readInode x f)
  block : ∀ j, j < blockCount (readInode x f) →
    x.dataStart ≤ dataBlock (readInode x f) j ∧ dataBlock (readInode x f) j < x.total ∧
      ¬ Named x (dataBlock (readInode x f) j)

theorem Meta.named (h : Meta x f) : Named x f := by
  rcases h with hf | ⟨p, i, hp, -, hi, he⟩
  · obtain ⟨o, ho, -⟩ := hf.named
    exact ⟨o, ho⟩
  · exact ⟨.slot p i, hp, hi, he⟩

/-- Blocks outside the tree may have changed, in contents and in the bitmap. -/
structure Outside (x y : Fs) : Prop where
  frame : Frame x y fun q => ¬ Named x q
  used : ∀ b, Named x b → bitmapGet y b = true

theorem Outside.agree (h : Outside x y) (hs : (tree x).Sound) : BlockTree.Agree (tree x) (tree y) :=
  h.frame.agree hs fun _ hq hm => hq hm.named

theorem Outside.sound (h : Outside x y) (hs : (tree x).Sound) : (tree y).Sound :=
  hs.agree (h.agree hs) fun hr => h.used _ ⟨_, hr⟩

/-- What the loops of a call through the descriptor keep. -/
structure Stray (x z : Fs) (inode : Bytes) : Prop extends Outside x z where
  fds : z.fds = x.fds
  tidy : Tidy inode
  block : ∀ j, j < blockCount inode → x.dataStart ≤ dataBlock inode j ∧
    dataBlock inode j < x.total ∧ ¬ Named x (dataBlock inode j)

theorem Stray.start (hs : (tree x).Sound) (h : Unrecycled x f) : Stray x x (readInode x f) where
  frame := .refl x _
  used := by rintro b ⟨o, ho⟩; exact hs.used ho
  fds := rfl
  tidy := h.tidy
  block := h.block

theorem Named.range (hs : (tree x).Sound) (h : Named x f) : x.dataStart ≤ f ∧ f < x.total := by
  obtain ⟨o, ho⟩ := h
  exact hs.range ho

/-- A write outside the tree. -/
theorem Outside.write (h : Outside x z) (hg : Geometry x) (hs : (tree x).Sound)
    (hlo : x.dataStart ≤ b) (hb : ¬ Named x b) (buf : Bytes) : Outside x (z.write b buf) := by
  refine ⟨h.frame.trans ((Frame.write z b buf).mono ?_), fun q hq => ?_⟩
  · rintro q rfl
    exact hb
  · rw [bitmapGet_write (hg.same h.frame.same) (by rw [h.frame.same.total]; exact (hq.range hs).2)
      (by rw [h.frame.same.dataStart]; exact hlo)]
    exact h.used q hq

theorem Outside.setFd (h : Outside x z) (i : ℕ) (fd : Fd) : Outside x (z.setFd i fd) :=
  ⟨⟨h.frame.same.trans (setFd_same z i fd), h.frame.read⟩, h.used⟩

theorem stray_kept (hg : Geometry x) (hs : (tree x).Sound) : Kept (Stray x) where
  tidy h := h.tidy
  geometry h := hg.same h.frame.same
  grow {z inode nb} h hc hlo hhi hfree := by
    have hgz := hg.same h.frame.same
    have hnb : nb < 2 ^ 32 := lt_of_lt_of_le hhi hgz.small
    -- what the tree names is in use, so the new block is not named
    have hnamed : ¬ Named x nb := by
      intro hn
      rw [h.used nb hn] at hfree
      cases hfree
    rw [h.frame.same.dataStart] at hlo
    refine ⟨⟨h.frame.trans (.bitmapSet hgz hhi true _), fun b hb => ?_⟩, ?_, h.tidy.append hc,
      fun j hj => ?_⟩
    · rw [bitmapGet_bitmapSet hgz hhi, h.used b hb]
      simp
    · rw [bitmapSet_fds]; exact h.fds
    · rw [h.frame.same.total] at hhi
      rw [blockCount_appendBlock hc] at hj
      by_cases hjc : j = blockCount inode
      · rw [hjc, dataBlock_appendBlock_self hnb]
        exact ⟨hlo, hhi, hnamed⟩
      · rw [dataBlock_appendBlock_of_ne hjc]
        exact h.block j (by omega)
  write {z inode idx} buf h hidx _ := by
    obtain ⟨hlo, -, hnamed⟩ := h.block idx hidx
    refine ⟨h.toOutside.write hg hs hlo hnamed buf, ?_, h.tidy, h.block⟩
    rw [write_fds]; exact h.fds

/-! ## Calls through the descriptor -/

section Calls

variable {pid i : ℕ} {fd : ℤ}

section

variable (hg : Geometry x) (hs : (tree x).Sound) (hfd : fdOf x pid fd = some i)
  (hf : Unrecycled x (x.fds i).inodeBlock)
include hg hs hfd hf

theorem xfsWrite_outside (hin : InBounds (x.fds i).offset (readInode x (x.fds i).inodeBlock)) :
    Outside x (xfsWrite x pid fd data).2 := by
  have hrefl : Outside x x := (Stray.start hs hf).toOutside
  unfold xfsWrite
  rw [hfd]
  simp only
  split
  · exact hrefl
  split
  · exact hrefl
  have hloop : Stray x _ _ := writeLoop_rule (stray_kept hg hs) (x.fds i).offset data
    data.length (.start hs hf) (show InBounds ((x.fds i).offset + 0) _ from hin)
  rw [writeInode_setFd]
  exact (hloop.toOutside.write hg hs hf.range.1 hf.inode _).setFd _ _

theorem xfsFtruncate_outside : Outside x (xfsFtruncate x pid fd size).2 := by
  have hrefl : Outside x x := (Stray.start hs hf).toOutside
  unfold xfsFtruncate
  rw [hfd]
  simp only
  split
  · exact hrefl
  split
  · -- a shrink frees blocks that the descriptor's inode lists
    have hfree : ∀ n, Outside x (freeData x (readInode x (x.fds i).inodeBlock) n
        (blockCount (readInode x (x.fds i).inodeBlock))) := by
      intro n
      refine ⟨(freeData_frame hg).mono fun _ h => h.elim, fun b hb => ?_⟩
      rw [bitmapGet_freeData hg (hb.range hs).2]
      refine ⟨hrefl.used b hb, fun k _ hk _ he => ?_⟩
      exact (hf.block k hk).2.2 (he ▸ hb)
    exact (hfree _).write hg hs hf.range.1 hf.inode _
  · have hloop : Stray x _ _ := extendLoop_rule (stray_kept hg hs)
      (neededBlocks (size.toNat % 2 ^ 32))
      (neededBlocks (size.toNat % 2 ^ 32) - blockCount (readInode x (x.fds i).inodeBlock))
      (.start hs hf)
    exact hloop.toOutside.write hg hs hf.range.1 hf.inode _

end

/-- The two disks are the same outside the tree of the first. -/
structure SameOutside (x y : Fs) : Prop where
  same : SameGlobals x y
  fds : y.fds = x.fds
  read : ∀ b, ¬ Named x b → y.read b = x.read b

theorem readLoop_congr (h : ∀ j, j < blockCount inode →
    y.read (dataBlock inode j) = x.read (dataBlock inode j)) (offset count fuel : ℕ)
    (acc : List Byte) :
    readLoop y inode offset count fuel acc = readLoop x inode offset count fuel acc := by
  induction fuel generalizing acc with
  | zero => rfl
  | succ fuel ih =>
    unfold readLoop
    split
    · rfl
    simp only
    split
    · rfl
    · rw [h _ (by omega)]
      exact ih _

section

variable (h : SameOutside x y) (hfd : fdOf x pid fd = some i)
  (hf : Unrecycled x (x.fds i).inodeBlock)
include h hfd hf

theorem xfsRead_outside (count : ℕ) : (xfsRead y pid fd count).1 = (xfsRead x pid fd count).1 ∧
      (xfsRead y pid fd count).2.1 = (xfsRead x pid fd count).2.1 := by
  have hinode : readInode y (x.fds i).inodeBlock = readInode x (x.fds i).inodeBlock :=
    readInode_congr h.same (h.read _ hf.inode)
  have hread : ∀ offset count fuel acc,
      readLoop y (readInode x (x.fds i).inodeBlock) offset count fuel acc =
        readLoop x (readInode x (x.fds i).inodeBlock) offset count fuel acc :=
    readLoop_congr fun j hj => h.read _ (hf.block j hj).2.2
  unfold xfsRead
  rw [fdOf_congr h.fds, hfd, h.fds]
  simp only [hinode, hread]
  split <;> exact ⟨rfl, rfl⟩

theorem xfsFstat_outside : xfsFstat y pid fd = xfsFstat x pid fd := by
  have hinode : readInode y (x.fds i).inodeBlock = readInode x (x.fds i).inodeBlock :=
    readInode_congr h.same (h.read _ hf.inode)
  unfold xfsFstat
  rw [fdOf_congr h.fds, hfd, h.fds]
  simp only [hinode]

end

end Calls

/-! ## Runs -/

/-- What a call has to respect: as `Orderly`, but writes and truncations may also go
through a descriptor of an unlinked file that is outside the tree. -/
def Careful (x : Fs) : Call → Prop
  | .write pid fd data => ∀ i, fdOf x pid fd = some i → data ≠ [] → Writable (x.fds i) →
      (LiveFile x (x.fds i).inodeBlock ∨ Unrecycled x (x.fds i).inodeBlock) ∧
        InBounds (x.fds i).offset (readInode x (x.fds i).inodeBlock)
  | .ftruncate pid fd size => ∀ i, fdOf x pid fd = some i → 0 ≤ size →
      (LiveFile x (x.fds i).inodeBlock ∧
        (size.toNat % 2 ^ 32 ≤ inodeSize (readInode x (x.fds i).inodeBlock) →
          neededBlocks (size.toNat % 2 ^ 32) ≤ blockCount (readInode x (x.fds i).inodeBlock))) ∨
      Unrecycled x (x.fds i).inodeBlock
  | call => Orderly x call

/-- A careful call is orderly, or goes through a descriptor of an unlinked file. -/
theorem Careful.cases (hg : Geometry x) (hs : (tree x).Sound) (h : Careful x call) :
    Orderly x call ∨ Outside x (exec x call).2 := by
  cases call with
  | write pid fd data =>
    by_cases hall : Orderly x (.write pid fd data)
    · exact .inl hall
    simp only [Orderly, not_forall] at hall
    obtain ⟨i, hfd, hdata, hw, hno⟩ := hall
    obtain ⟨hfile, hin⟩ := h i hfd hdata hw
    rcases hfile with hfile | hun
    · exact absurd ⟨hfile, hin⟩ hno
    · exact .inr (xfsWrite_outside hg hs hfd hun hin)
  | ftruncate pid fd size =>
    by_cases hall : Orderly x (.ftruncate pid fd size)
    · exact .inl hall
    simp only [Orderly, not_forall] at hall
    obtain ⟨i, hfd, hsize, hno⟩ := hall
    rcases h i hfd hsize with hfile | hun
    · exact absurd hfile hno
    · exact .inr (xfsFtruncate_outside hg hs hfd hun)
  | «open» | close | read | mkdir | readdir | lseek | stat | fstat | unlink | «exists» =>
    exact .inl h

/-- What careful runs keep. -/
structure Intact (x : Fs) : Prop where
  geometry : Geometry x
  sound : (tree x).Sound

theorem Intact.step (h : Intact x) (hc : Careful x call) (hstep : Step x call y) : Intact y := by
  rw [← hstep]
  rcases hc.cases h.geometry h.sound with ho | ho
  · obtain ⟨hsame, heff⟩ := exec_effect h.geometry h.sound ho
    exact ⟨h.geometry.same hsame, heff.sound h.sound⟩
  · exact ⟨h.geometry.same ho.frame.same, ho.sound h.sound⟩

theorem Intact.run (h : Intact x) (hrun : Run Step Careful x calls y) : Intact y :=
  hrun.invariant h fun _ _ _ h hc hstep => h.step hc hstep

/-- Just after its removal a file is outside the tree. -/
theorem unrecycled_of_remove (hs : (tree x).Sound)
    (hrem : BlockTree.Remove (tree x) (tree y) p db d f)
    (hframe : Frame x y (· = (tree x).slot p db)) : Unrecycled y f := by
  have hf : (tree x).Live f := .child hrem.parent hrem.was
  have hfr : x.dataStart ≤ f ∧ f < x.total := hs.live_range hf
  have hne : f ≠ (tree x).slot p db := (hs.live_ne_slot hf hrem.parent hrem.was.index).symm
  have hinode : readInode y f = readInode x f :=
    readInode_congr hframe.same (hframe.read f hfr.1 hne)
  refine ⟨?_, ?_, ?_, ?_⟩
  · rw [hframe.same.dataStart, hframe.same.total]; exact hfr
  · rintro ⟨o, ho⟩
    exact ((hrem.refers_iff hs).1 ho).2.1 rfl
  · rw [hinode]
    exact ⟨hs.count_le hf, fun j hj hj' => hs.zero hf hj hj'⟩
  · intro j hj
    rw [hinode] at hj ⊢
    have hr : x.dataStart ≤ dataBlock (readInode x f) j ∧ dataBlock (readInode x f) j < x.total :=
      hs.slot_range hf hj
    rw [hframe.same.dataStart, hframe.same.total]
    refine ⟨hr.1, hr.2, ?_⟩
    rintro ⟨o, ho⟩
    obtain ⟨ho, -, hslot⟩ := (hrem.refers_iff hs).1 ho
    exact hslot j (hs.unique ho (u := .slot f j) ⟨hf, hj, rfl⟩)

/-- The calls in question, through the descriptor `i`. -/
inductive Through (x : Fs) (i : ℕ) : Call → Prop
  | read {pid : ℕ} {fd : ℤ} (count : ℕ) : fdOf x pid fd = some i → Through x i (.read pid fd count)
  | fstat {pid : ℕ} {fd : ℤ} : fdOf x pid fd = some i → Through x i (.fstat pid fd)
  | write {pid : ℕ} {fd : ℤ} (data : List Byte) : fdOf x pid fd = some i →
      InBounds (x.fds i).offset (readInode x (x.fds i).inodeBlock) →
      Through x i (.write pid fd data)
  | ftruncate {pid : ℕ} {fd : ℤ} (size : ℤ) : fdOf x pid fd = some i →
      Through x i (.ftruncate pid fd size)

/-- The call returns bytes of the disk. -/
def Returns : Call → Prop
  | .read _ _ _ | .fstat _ _ => True
  | _ => False

/-- The call neither changes nor shows anything that the tree names. -/
structure Isolated (x : Fs) (call : Call) : Prop where
  contents : ∀ b, Named x b → (exec x call).2.read b = x.read b
  bitmap : ∀ b, Named x b → bitmapGet (exec x call).2 b = bitmapGet x b
  reply : Returns call → ∀ y, SameOutside x y → (exec y call).1 = (exec x call).1

theorem Outside.isolated (hs : (tree x).Sound) (h : Outside x (exec x call).2)
    (hr : Returns call → ∀ y, SameOutside x y → (exec y call).1 = (exec x call).1) :
    Isolated x call where
  contents b hb := h.frame.read b (hb.range hs).1 (not_not.2 hb)
  bitmap b hb := by
    obtain ⟨o, ho⟩ := hb
    have hu : bitmapGet x b = true := hs.used ho
    rw [h.used b ⟨o, ho⟩, hu]
  reply := hr

theorem Intact.isolated (h : Intact x) (hthrough : Through x i call)
    (hf : Unrecycled x (x.fds i).inodeBlock) : Isolated x call := by
  have hrefl : Outside x x := (Stray.start h.sound hf).toOutside
  cases hthrough with
  | read count hfd =>
    refine Outside.isolated h.sound ?_ fun _ y hy => ?_
    · simp only [exec, xfsRead, hfd]
      split
      · exact hrefl
      · exact hrefl.setFd _ _
    · obtain ⟨h₁, h₂⟩ := xfsRead_outside hy hfd hf count
      simp only [exec, h₁, h₂]
  | fstat hfd =>
    refine Outside.isolated h.sound hrefl fun _ y hy => ?_
    simp only [exec, xfsFstat_outside hy hfd hf]
  | write data hfd hin =>
    exact Outside.isolated h.sound (xfsWrite_outside h.geometry h.sound hfd hf hin) False.elim
  | ftruncate size hfd =>
    exact Outside.isolated h.sound (xfsFtruncate_outside h.geometry h.sound hfd hf) False.elim

/-- **Unlink isolation.**  A file is unlinked in a careful run.  Its blocks are then
outside the tree; and in every later state, while they are, a read, write, `fstat` or
truncation through a descriptor of the file changes no inode, data block or bitmap bit
of a file or directory of that state, and returns nothing that depends on them. -/
theorem unlink_isolation (hfit : Fits x₀) (hmount : xfsMount (xfsFormat x₀) = some x)
    {before after : List Call} {w : Fs} (hbefore : Run Step Careful x before y) {path : List Byte}
    {ino p db d : ℕ} (htarget : unlinkTarget y path = some (ino, p, db, d))
    (hunlink : Careful y (.unlink path))
    (hafter : Run Step Careful (exec y (.unlink path)).2 after w) :
    Unrecycled (exec y (.unlink path)).2 ino ∧
    ∀ i call, (w.fds i).inodeBlock = ino → Through w i call → Unrecycled w ino →
      Isolated w call := by
  obtain ⟨z, hz, hblank⟩ := mount_format hfit
  obtain rfl : x = z := Option.some.inj (hmount.symm.trans hz)
  have hy : Intact y := Intact.run ⟨hblank.geometry, hblank.sound⟩ hbefore
  have hw : Intact w := (hy.step hunlink rfl).run hafter
  refine ⟨?_, ?_⟩
  · rcases xfsUnlink_spec hy.geometry hy.sound hunlink with
      he | ⟨z, q, db', d', f, he, ht, -, -, hrem, hfr, -⟩
    · unfold xfsUnlink at he
      rw [htarget] at he
      cases congrArg Prod.fst he
    cases Option.some.inj (htarget.symm.trans ht)
    simp only [exec, he]
    exact unrecycled_of_remove hy.sound hrem hfr
  · rintro i call rfl hthrough hun
    exact hw.isolated hthrough hun

/-! ## Recycled blocks -/

/-- **An old descriptor reaches a new file.**  Process 1 creates `/a` and keeps it open,
`/a` is unlinked, and process 2 creates `/b`, which gets the same blocks.  A truncation
through the descriptor of process 1 changes the size of `/b`. -/
theorem old_descriptor_reaches_new_file :
    ∃ x y z w, Run Step (fun _ _ => True) (freshDisk 8) [.open 1 [slash, 0x61#8] 6] x ∧
      Step x (.unlink [slash, 0x61#8]) y ∧ Step y (.open 2 [slash, 0x62#8] 6) z ∧
      Step z (.ftruncate 1 0 4096) w ∧
      (resolvePath x [slash, 0x61#8] = some 4 ∧ (x.fds 0).inodeBlock = 4) ∧
      (resolvePath y [slash, 0x61#8] = none ∧ resolvePath y [slash, 0x62#8] = none) ∧
      (z.fds 1).pid = 2 ∧ (z.fds 1).inodeBlock = 4 ∧ inodeSize (readInode z 4) = 0 ∧
      inodeSize (readInode w 4) = 4096 := by
  refine ⟨_, _, _, _, run_execs _ _, rfl, rfl, rfl, ?_, ?_, ?_⟩
  · decide +kernel
  · decide +kernel
  · decide +kernel

/-- The new entry of an open goes to the root directory. -/
theorem careful_open_root (hs : (tree x).Sound) (hb : b = 0x61#8 ∨ b = 0x62#8) (pid flags : ℕ) :
    Careful x (.open pid [slash, b] flags) := by
  intro _ _ p h
  rcases hb with rfl | rfl <;>
  · cases h
    exact ⟨.root, hs.rootDir⟩

theorem careful_unlink_root (ht : unlinkTarget x path = some (f, x.rootBlock, db, d))
    (hdir : (tree x).dir x.rootBlock = true) : Careful x (.unlink path) := by
  intro ino p db d h
  cases Option.some.inj (ht.symm.trans h)
  exact ⟨.root, hdir⟩

/-- Two files are created, both are removed, and the second is written through the descriptor that is
left. -/
theorem unlink_isolation_small_disk :
    ∃ y, Run Step Careful (freshDisk 8) [.open 1 [slash, 0x61#8] 6, .open 1 [slash, 0x62#8] 6,
        .unlink [slash, 0x61#8]] y ∧
      Isolated (exec y (.unlink [slash, 0x62#8])).2 (.write 1 1 [1#8]) := by
  have hblank : Intact (freshDisk 8) := ⟨blank_freshDisk.geometry, blank_freshDisk.sound⟩
  have ha : Careful (freshDisk 8) (.open 1 [slash, 0x61#8] 6) :=
    careful_open_root hblank.sound (.inl rfl) 1 6
  have hb := careful_open_root (hblank.step ha rfl).sound (.inr rfl) 1 6
  obtain ⟨x, hx, hfirst, hdir⟩ : ∃ x, x = (exec (exec (freshDisk 8) (.open 1 [slash, 0x61#8] 6)).2
        (.open 1 [slash, 0x62#8] 6)).2 ∧
      unlinkTarget x [slash, 0x61#8] = some (4, x.rootBlock, 0, 0) ∧
      (tree x).dir x.rootBlock = true := ⟨_, rfl, by decide +kernel⟩
  obtain ⟨y, hy, htarget, hdir', hfd, hino, hoff⟩ : ∃ y, y = (exec x (.unlink [slash, 0x61#8])).2 ∧
      unlinkTarget y [slash, 0x62#8] = some (6, y.rootBlock, 0, 1) ∧
      (tree y).dir y.rootBlock = true ∧
      fdOf (exec y (.unlink [slash, 0x62#8])).2 1 1 = some 1 ∧
      ((exec y (.unlink [slash, 0x62#8])).2.fds 1).inodeBlock = 6 ∧
      ((exec y (.unlink [slash, 0x62#8])).2.fds 1).offset = 0 :=
    ⟨_, rfl, by rw [hx]; decide +kernel⟩
  have hrun : Run Step Careful (freshDisk 8) [.open 1 [slash, 0x61#8] 6,
      .open 1 [slash, 0x62#8] 6, .unlink [slash, 0x61#8]] y :=
    .cons ha rfl <| .cons hb hx.symm <| .cons (careful_unlink_root hfirst hdir) hy.symm .nil
  obtain ⟨hun, hiso⟩ := unlink_isolation ⟨by decide, by decide⟩ mount_freshDisk hrun htarget
    (careful_unlink_root htarget hdir') .nil
  refine ⟨y, hrun, hiso 1 _ hino (.write _ hfd ?_) hun⟩
  rw [hoff]
  exact .inl (by decide)

end Xos.Xfs
