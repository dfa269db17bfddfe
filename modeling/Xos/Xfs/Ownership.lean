import Xos.Lib.Run
import Xos.Xfs.Format
import Xos.Xfs.Resize

/-!
# Every block has one owner

Runs of calls on a freshly formatted disk.  The code lets a call treat file bytes as
directory entries, or a freed block as the inode of a descriptor; then blocks are named
twice, or from outside the disk (`dirent_out_of_range`).  `Orderly` says of each call
that it does not; under it

* each block named from the tree lies in the data area, is marked used and has one owner,
  and each used block of the data area has one — `block_ownership`.
-/

namespace Xos.Xfs

open Xos.Lib

variable {x y x₀ : Fs} {path : List Byte} {call : Call}

/-! ## Orderly calls -/

/-- The block is the inode of a file in the tree. -/
def LiveFile (x : Fs) (p : ℕ) : Prop := (tree x).Live p ∧ (tree x).dir p = false

/-- The block is the inode of a directory in the tree. -/
def LiveDir (x : Fs) (p : ℕ) : Prop := (tree x).Live p ∧ (tree x).dir p = true

/-- The path is absolute and there is nothing under it, so that the call may create it. -/
def Creates (x : Fs) (path : List Byte) : Prop :=
  path.head? = some slash ∧ resolvePath x path = none

/-- The descriptor call on the file writes. -/
def Writable (f : Fd) : Prop := (f.flags.testBit 0 || f.flags.testBit 1) = true

/-- What a call has to respect, in the state it is made in:

* a new entry goes into a directory, and a new directory's block holds no old entries;
* an entry is removed from a directory only;
* a write goes through a descriptor of a file that is still in the tree, and starts in
  one of the direct blocks unless they are all taken;
* a truncation likewise, and a shrink asks for no more blocks than there are. -/
def Orderly (x : Fs) : Call → Prop
  | .open _ path flags => Creates x path → flags.testBit 2 = true →
      ∀ p, parentInode x path = some p → LiveDir x p
  | .mkdir path => Creates x path →
      (∀ p, parentInode x path = some p → LiveDir x p) ∧
      ∀ b, freshData x = some b → ∀ e, e < maxDents → entInode (x.read b) e = 0
  | .unlink path => ∀ ino p db d, unlinkTarget x path = some (ino, p, db, d) → LiveDir x p
  | .write pid fd data => ∀ i, fdOf x pid fd = some i → data ≠ [] → Writable (x.fds i) →
      LiveFile x (x.fds i).inodeBlock ∧
        InBounds (x.fds i).offset (readInode x (x.fds i).inodeBlock)
  | .ftruncate pid fd size => ∀ i, fdOf x pid fd = some i → 0 ≤ size →
      LiveFile x (x.fds i).inodeBlock ∧
        (size.toNat % 2 ^ 32 ≤ inodeSize (readInode x (x.fds i).inodeBlock) →
          neededBlocks (size.toNat % 2 ^ 32) ≤ blockCount (readInode x (x.fds i).inodeBlock))
  | _ => True

/-! ## The effect of a call -/

/-- No entry of the tree changes; a file may have other data blocks. -/
structure Quiet (x y : Fs) : Prop where
  edit : (BlockTree.Agree (tree x) (tree y) ∧ ∀ b, b < x.total → bitmapGet y b = bitmapGet x b) ∨
    ∃ f, BlockTree.Resize (tree x) (tree y) f
  entries : ∀ q, DirBlock x q → y.read q = x.read q

/-- What a call does to the tree. -/
inductive Effect (x y : Fs) : Prop
  | quiet : Quiet x y → Effect x y
  | create {path : List Byte} {flags p db d ino data : ℕ} {z : Fs} :
      Made x z path flags p db d ino data → tree y = tree z → Effect x y
  | remove {p db d f : ℕ} : BlockTree.Remove (tree x) (tree y) p db d f → Effect x y

theorem Unchanged.quiet (h : Unchanged x y) : Quiet x y :=
  ⟨.inl ⟨h.agree, h.used⟩, fun q hq => h.held q (.inr hq)⟩

theorem Quiet.refl (hs : (tree x).Sound) : Quiet x x := (Unchanged.refl hs).quiet

/-- A change of the descriptors is no change of the tree. -/
theorem Quiet.setFd (h : Quiet x y) (i : ℕ) (f : Fd) : Quiet x (y.setFd i f) := ⟨h.edit, h.entries⟩

theorem Quiet.dirBlock_iff (h : Quiet x y) : DirBlock y q ↔ DirBlock x q := by
  rcases h.edit with ⟨ha, -⟩ | ⟨f, hr⟩
  · exact DirBlock.agree_iff ha
  · exact DirBlock.resize_iff hr

theorem Effect.setFd (h : Effect x y) (i : ℕ) (f : Fd) : Effect x (y.setFd i f) := by
  cases h with
  | quiet hq => exact .quiet (hq.setFd i f)
  | create hm ht => exact .create hm ht
  | remove hr => exact .remove hr

theorem openFd_eq (x : Fs) (pid ino flags : ℕ) :
    (∃ (i : ℕ) (f : Fd), openFd x pid ino flags = ((i : ℤ), x.setFd i f)) ∨
      openFd x pid ino flags = (-1, x) := by
  unfold openFd
  split
  · exact .inr rfl
  · exact .inl ⟨_, _, rfl⟩

section

variable (hg : Geometry x) (hs : (tree x).Sound)
include hg hs

theorem xfsOpen_effect (ho : Orderly x (.open pid path flags)) :
    SameGlobals x (xfsOpen x pid path flags).2 ∧ Effect x (xfsOpen x pid path flags).2 := by
  -- handing out a descriptor adds nothing
  have hopen : ∀ {z : Fs} {ino : ℕ}, SameGlobals x z ∧ Effect x z →
      SameGlobals x (openFd z pid ino flags).2 ∧ Effect x (openFd z pid ino flags).2 := by
    rintro z ino ⟨h₁, h₂⟩
    rcases openFd_eq z pid ino flags with ⟨i, f, he⟩ | he
    · rw [he]; exact ⟨h₁.trans (setFd_same _ _ _), h₂.setFd i f⟩
    · rw [he]; exact ⟨h₁, h₂⟩
  have hrefl : SameGlobals x x ∧ Effect x x := ⟨.refl x, .quiet (.refl hs)⟩
  unfold xfsOpen
  split
  · exact hrefl
  rename_i hhead
  cases hr : resolvePath x path with
  | some => exact hopen hrefl
  | none =>
    simp only
    split
    · exact hrefl
    rename_i hcreat
    have hpar := ho ⟨not_not.1 hhead, hr⟩ (by simpa using hcreat)
    rcases createEntry_spec hg hs 0 (by decide) hpar (by simp) with
      ⟨z, hz, hu, -⟩ | ⟨z, p, db, d, ino, data, hz, hm⟩
    · rw [hz]; exact ⟨hu.same, .quiet hu.quiet⟩
    · rw [hz]; exact hopen ⟨hm.same, .create hm rfl⟩

theorem xfsMkdir_effect (ho : Orderly x (.mkdir path)) :
    SameGlobals x (xfsMkdir x path).2 ∧ Effect x (xfsMkdir x path).2 := by
  have hrefl : SameGlobals x x ∧ Effect x x := ⟨.refl x, .quiet (.refl hs)⟩
  unfold xfsMkdir
  split
  · exact hrefl
  rename_i hhead
  cases hr : resolvePath x path with
  | some => exact hrefl
  | none =>
    obtain ⟨hpar, hempty⟩ := ho ⟨not_not.1 hhead, hr⟩
    rcases createEntry_spec hg hs 1 (by decide) hpar (fun _ => hempty) with
      ⟨z, hz, hu, -⟩ | ⟨z, p, db, d, ino, data, hz, hm⟩
    · simp only [hz]; exact ⟨hu.same, .quiet hu.quiet⟩
    · simp only [hz]; exact ⟨hm.same, .create hm rfl⟩

theorem xfsWrite_quiet (ho : Orderly x (.write pid fd data)) :
    SameGlobals x (xfsWrite x pid fd data).2 ∧ Quiet x (xfsWrite x pid fd data).2 := by
  have hrefl : SameGlobals x x ∧ Quiet x x := ⟨.refl x, .refl hs⟩
  cases hfd : fdOf x pid fd with
  | none => simp only [xfsWrite, hfd]; exact hrefl
  | some i =>
    by_cases hdata : data = []
    · simp only [xfsWrite, hfd, hdata]; exact hrefl
    by_cases hw : ((x.fds i).flags.testBit 0 || (x.fds i).flags.testBit 1) = true
    · obtain ⟨⟨hf, hfile⟩, hin⟩ := ho i hfd hdata hw
      obtain ⟨z, hz, hsame, -, hres, -, hheld⟩ := xfsWrite_spec hg hs hfd hdata hw hf hfile hin
      rw [hz]
      exact ⟨hsame, .inr ⟨_, hres⟩, fun q hq => hheld q (.inr hq) (hq.ne_live hs hf)⟩
    · simp only [xfsWrite, hfd, hdata, hw]
      exact hrefl

theorem xfsFtruncate_quiet (ho : Orderly x (.ftruncate pid fd size)) :
    SameGlobals x (xfsFtruncate x pid fd size).2 ∧ Quiet x (xfsFtruncate x pid fd size).2 := by
  have hrefl : SameGlobals x x ∧ Quiet x x := ⟨.refl x, .refl hs⟩
  cases hfd : fdOf x pid fd with
  | none => simp only [xfsFtruncate, hfd]; exact hrefl
  | some i =>
    by_cases hsize : size < 0
    · simp only [xfsFtruncate, hfd, hsize]; exact hrefl
    obtain ⟨⟨hf, hfile⟩, hneed⟩ := ho i hfd (by omega)
    obtain ⟨z, hz, hsame, -, hres, -, hheld⟩ :=
      xfsFtruncate_spec hg hs hfd (by omega) hf hfile hneed
    rw [hz]
    exact ⟨hsame, .inr ⟨_, hres⟩, fun q hq => hheld q (.inr hq) (hq.ne_live hs hf)⟩

end

/-- The calls that may add or remove an entry. -/
def Call.Renames : Call → Prop
  | .open _ _ _ | .mkdir _ | .unlink _ => True
  | _ => False

/-- The other calls leave the entries alone. -/
theorem exec_quiet (hg : Geometry x) (hs : (tree x).Sound) (ho : Orderly x call)
    (hcall : ¬ call.Renames) : SameGlobals x (exec x call).2 ∧ Quiet x (exec x call).2 := by
  have hrefl : SameGlobals x x ∧ Quiet x x := ⟨.refl x, .refl hs⟩
  have hfd : ∀ (i : ℕ) (f : Fd), SameGlobals x (x.setFd i f) ∧ Quiet x (x.setFd i f) :=
    fun i f => ⟨setFd_same x i f, (Quiet.refl hs).setFd i f⟩
  cases call with
  | «open» | mkdir | unlink => exact absurd trivial hcall
  | close =>
    simp only [exec, xfsClose]
    split
    · exact hfd _ _
    · exact hrefl
  | read =>
    simp only [exec, xfsRead]
    split
    · exact hrefl
    split
    · exact hrefl
    · exact hfd _ _
  | write => exact xfsWrite_quiet hg hs ho
  | lseek =>
    simp only [exec, xfsLseek]
    split
    · exact hrefl
    split
    · exact hrefl
    split
    · exact hrefl
    · exact hfd _ _
  | ftruncate => exact xfsFtruncate_quiet hg hs ho
  | readdir | stat | fstat | «exists» => exact hrefl

/-- **One edit for each call.** -/
theorem exec_effect (hg : Geometry x) (hs : (tree x).Sound) (ho : Orderly x call) :
    SameGlobals x (exec x call).2 ∧ Effect x (exec x call).2 := by
  by_cases hcall : call.Renames
  · cases call with
    | «open» => exact xfsOpen_effect hg hs ho
    | mkdir => exact xfsMkdir_effect hg hs ho
    | unlink =>
      rcases xfsUnlink_spec hg hs ho with he | ⟨z, p, db, d, ino, he, -, hsame, -, hrem, -⟩
      · simp only [exec, he]; exact ⟨.refl x, .quiet (.refl hs)⟩
      · simp only [exec, he]; exact ⟨hsame, .remove hrem⟩
    | _ => exact hcall.elim
  · obtain ⟨hsame, hq⟩ := exec_quiet hg hs ho hcall
    exact ⟨hsame, .quiet hq⟩

theorem Quiet.sound (h : Quiet x y) (hs : (tree x).Sound) : (tree y).Sound := by
  rcases h.edit with ⟨ha, hu⟩ | ⟨f, hr⟩
  · exact hs.agree ha fun hr => (hu _ (hs.range hr).2).trans (hs.used hr)
  · exact hs.resize hr

theorem Effect.sound (h : Effect x y) (hs : (tree x).Sound) : (tree y).Sound := by
  cases h with
  | quiet hq => exact hq.sound hs
  | create hm ht => rw [ht]; exact hs.create hm.create (show 1 ≤ maxDirect by decide)
  | remove hr => exact hs.remove hr

theorem Effect.complete (h : Effect x y) (hs : (tree x).Sound) (hc : (tree x).Complete) :
    (tree y).Complete := by
  cases h with
  | quiet hq =>
    rcases hq.edit with ⟨ha, hu⟩ | ⟨f, hr⟩
    · exact hc.agree ha fun b hb hy => (hu b hb).symm.trans hy
    · exact hc.resize hr
  | create hm ht => rw [ht]; exact hc.create hm.create
  | remove hr => exact hc.remove hs hr

/-- What orderly runs keep. -/
structure Owned (x : Fs) : Prop where
  geometry : Geometry x
  sound : (tree x).Sound
  complete : (tree x).Complete

theorem Owned.step (h : Owned x) (ho : Orderly x call) (hstep : Step x call y) : Owned y := by
  obtain ⟨hsame, heff⟩ := exec_effect h.geometry h.sound ho
  rw [← hstep]
  exact ⟨h.geometry.same hsame, heff.sound h.sound, heff.complete h.sound h.complete⟩

theorem Blank.owned (h : Blank x) : Owned x := ⟨h.geometry, h.sound, h.complete⟩

/-- **Block ownership.**  On a disk formatted on a device that it fits, after any run of
orderly calls: every block named from the tree lies in the data area, is marked used and
is named once; and every block of the data area that is marked used is named. -/
theorem block_ownership (hfit : Fits x₀) (hmount : xfsMount (xfsFormat x₀) = some x)
    {calls : List Call} (hrun : Run Step Orderly x calls y) :
    (∀ o b, (tree y).Refers o b → y.dataStart ≤ b ∧ b < y.total ∧ bitmapGet y b = true) ∧
    (∀ o o' b, (tree y).Refers o b → (tree y).Refers o' b → o = o') ∧
    ∀ b, y.dataStart ≤ b → b < y.total → bitmapGet y b = true → ∃ o, (tree y).Refers o b := by
  obtain ⟨z, hz, hblank⟩ := mount_format hfit
  obtain rfl : x = z := Option.some.inj (hmount.symm.trans hz)
  have hown : Owned y := hrun.invariant hblank.owned fun _ _ _ h ho hstep => h.step ho hstep
  refine ⟨fun o b hr => ?_, fun o o' b hr hr' => hown.sound.unique hr hr', hown.complete⟩
  have hrange := hown.sound.range hr
  exact ⟨hrange.1, hrange.2, hown.sound.used hr⟩

/-! ## Small disks -/

/-- A device of `n` zeroed blocks. -/
def emptyDevice (n : ℕ) : Fs where
  dev := { blockCount := n, data := fun _ _ => 0#8 }
  stack := fun _ => 0#8
  total := 0
  bitmapBlocks := 0
  dataStart := 0
  rootBlock := 0
  fds := fun _ => noFd

/-- The device, formatted and mounted. -/
def freshDisk (n : ℕ) : Fs := (xfsMount (xfsFormat (emptyDevice n))).getD (emptyDevice n)

/-- The state after a list of calls. -/
def execs (x : Fs) (calls : List Call) : Fs := calls.foldl (fun x call => (exec x call).2) x

theorem run_execs (x : Fs) (calls : List Call) :
    Run Step (fun _ _ => True) x calls (execs x calls) := by
  induction calls generalizing x with
  | nil => exact .nil
  | cons call calls ih => exact .cons trivial rfl (ih _)

theorem mount_freshDisk : xfsMount (xfsFormat (emptyDevice 8)) = some (freshDisk 8) := by
  obtain ⟨y, hy, -⟩ := mount_format (x := emptyDevice 8) ⟨by decide, by decide⟩
  rfl

theorem blank_freshDisk : Blank (freshDisk 8) := by
  obtain ⟨y, hy, hblank⟩ := mount_format (x := emptyDevice 8) ⟨by decide, by decide⟩
  obtain rfl := Option.some.inj (mount_freshDisk.symm.trans hy)
  exact hblank

/-- **File bytes as a directory.**  A process opens the root directory for writing and
writes an entry that names block 9 of a disk of 8 blocks. -/
theorem dirent_out_of_range : ∃ y, Run Step (fun _ _ => True) (freshDisk 8)
        [.open 1 [slash] 1, .write 1 0 (List.replicate 64 0#8 ++ [9#8, 0#8, 0#8, 0#8])] y ∧
      (tree y).Refers (.entry 2 0 0) 9 ∧ y.total = 8 := by
  refine ⟨_, run_execs _ _, ?_, by decide +kernel⟩
  have hroot : (tree (execs (freshDisk 8) [.open 1 [slash] 1,
      .write 1 0 (List.replicate 64 0#8 ++ [9#8, 0#8, 0#8, 0#8])])).root = 2 := by decide +kernel
  refine ⟨?_, by decide +kernel, by decide +kernel, by decide, by decide +kernel, by decide⟩
  exact .root

/-- The inode that the first entry of the root directory names is in the tree. -/
theorem live_first_entry (h : (tree x).dir (tree x).root = true ∧
    0 < (tree x).count (tree x).root ∧ (tree x).ent ((tree x).slot (tree x).root 0) 0 = c ∧ c ≠ 0) :
    (tree x).Live c :=
  .child .root ⟨h.1, h.2.1, (by decide : 0 < maxDents), h.2.2.1, h.2.2.2⟩

/-- The disk with a new file `/f`, open as descriptor 0. -/
def oneFile : Fs := execs (freshDisk 8) [.open 1 [slash, 0x66#8] 6]

theorem orderly_oneFile : Orderly (freshDisk 8) (.open 1 [slash, 0x66#8] 6) := by
  intro _ _ p h
  obtain rfl : (freshDisk 8).rootBlock = p := Option.some.inj h
  exact ⟨.root, blank_freshDisk.sound.rootDir⟩

/-- The file has the blocks 4 and 5. -/
theorem oneFile_fd (h : fdOf oneFile 1 0 = some i) :
    i = 0 ∧ (oneFile.fds i).inodeBlock = 4 ∧ (oneFile.fds i).offset = 0 ∧ LiveFile oneFile 4 := by
  have hi : fdOf oneFile 1 0 = some 0 ∧ (oneFile.fds 0).inodeBlock = 4 ∧
      (oneFile.fds 0).offset = 0 := by decide +kernel
  obtain rfl := Option.some.inj (hi.1.symm.trans h)
  exact ⟨rfl, hi.2.1, hi.2.2, live_first_entry (by decide +kernel), by decide +kernel⟩

theorem orderly_write_oneFile (data : List Byte) : Orderly oneFile (.write 1 0 data) := by
  intro i h _ _
  obtain ⟨-, hino, hoff, hfile⟩ := oneFile_fd h
  rw [hino, hoff]
  exact ⟨hfile, .inl (by decide)⟩

/-- An entry of the root directory is removed. -/
theorem orderly_unlink (ht : unlinkTarget x path = some (c, x.rootBlock, b, d))
    (hdir : (tree x).dir x.rootBlock = true) : Orderly x (.unlink path) := by
  intro ino p db d h
  cases Option.some.inj (ht.symm.trans h)
  exact ⟨.root, hdir⟩

/-- A file is created, written and removed. -/
theorem block_ownership_small_disk : ∃ y, Run Step Orderly (freshDisk 8)
        [.open 1 [slash, 0x66#8] 6, .write 1 0 [1#8, 2#8], .unlink [slash, 0x66#8]] y ∧
      ∀ b, y.dataStart ≤ b → b < y.total → bitmapGet y b = true → ∃ o, (tree y).Refers o b := by
  have hrun : ∃ y, Run Step Orderly (freshDisk 8)
      [.open 1 [slash, 0x66#8] 6, .write 1 0 [1#8, 2#8], .unlink [slash, 0x66#8]] y := by
    have g₃ : Orderly (execs oneFile [.write 1 0 [1#8, 2#8]]) (.unlink [slash, 0x66#8]) :=
      orderly_unlink (c := 4) (b := 0) (d := 0) (by decide +kernel) (by decide +kernel)
    exact ⟨_, .cons orderly_oneFile rfl <| .cons (orderly_write_oneFile _) rfl <|
      .cons g₃ rfl .nil⟩
  obtain ⟨y, hy⟩ := hrun
  exact ⟨y, hy, (block_ownership ⟨by decide, by decide⟩ mount_freshDisk hy).2.2⟩

end Xos.Xfs
