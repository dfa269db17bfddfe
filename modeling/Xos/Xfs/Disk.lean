import Xos.Lib.Bytes
import Mathlib.Data.Nat.Bitwise

/-!
# The disk of XFS

The block device, the allocation bitmap and the layout of inodes and directory entries
(`src/kernel/fs/xfs.c`, `src/kernel/fs/xfs.h`, `src/kernel/hal/block/block_dev.c`).

Blocks are byte buffers, and an in-memory `xfs_inode_t` or `xfs_dirent_t` is the buffer
it was copied from: its fields are words at the offsets of the C structures.

* `Fs.read`, `Fs.write` — `block_read`, `block_write`;
* `bitmapGet`, `bitmapSet`, `allocBlock`, `freeBlock`;
* `readInode`, `writeInode` and the fields of an inode;
* `entInode`, `setDirent`, `clearDirent` — the entries of a directory block.
-/

namespace Xos.Xfs

open Xos.Lib Function

/-! ## Constants -/

abbrev xfsMagic : ℕ := 0x58465331
abbrev xfsVersion : ℕ := 1
abbrev xfsBlockSize : ℕ := 4096
abbrev xfsNameMax : ℕ := 64
abbrev xfsMaxFds : ℕ := 32

/-- The length of `data_blocks`. -/
abbrev maxDirect : ℕ := 900

/-- `sizeof(xfs_inode_t)`. -/
abbrev sizeofInode : ℕ := 3676

/-- `sizeof(xfs_dirent_t)`. -/
abbrev sizeofDirent : ℕ := 76

/-- `XFS_BLOCK_SIZE / sizeof(xfs_dirent_t)`. -/
abbrev maxDents : ℕ := 53

/-! ## State -/

/-- A block device. -/
structure Disk where
  blockCount : ℕ
  data : ℕ → Bytes

/-- An entry of the descriptor table. -/
structure Fd where
  used : Bool
  pid : ℕ
  inodeBlock : ℕ
  offset : ℕ
  flags : ℕ

/-- The device, the globals of `xfs.c`, and what a buffer on the stack holds before
anything is copied into it. -/
structure Fs where
  dev : Disk
  stack : Bytes
  total : ℕ
  bitmapBlocks : ℕ
  dataStart : ℕ
  rootBlock : ℕ
  fds : ℕ → Fd

/-! ## Blocks -/

/-- `block_read`.  A read past the end fails and leaves the buffer as it is. -/
def Fs.read (x : Fs) (b : ℕ) : Bytes :=
  if b < x.dev.blockCount then x.dev.data b else x.stack

/-- `block_write`.  A write past the end fails. -/
def Fs.write (x : Fs) (b : ℕ) (buf : Bytes) : Fs :=
  if b < x.dev.blockCount then
    { x with dev := { x.dev with data := update x.dev.data b buf } }
  else x

/-! ## The bitmap -/

def bitmapGet (x : Fs) (block : ℕ) : Bool :=
  (x.read (1 + block / 8 / xfsBlockSize) (block / 8 % xfsBlockSize)).getLsbD (block % 8)

def bitmapSet (x : Fs) (block : ℕ) (used : Bool) : Fs :=
  let buf := x.read (1 + block / 8 / xfsBlockSize)
  let byte := buf (block / 8 % xfsBlockSize)
  let bit : Byte := BitVec.twoPow 8 (block % 8)
  x.write (1 + block / 8 / xfsBlockSize)
    (update buf (block / 8 % xfsBlockSize)
      (if used then byte ||| bit else byte &&& ~~~bit))

/-- `alloc_block`: the first free block of the data area. -/
def allocBlock (x : Fs) : Option ℕ × Fs :=
  match (List.range' x.dataStart (x.total - x.dataStart)).find? (fun b => !bitmapGet x b) with
  | some b => (some b, bitmapSet x b true)
  | none => (none, x)

def freeBlock (x : Fs) (block : ℕ) : Fs :=
  if x.total ≤ block then x else bitmapSet x block false

/-! ## Inodes -/

def inodeSize (inode : Bytes) : ℕ := readLE inode 64 4
def inodeFlags (inode : Bytes) : ℕ := readLE inode 68 2
def blockCount (inode : Bytes) : ℕ := readLE inode 70 2

/-- `inode->data_blocks[i]`. -/
def dataBlock (inode : Bytes) (i : ℕ) : ℕ := readLE inode (72 + 4 * i) 4

/-- `inode->flags & 1`. -/
def isDir (inode : Bytes) : Bool := (inodeFlags inode).testBit 0

def setSize (inode : Bytes) (v : ℕ) : Bytes := writeLE inode 64 4 v
def setFlags (inode : Bytes) (v : ℕ) : Bytes := writeLE inode 68 2 v
def setBlockCount (inode : Bytes) (v : ℕ) : Bytes := writeLE inode 70 2 v
def setDataBlock (inode : Bytes) (i v : ℕ) : Bytes := writeLE inode (72 + 4 * i) 4 v

/-- `read_inode`.  What lies behind the structure is the stack. -/
def readInode (x : Fs) (block : ℕ) : Bytes := fun j =>
  if j < sizeofInode then x.read block j else x.stack j

def writeInode (x : Fs) (block : ℕ) (inode : Bytes) : Fs :=
  x.write block fun j => if j < sizeofInode then inode j else x.read block j

/-- The inode of a new file or directory with the data block `data`. -/
def newInode (name : List Byte) (flags data : ℕ) : Bytes :=
  let inode := strncpy (fun _ => 0#8) 0 name (xfsNameMax - 1)
  setDataBlock (setBlockCount (setFlags (setSize inode 0) flags) 1) 0 data

/-! ## Directory entries -/

/-- `ents[d].inode_block`. -/
def entInode (sector : Bytes) (d : ℕ) : ℕ := readLE sector (sizeofDirent * d + 64) 4

/-- The text of `ents[d].name`. -/
def entName (sector : Bytes) (d : ℕ) : List Byte := cstr sector (sizeofDirent * d) xfsNameMax

/-- `strcmp(ents[d].name, name) == 0`. -/
def entMatches (sector : Bytes) (d : ℕ) (name : List Byte) : Bool :=
  strEq sector (sizeofDirent * d) name

/-- What `xfs_open` and `xfs_mkdir` store in `ents[d]`. -/
def setDirent (sector : Bytes) (d : ℕ) (name : List Byte) (ino flags : ℕ) : Bytes :=
  let s := strncpy sector (sizeofDirent * d) name (xfsNameMax - 1)
  let s := writeLE s (sizeofDirent * d + 64) 4 ino
  let s := writeLE s (sizeofDirent * d + 68) 4 0
  writeLE s (sizeofDirent * d + 72) 2 flags

/-- `memset(&ents[d], 0, sizeof(xfs_dirent_t))`. -/
def clearDirent (sector : Bytes) (d : ℕ) : Bytes :=
  zeroFill sector (sizeofDirent * d) sizeofDirent

/-! ## The fields of an inode -/

section Fields

variable {inode inode' : Bytes} {i j v : ℕ}

@[simp] theorem inodeSize_setSize : inodeSize (setSize inode v) = v % 2 ^ 32 :=
  readLE_writeLE inode 64 4 v

@[simp] theorem blockCount_setBlockCount : blockCount (setBlockCount inode v) = v % 2 ^ 16 :=
  readLE_writeLE inode 70 2 v

@[simp] theorem inodeFlags_setFlags : inodeFlags (setFlags inode v) = v % 2 ^ 16 :=
  readLE_writeLE inode 68 2 v

theorem dataBlock_setDataBlock_self : dataBlock (setDataBlock inode i v) i = v % 2 ^ 32 :=
  readLE_writeLE inode (72 + 4 * i) 4 v

theorem dataBlock_setDataBlock_of_ne (h : j ≠ i) :
    dataBlock (setDataBlock inode i v) j = dataBlock inode j :=
  readLE_writeLE_of_disjoint (by omega)

@[simp] theorem inodeSize_setFlags : inodeSize (setFlags inode v) = inodeSize inode :=
  readLE_writeLE_of_disjoint (by omega)

@[simp] theorem inodeSize_setBlockCount : inodeSize (setBlockCount inode v) = inodeSize inode :=
  readLE_writeLE_of_disjoint (by omega)

@[simp] theorem inodeSize_setDataBlock : inodeSize (setDataBlock inode i v) = inodeSize inode :=
  readLE_writeLE_of_disjoint (by omega)

@[simp] theorem inodeFlags_setSize : inodeFlags (setSize inode v) = inodeFlags inode :=
  readLE_writeLE_of_disjoint (by omega)

@[simp] theorem inodeFlags_setBlockCount : inodeFlags (setBlockCount inode v) = inodeFlags inode :=
  readLE_writeLE_of_disjoint (by omega)

@[simp] theorem inodeFlags_setDataBlock : inodeFlags (setDataBlock inode i v) = inodeFlags inode :=
  readLE_writeLE_of_disjoint (by omega)

@[simp] theorem blockCount_setSize : blockCount (setSize inode v) = blockCount inode :=
  readLE_writeLE_of_disjoint (by omega)

@[simp] theorem blockCount_setDataBlock : blockCount (setDataBlock inode i v) = blockCount inode :=
  readLE_writeLE_of_disjoint (by omega)

@[simp] theorem dataBlock_setSize : dataBlock (setSize inode v) i = dataBlock inode i :=
  readLE_writeLE_of_disjoint (by omega)

@[simp] theorem dataBlock_setFlags : dataBlock (setFlags inode v) i = dataBlock inode i :=
  readLE_writeLE_of_disjoint (by omega)

@[simp] theorem dataBlock_setBlockCount : dataBlock (setBlockCount inode v) i = dataBlock inode i :=
  readLE_writeLE_of_disjoint (by omega)

@[simp] theorem isDir_setSize : isDir (setSize inode v) = isDir inode := by simp [isDir]

@[simp] theorem isDir_setBlockCount : isDir (setBlockCount inode v) = isDir inode := by
  simp [isDir]

@[simp] theorem isDir_setDataBlock : isDir (setDataBlock inode i v) = isDir inode := by
  simp [isDir]

/-- The two buffers hold the same inode. -/
def SameFields (inode inode' : Bytes) : Prop := ∀ j, j < sizeofInode → inode j = inode' j

section

variable (h : SameFields inode inode')
include h

theorem SameFields.size : inodeSize inode = inodeSize inode' :=
  readLE_congr fun j _ hj => h j (by simp only [sizeofInode]; omega)

theorem SameFields.flags : inodeFlags inode = inodeFlags inode' :=
  readLE_congr fun j _ hj => h j (by simp only [sizeofInode]; omega)

theorem SameFields.isDir : isDir inode = isDir inode' := by
  unfold Xfs.isDir
  rw [h.flags]

theorem SameFields.count : blockCount inode = blockCount inode' :=
  readLE_congr fun j _ hj => h j (by simp only [sizeofInode]; omega)

theorem SameFields.block (hi : i ≤ maxDirect) : dataBlock inode i = dataBlock inode' i :=
  readLE_congr fun j _ hj => h j (by simp only [sizeofInode, maxDirect] at *; omega)

end

variable (name : List Byte) (flags data : ℕ)

@[simp] theorem blockCount_newInode : blockCount (newInode name flags data) = 1 := by
  simp [newInode]

@[simp] theorem inodeFlags_newInode : inodeFlags (newInode name flags data) = flags % 2 ^ 16 := by
  simp [newInode]

@[simp] theorem inodeSize_newInode : inodeSize (newInode name flags data) = 0 := by
  simp [newInode]

@[simp] theorem dataBlock_newInode_zero : dataBlock (newInode name flags data) 0 = data % 2 ^ 32 :=
  dataBlock_setDataBlock_self

@[simp] theorem dataBlock_newInode_succ : dataBlock (newInode name flags data) (i + 1) = 0 := by
  rw [newInode, dataBlock_setDataBlock_of_ne (Nat.succ_ne_zero i)]
  simp only [dataBlock_setBlockCount, dataBlock_setFlags, dataBlock_setSize]
  apply readLE_eq_zero
  intro j hj _
  exact strncpy_of_not_mem (by simp only [xfsNameMax]; omega)

end Fields

/-! ## The entries of a directory block -/

section Entries

variable {s : Bytes} {d e ino flags : ℕ} {name : List Byte}

theorem setDirent_of_not_mem (h : j < sizeofDirent * d ∨ sizeofDirent * (d + 1) ≤ j) :
    setDirent s d name ino flags j = s j := by
  simp only [sizeofDirent] at h
  unfold setDirent
  rw [writeLE_of_not_mem, writeLE_of_not_mem, writeLE_of_not_mem, strncpy_of_not_mem]
  all_goals simp only [xfsNameMax, sizeofDirent]; omega

theorem clearDirent_of_not_mem (h : j < sizeofDirent * d ∨ sizeofDirent * (d + 1) ≤ j) :
    clearDirent s d j = s j :=
  zeroFill_of_not_mem (by simp only [sizeofDirent] at *; omega)

theorem entInode_congr (h : ∀ j, sizeofDirent * d ≤ j → j < sizeofDirent * (d + 1) → s j = s' j) :
    entInode s d = entInode s' d :=
  readLE_congr fun j hj hj' => h j (by omega) (by simp only [sizeofDirent] at *; omega)

theorem entName_congr (h : ∀ j, sizeofDirent * d ≤ j → j < sizeofDirent * (d + 1) → s j = s' j) :
    entName s d = entName s' d :=
  cstr_congr fun j hj hj' => h j hj (by simp only [sizeofDirent, xfsNameMax] at *; omega)

@[simp] theorem entInode_setDirent_self :
    entInode (setDirent s d name ino flags) d = ino % 2 ^ 32 := by
  unfold entInode setDirent
  rw [readLE_writeLE_of_disjoint (by omega), readLE_writeLE_of_disjoint (by omega)]
  exact readLE_writeLE _ _ 4 ino

theorem entInode_setDirent_of_ne (h : e ≠ d) :
    entInode (setDirent s d name ino flags) e = entInode s e :=
  entInode_congr fun j hj hj' => setDirent_of_not_mem (by simp only [sizeofDirent] at *; omega)

theorem entName_setDirent_of_ne (h : e ≠ d) :
    entName (setDirent s d name ino flags) e = entName s e :=
  entName_congr fun j hj hj' => setDirent_of_not_mem (by simp only [sizeofDirent] at *; omega)

/-- A name that fits is the name of the entry, if the last byte of the field was zero. -/
theorem entName_setDirent_self (hlen : name.length < xfsNameMax) (hz : 0#8 ∉ name)
    (hend : s (sizeofDirent * d + 63) = 0#8) :
    entName (setDirent s d name ino flags) d = name := by
  have hcopy : cstr (strncpy s (sizeofDirent * d) name 63) (sizeofDirent * d) 64 = name :=
    cstr_strncpy (by simp only [xfsNameMax] at hlen; omega) hz hend
  refine Eq.trans (cstr_congr fun j hj hj' => ?_) hcopy
  simp only [xfsNameMax] at hj'
  unfold setDirent
  rw [writeLE_of_not_mem (by omega), writeLE_of_not_mem (by omega), writeLE_of_not_mem (by omega)]
  rfl

@[simp] theorem entInode_clearDirent_self : entInode (clearDirent s d) d = 0 := by
  apply readLE_eq_zero
  intro j hj hj'
  unfold clearDirent zeroFill
  rw [if_pos]
  simp only [sizeofDirent] at *
  omega

theorem entInode_clearDirent_of_ne (h : e ≠ d) : entInode (clearDirent s d) e = entInode s e :=
  entInode_congr fun j hj hj' => clearDirent_of_not_mem (by simp only [sizeofDirent] at *; omega)

theorem entName_clearDirent_of_ne (h : e ≠ d) : entName (clearDirent s d) e = entName s e :=
  entName_congr fun j hj hj' => clearDirent_of_not_mem (by simp only [sizeofDirent] at *; omega)

theorem entMatches_iff (hlen : name.length < xfsNameMax) (hz : 0#8 ∉ name) :
    entMatches s d name = true ↔ entName s d = name :=
  strEq_iff_cstr hlen hz

end Entries

/-! ## What the block operations change -/

/-- Same device size and same globals; the blocks and the descriptors may differ. -/
structure SameGlobals (x y : Fs) : Prop where
  blockCount : y.dev.blockCount = x.dev.blockCount
  stack : y.stack = x.stack
  total : y.total = x.total
  bitmapBlocks : y.bitmapBlocks = x.bitmapBlocks
  dataStart : y.dataStart = x.dataStart
  rootBlock : y.rootBlock = x.rootBlock

theorem SameGlobals.refl (x : Fs) : SameGlobals x x := ⟨rfl, rfl, rfl, rfl, rfl, rfl⟩

theorem SameGlobals.trans (h : SameGlobals x y) (h' : SameGlobals y z) : SameGlobals x z :=
  ⟨h'.1.trans h.1, h'.2.trans h.2, h'.3.trans h.3, h'.4.trans h.4, h'.5.trans h.5, h'.6.trans h.6⟩

/-- The bitmap covers the disk, and the data area starts behind it. -/
structure Geometry (x : Fs) : Prop where
  total : x.total = x.dev.blockCount
  small : x.total ≤ 2 ^ 32
  bitmap : x.total ≤ 8 * xfsBlockSize * (x.dataStart - 1)
  inside : x.dataStart < x.total

section Blocks

variable {x y : Fs} {b b' q : ℕ} {buf : Bytes} {v : Bool}

theorem Geometry.same (h : Geometry x) (hs : SameGlobals x y) : Geometry y := by
  refine ⟨?_, ?_, ?_, ?_⟩
  · rw [hs.total, hs.blockCount, h.total]
  · rw [hs.total]; exact h.small
  · rw [hs.total, hs.dataStart]; exact h.bitmap
  · rw [hs.total, hs.dataStart]; exact h.inside

theorem Geometry.dataStart_pos (h : Geometry x) : 0 < x.dataStart := by
  have hcover := h.bitmap
  have hin := h.inside
  simp only [xfsBlockSize] at hcover
  omega

theorem write_same (x : Fs) (b : ℕ) (buf : Bytes) : SameGlobals x (x.write b buf) := by
  unfold Fs.write
  split <;> exact ⟨rfl, rfl, rfl, rfl, rfl, rfl⟩

@[simp] theorem write_fds (x : Fs) (b : ℕ) (buf : Bytes) : (x.write b buf).fds = x.fds := by
  unfold Fs.write
  split <;> rfl

theorem read_write_self (h : b < x.dev.blockCount) : (x.write b buf).read b = buf := by
  unfold Fs.read
  simp [Fs.write, h]

theorem read_write_of_ne (h : q ≠ b) : (x.write b buf).read q = x.read q := by
  unfold Fs.read
  rw [(write_same x b buf).blockCount, (write_same x b buf).stack]
  have hdata : (x.write b buf).dev.data q = x.dev.data q := by
    unfold Fs.write
    split
    · exact update_of_ne h _ _
    · rfl
  rw [hdata]

/-- The bitmap's block for `b` lies before the data area. -/
theorem Geometry.bitmapBlock_lt (h : Geometry x) (hb : b < x.total) :
    1 + b / 8 / xfsBlockSize < x.dataStart := by
  have hcover := h.bitmap
  simp only [xfsBlockSize] at *
  omega

theorem bitmapSet_same (x : Fs) (b : ℕ) (v : Bool) : SameGlobals x (bitmapSet x b v) :=
  write_same _ _ _

@[simp] theorem bitmapSet_fds (x : Fs) (b : ℕ) (v : Bool) : (bitmapSet x b v).fds = x.fds :=
  write_fds _ _ _

/-- The bitmap is no part of the data area. -/
theorem read_bitmapSet (h : Geometry x) (hb : b < x.total) (hq : x.dataStart ≤ q) :
    (bitmapSet x b v).read q = x.read q := by
  apply read_write_of_ne
  have := h.bitmapBlock_lt hb
  omega

theorem bitmapGet_write (h : Geometry x) (hb : b < x.total) (hq : x.dataStart ≤ q) :
    bitmapGet (x.write q buf) b = bitmapGet x b := by
  unfold bitmapGet
  rw [read_write_of_ne]
  have := h.bitmapBlock_lt hb
  omega

theorem getLsbD_setBit (byte : Byte) (hk : k < 8) (hk' : k' < 8) :
    (if v then byte ||| BitVec.twoPow 8 k else byte &&& ~~~BitVec.twoPow 8 k).getLsbD k' =
      if k' = k then v else byte.getLsbD k' := by
  cases v with
  | true =>
    by_cases he : k' = k
    · simp [he, hk]
    · simp [he, Ne.symm he]
  | false =>
    by_cases he : k' = k
    · simp [he]
    · simp [he, hk']

/-- **The bitmap is a set of blocks.** -/
theorem bitmapGet_bitmapSet (h : Geometry x) (hb : b < x.total) :
    bitmapGet (bitmapSet x b v) b' = if b' = b then v else bitmapGet x b' := by
  have hin : 1 + b / 8 / xfsBlockSize < x.dev.blockCount := by
    have := h.bitmapBlock_lt hb
    have := h.inside
    rw [← h.total]
    omega
  unfold bitmapGet bitmapSet
  by_cases hblk : 1 + b' / 8 / xfsBlockSize = 1 + b / 8 / xfsBlockSize
  · rw [hblk, read_write_self hin]
    by_cases hbyte : b' / 8 % xfsBlockSize = b / 8 % xfsBlockSize
    · rw [hbyte, update_self, getLsbD_setBit _ (Nat.mod_lt _ (by decide))
        (Nat.mod_lt _ (by decide))]
      have hiff : b' % 8 = b % 8 ↔ b' = b := by
        simp only [xfsBlockSize] at hblk hbyte
        omega
      simp only [hiff]
    · have hne : b' ≠ b := by rintro rfl; exact hbyte rfl
      rw [update_of_ne hbyte, if_neg hne]
  · have hne : b' ≠ b := by rintro rfl; exact hblk rfl
    rw [read_write_of_ne hblk, if_neg hne]

theorem allocBlock_spec (x : Fs) :
    (∃ b, allocBlock x = (some b, bitmapSet x b true) ∧ x.dataStart ≤ b ∧ b < x.total ∧
      bitmapGet x b = false) ∨ allocBlock x = (none, x) := by
  unfold allocBlock
  cases hf : (List.range' x.dataStart (x.total - x.dataStart)).find? (fun b => !bitmapGet x b) with
  | none => exact .inr rfl
  | some b =>
    have hmem := List.mem_of_find?_eq_some hf
    have hfree := List.find?_some hf
    rw [List.mem_range'_1] at hmem
    exact .inl ⟨b, rfl, hmem.1, by omega, by simpa using hfree⟩

theorem freeBlock_same (x : Fs) (b : ℕ) : SameGlobals x (freeBlock x b) := by
  unfold freeBlock
  split
  · exact .refl x
  · exact bitmapSet_same _ _ _

@[simp] theorem freeBlock_fds (x : Fs) (b : ℕ) : (freeBlock x b).fds = x.fds := by
  unfold freeBlock
  split
  · rfl
  · exact bitmapSet_fds _ _ _

theorem writeInode_same (x : Fs) (b : ℕ) (inode : Bytes) : SameGlobals x (writeInode x b inode) :=
  write_same _ _ _

@[simp] theorem writeInode_fds (x : Fs) (b : ℕ) (inode : Bytes) :
    (writeInode x b inode).fds = x.fds :=
  write_fds _ _ _

theorem readInode_congr (hs : SameGlobals x y) (h : y.read b = x.read b) :
    readInode y b = readInode x b := by
  unfold readInode
  rw [h, hs.stack]

/-- What was written as an inode is read as this inode. -/
theorem readInode_writeInode (h : b < x.dev.blockCount) (inode : Bytes) :
    SameFields (readInode (writeInode x b inode) b) inode := by
  intro j hj
  unfold readInode writeInode
  rw [if_pos hj, read_write_self h, if_pos hj]

end Blocks

end Xos.Xfs
