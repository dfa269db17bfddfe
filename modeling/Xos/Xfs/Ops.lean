import Xos.Xfs.Disk

/-!
# The operations of XFS

`src/kernel/fs/xfs.c`, one definition for each function.  Every call runs under
`xfs_lock`, so a call is one step of the state `Fs`; `exec` is that step.

A path is the list of its bytes before the terminating zero; a null pointer behaves like
the empty path.  A block number of `0` is the C code's "none", here `none`.

* `components`, `lookup`, `resolvePath`, `parentInode` — finding an inode;
* `createEntry` — what `xfs_open` and `xfs_mkdir` do alike to make a file or directory;
* `xfsOpen`, `xfsClose`, `xfsRead`, `xfsWrite`, `xfsMkdir`, `xfsReaddir`, `xfsLseek`,
  `xfsStat`, `xfsFstat`, `xfsUnlink`, `xfsFtruncate`, `xfsExists`;
* `xfsFormat`, `xfsMount`.
-/

namespace Xos.Xfs

open Xos.Lib

/-- `'/'`. -/
abbrev slash : Byte := 0x2f#8

/-! ## Path resolution -/

/-- The components of `resolve_path`'s loop; `acc` is what is in `buf`.  The buffer holds
`XFS_NAME_MAX - 1` bytes: a longer component is cut into several. -/
def components (acc : List Byte) : List Byte → List (List Byte)
  | [] => [acc]
  | c :: p =>
    if c = slash then acc :: (if p = [] then [] else components [] p)
    else if acc.length = xfsNameMax - 1 then acc :: components [c] p
    else components (acc ++ [c]) p

/-- The places `(db, d)` that a scan of a directory visits, in order. -/
def dentPlaces (inode : Bytes) : List (ℕ × ℕ) :=
  (List.range (blockCount inode)).flatMap fun db => (List.range maxDents).map (Prod.mk db)

/-- The first entry of a directory that `pick` accepts, given the block's number, its
contents and the index of the entry. -/
def findDent (x : Fs) (inode : Bytes) (pick : ℕ → Bytes → ℕ → Bool) : Option (ℕ × ℕ) :=
  (dentPlaces inode).find? fun e =>
    pick (dataBlock inode e.1) (x.read (dataBlock inode e.1)) e.2

/-- The scan of `resolve_path`: the inode block of the entry called `name`. -/
def lookup (x : Fs) (ino : ℕ) (name : List Byte) : Option ℕ :=
  let inode := readInode x ino
  (findDent x inode fun b s d => b != 0 && entInode s d != 0 && entMatches s d name).map
    fun e => entInode (x.read (dataBlock inode e.1)) e.2

def walk (x : Fs) : ℕ → List (List Byte) → Option ℕ
  | ino, [] => some ino
  | ino, name :: names => (lookup x ino name).bind fun next => walk x next names

def resolvePath (x : Fs) (path : List Byte) : Option ℕ :=
  match path with
  | [] => none
  | c :: p =>
    if c ≠ slash then none
    else if !isDir (readInode x x.rootBlock) then none
    else if p = [] then some x.rootBlock
    else walk x x.rootBlock (components [] p)

/-- What follows the last slash. -/
def baseName (path : List Byte) : List Byte := (path.reverse.takeWhile (· ≠ slash)).reverse

/-- The parent path, cut to `XFS_NAME_MAX - 1` bytes. -/
def parentPath (path : List Byte) : List Byte :=
  path.take (min (path.length - (baseName path).length - 1) (xfsNameMax - 1))

/-- The directory that `xfs_open`, `xfs_mkdir` and `xfs_unlink` work in: the root if the
path has one slash. -/
def parentInode (x : Fs) (path : List Byte) : Option ℕ :=
  if path.length - (baseName path).length - 1 = 0 then some x.rootBlock
  else resolvePath x (parentPath path)

/-! ## Creation -/

/-- Enter `ino` in the first free place of the directory `parent`. -/
def addDirent (x : Fs) (parent : ℕ) (name : List Byte) (ino flags : ℕ) : Option Fs :=
  let inode := readInode x parent
  (findDent x inode fun _ s d => entInode s d == 0).map fun e =>
    let b := dataBlock inode e.1
    x.write b (setDirent (x.read b) e.2 name ino flags)

/-- The common part of `xfs_open` with `XFS_O_CREAT` (`flags = 0`) and `xfs_mkdir`
(`flags = 1`): the new inode's block, if there is one. -/
def createEntry (x : Fs) (path : List Byte) (flags : ℕ) : Option ℕ × Fs :=
  match parentInode x path with
  | none => (none, x)
  | some parent =>
    if baseName path = [] then (none, x)
    else
      match allocBlock x with
      | (none, x) => (none, x)
      | (some ino, x) =>
        match allocBlock x with
        | (none, x) => (none, freeBlock x ino)
        | (some data, x) =>
          let x := writeInode x ino (newInode (baseName path) flags data)
          match addDirent x parent (baseName path) ino flags with
          | none => (none, freeBlock (freeBlock x data) ino)
          | some x => (some ino, x)

/-! ## Descriptors -/

/-- Store `f` in the descriptor table. -/
def Fs.setFd (x : Fs) (i : ℕ) (f : Fd) : Fs := { x with fds := Function.update x.fds i f }

/-- The last part of `xfs_open`: the first free descriptor, for the process `pid`. -/
def openFd (x : Fs) (pid ino flags : ℕ) : ℤ × Fs :=
  match (List.range xfsMaxFds).find? fun i => !(x.fds i).used with
  | none => (-1, x)
  | some i =>
    (i, x.setFd i
      { used := true, pid := pid % 2 ^ 32, inodeBlock := ino % 2 ^ 32, offset := 0,
        flags := flags })

/-- The check with which the descriptor calls begin. -/
def fdOf (x : Fs) (pid : ℕ) (fd : ℤ) : Option ℕ :=
  if 0 ≤ fd ∧ fd < xfsMaxFds ∧ (x.fds fd.toNat).used = true ∧ (x.fds fd.toNat).pid = pid then
    some fd.toNat
  else none

def xfsOpen (x : Fs) (pid : ℕ) (path : List Byte) (flags : ℕ) : ℤ × Fs :=
  if path.head? ≠ some slash then (-1, x)
  else
    match resolvePath x path with
    | some ino => openFd x pid ino flags
    | none =>
      if !flags.testBit 2 then (-1, x)
      else
        match createEntry x path 0 with
        | (none, x) => (-1, x)
        | (some ino, x) => openFd x pid ino flags

/-- Any process may close any descriptor. -/
def xfsClose (x : Fs) (fd : ℤ) : Fs :=
  if 0 ≤ fd ∧ fd < xfsMaxFds then
    x.setFd fd.toNat { x.fds fd.toNat with used := false }
  else x

/-! ## Reading and writing -/

/-- `(int)` of an unsigned number. -/
def toInt (n : ℕ) : ℤ := (n : ℤ).bmod (2 ^ 32)

/-- The loop of `xfs_read`: the bytes read so far are `acc`. -/
def readLoop (x : Fs) (inode : Bytes) (offset count : ℕ) : ℕ → List Byte → List Byte
  | 0, acc => acc
  | fuel + 1, acc =>
    if count ≤ acc.length then acc
    else
      let fileOff := (offset + acc.length) % 2 ^ 32
      let idx := fileOff / xfsBlockSize
      let off := fileOff % xfsBlockSize
      let b := dataBlock inode idx
      if blockCount inode ≤ idx ∨ b = 0 then acc
      else
        let chunk := min (xfsBlockSize - off) (count - acc.length)
        readLoop x inode offset count fuel
          (acc ++ (List.range chunk).map fun k => x.read b (off + k))

def xfsRead (x : Fs) (pid : ℕ) (fd : ℤ) (count : ℕ) : ℤ × List Byte × Fs :=
  match fdOf x pid fd with
  | none => (-1, [], x)
  | some i =>
    let f := x.fds i
    let inode := readInode x f.inodeBlock
    if count = 0 ∨ inodeSize inode ≤ f.offset then (0, [], x)
    else
      let count := min count (inodeSize inode - f.offset)
      let got := readLoop x inode f.offset count count []
      (toInt got.length, got,
        x.setFd i { f with offset := (f.offset + got.length) % 2 ^ 32 })

/-- `inode.data_blocks[inode.block_count++] = nb`. -/
def appendBlock (inode : Bytes) (nb : ℕ) : Bytes :=
  setBlockCount (setDataBlock inode (blockCount inode) nb) (blockCount inode + 1)

/-- The growth of the file in `xfs_write`'s loop: a block for index `idx`, or `none` if
there is no space. -/
def growFor (x : Fs) (inode : Bytes) (idx : ℕ) : Option (Fs × Bytes) :=
  if idx < blockCount inode then some (x, inode)
  else if maxDirect ≤ blockCount inode then none
  else
    match allocBlock x with
    | (none, _) => none
    | (some nb, x) => some (x, appendBlock inode nb)

/-- The loop of `xfs_write` after `done` bytes of `data`. -/
def writeLoop (offset : ℕ) (data : List Byte) : ℕ → Fs → Bytes → ℕ → Fs × Bytes × ℕ
  | 0, x, inode, done => (x, inode, done)
  | fuel + 1, x, inode, done =>
    if data.length ≤ done then (x, inode, done)
    else
      let fileOff := (offset + done) % 2 ^ 32
      let idx := fileOff / xfsBlockSize
      let off := fileOff % xfsBlockSize
      match growFor x inode idx with
      | none => (x, inode, done)
      | some (x, inode) =>
        let b := dataBlock inode idx
        if b = 0 then (x, inode, done)
        else
          let chunk := min (xfsBlockSize - off) (data.length - done)
          let sector : Bytes :=
            if off ≠ 0 ∨ data.length - done < xfsBlockSize then x.read b else fun _ => 0#8
          let sector := memcpy sector off ((data.drop done).take chunk)
          writeLoop offset data fuel (x.write b sector) inode (done + chunk)

def xfsWrite (x : Fs) (pid : ℕ) (fd : ℤ) (data : List Byte) : ℤ × Fs :=
  match fdOf x pid fd with
  | none => (-1, x)
  | some i =>
    let f := x.fds i
    if data = [] then (0, x)
    else if !(f.flags.testBit 0 || f.flags.testBit 1) then (-1, x)
    else
      let r := writeLoop f.offset data data.length x (readInode x f.inodeBlock) 0
      let newSize := (f.offset + r.2.2) % 2 ^ 32
      let inode := if inodeSize r.2.1 < newSize then setSize r.2.1 newSize else r.2.1
      (toInt r.2.2, writeInode (r.1.setFd i { f with offset := newSize }) f.inodeBlock inode)

/-! ## Directories -/

def xfsMkdir (x : Fs) (path : List Byte) : ℤ × Fs :=
  if path.head? ≠ some slash then (-1, x)
  else
    match resolvePath x path with
    | some _ => (-1, x)
    | none =>
      match createEntry x path 1 with
      | (none, x) => (-1, x)
      | (some _, x) => (0, x)

/-- The entries, as they stand on the disk. -/
def xfsReaddir (x : Fs) (pid : ℕ) (fd maxEntries : ℤ) : ℤ × List (List Byte) :=
  match fdOf x pid fd with
  | none => (-1, [])
  | some i =>
    let inode := readInode x (x.fds i).inodeBlock
    if maxEntries ≤ 0 then (0, [])
    else if !isDir inode then (-1, [])
    else
      let live := (dentPlaces inode).filter fun e =>
        dataBlock inode e.1 != 0 && entInode (x.read (dataBlock inode e.1)) e.2 != 0
      let got := (live.take maxEntries.toNat).map fun e =>
        (List.range sizeofDirent).map fun k =>
          x.read (dataBlock inode e.1) (sizeofDirent * e.2 + k)
      (got.length, got)

/-! ## Seeking and asking -/

/-- `SEEK_SET`, `SEEK_CUR` and `SEEK_END` are `0`, `1` and `2`. -/
def xfsLseek (x : Fs) (pid : ℕ) (fd offset : ℤ) (whence : ℕ) : ℤ × Fs :=
  match fdOf x pid fd with
  | none => (-1, x)
  | some i =>
    let f := x.fds i
    let target : Option ℤ := match whence with
      | 0 => some offset
      | 1 => some ((toInt f.offset + offset).bmod (2 ^ 32))
      | 2 => some ((toInt (inodeSize (readInode x f.inodeBlock)) + offset).bmod (2 ^ 32))
      | _ => none
    match target with
    | none => (-1, x)
    | some newOff =>
      if newOff < 0 then (-1, x)
      else (newOff, x.setFd i { f with offset := newOff.toNat })

/-- What `xfs_stat` and `xfs_fstat` fill in. -/
structure Dirent where
  name : List Byte
  inodeBlock : ℕ
  size : ℕ
  flags : ℕ
  deriving DecidableEq

def statInode (inode : Bytes) (block : ℕ) : Dirent where
  name := cstr inode 0 (xfsNameMax - 1)
  inodeBlock := block % 2 ^ 32
  size := inodeSize inode
  flags := inodeFlags inode

def xfsStat (x : Fs) (path : List Byte) : ℤ × Option Dirent :=
  match resolvePath x path with
  | none => (-1, none)
  | some ino => (0, some (statInode (readInode x ino) ino))

def xfsFstat (x : Fs) (pid : ℕ) (fd : ℤ) : ℤ × Option Dirent :=
  match fdOf x pid fd with
  | none => (-1, none)
  | some i =>
    let ino := (x.fds i).inodeBlock
    (0, some (statInode (readInode x ino) ino))

def xfsExists (x : Fs) (path : List Byte) : ℤ :=
  if path.head? = some slash ∧ (resolvePath x path).isSome then 1 else 0

/-! ## Removing and resizing -/

/-- Free the data blocks `i` to `j` of an inode. -/
def freeData (x : Fs) (inode : Bytes) (i j : ℕ) : Fs :=
  (List.range' i (j - i)).foldl
    (fun x k => if dataBlock inode k ≠ 0 then freeBlock x (dataBlock inode k) else x) x

/-- The search of `xfs_unlink`: the file's inode, the directory, and the place there of the
entry that names the inode. -/
def unlinkTarget (x : Fs) (path : List Byte) : Option (ℕ × ℕ × ℕ × ℕ) :=
  if path.head? ≠ some slash then none
  else
    match resolvePath x path with
    | none => none
    | some ino =>
      if isDir (readInode x ino) then none
      else
        match parentInode x path with
        | none => none
        | some parent =>
          (findDent x (readInode x parent) fun b s d =>
            b != 0 && entInode s d == ino % 2 ^ 32).map fun e => (ino, parent, e)

def xfsUnlink (x : Fs) (path : List Byte) : ℤ × Fs :=
  match unlinkTarget x path with
  | none => (-1, x)
  | some (ino, parent, db, d) =>
    let inode := readInode x ino
    let b := dataBlock (readInode x parent) db
    let x := x.write b (clearDirent (x.read b) d)
    (0, freeBlock (freeData x inode 0 (blockCount inode)) ino)

/-- The blocks `i` to `j` of an inode become `0`. -/
def dropBlocks (inode : Bytes) (i j : ℕ) : Bytes :=
  (List.range' i (j - i)).foldl (fun inode k => setDataBlock inode k 0) inode

/-- `xfs_ftruncate`'s growth from `i` blocks to `needed`; `fuel` bounds the steps. -/
def extendLoop (needed : ℕ) : ℕ → Fs → Bytes → ℕ → Fs × Bytes
  | 0, x, inode, _ => (x, inode)
  | fuel + 1, x, inode, i =>
    if i < needed ∧ i < maxDirect then
      match allocBlock x with
      | (none, x) => (x, inode)
      | (some nb, x) =>
        extendLoop needed fuel (x.write nb fun _ => 0#8)
          (setBlockCount (setDataBlock inode i nb) (i + 1)) (i + 1)
    else (x, inode)

/-- The blocks that `size` bytes take. -/
def neededBlocks (size : ℕ) : ℕ := (size + (xfsBlockSize - 1)) % 2 ^ 32 / xfsBlockSize

def xfsFtruncate (x : Fs) (pid : ℕ) (fd size : ℤ) : ℤ × Fs :=
  match fdOf x pid fd with
  | none => (-1, x)
  | some i =>
    if size < 0 then (-1, x)
    else
      let ino := (x.fds i).inodeBlock
      let inode := readInode x ino
      let size := size.toNat % 2 ^ 32
      let needed := neededBlocks size
      if size ≤ inodeSize inode then
        let count := blockCount inode
        let shrunk := setBlockCount (dropBlocks inode needed count) needed
        (0, writeInode (freeData x inode needed count) ino (setSize shrunk size))
      else
        let r := extendLoop needed (needed - blockCount inode) x inode (blockCount inode)
        (0, writeInode r.1 ino (setSize r.2 size))

/-! ## Format and mount -/

/-- The superblock that `xfs_format` writes. -/
def superBlock (total bitmapBlocks dataStart rootBlock : ℕ) : Bytes :=
  let sb : Bytes := fun _ => 0#8
  let sb := writeLE sb 0 4 xfsMagic
  let sb := writeLE sb 4 4 xfsVersion
  let sb := writeLE sb 8 8 total
  let sb := writeLE sb 16 8 ((2 ^ 64 + total - (dataStart + 2)) % 2 ^ 64)
  let sb := writeLE sb 24 8 rootBlock
  let sb := writeLE sb 32 8 bitmapBlocks
  writeLE sb 40 8 dataStart

/-- The size of the bitmap for a device of `total` blocks. -/
def bitmapBlocksFor (total : ℕ) : ℕ :=
  max ((total + 8 * xfsBlockSize - 1) % 2 ^ 64 / (8 * xfsBlockSize)) 1

/-- The first part of `xfs_format`: the globals are set, the disk is cleared and the
superblock written. -/
def formatClear (x : Fs) : Fs :=
  let total := x.dev.blockCount
  let bitmapBlocks := bitmapBlocksFor total
  let dataStart := 1 + bitmapBlocks
  let rootBlock := dataStart
  let data : ℕ → Bytes := fun b => if 1 ≤ b ∧ b < total then fun _ => 0#8 else x.dev.data b
  Fs.write
    { x with
      dev := { x.dev with data := data }
      total := total
      bitmapBlocks := bitmapBlocks
      dataStart := dataStart
      rootBlock := rootBlock }
    0 (superBlock total bitmapBlocks dataStart rootBlock)

/-- `xfs_format`; `x` is what the globals were. -/
def xfsFormat (x : Fs) : Fs :=
  let x := formatClear x
  let x := (List.range (x.dataStart + 2)).foldl (fun x b => bitmapSet x b true) x
  x.write x.rootBlock (newInode [slash] 1 (x.rootBlock + 1))

/-- An unused descriptor. -/
def noFd : Fd where
  used := false
  pid := 0
  inodeBlock := 0
  offset := 0
  flags := 0

def xfsMount (x : Fs) : Option Fs :=
  let sb := x.read 0
  if readLE sb 0 4 ≠ xfsMagic then none
  else some { x with
    total := readLE sb 8 8
    rootBlock := readLE sb 24 8
    bitmapBlocks := readLE sb 32 8
    dataStart := readLE sb 40 8
    fds := fun _ => noFd }

/-! ## Calls -/

/-- A call, with the process that makes it where that matters. -/
inductive Call where
  | open (pid : ℕ) (path : List Byte) (flags : ℕ)
  | close (fd : ℤ)
  | read (pid : ℕ) (fd : ℤ) (count : ℕ)
  | write (pid : ℕ) (fd : ℤ) (data : List Byte)
  | mkdir (path : List Byte)
  | readdir (pid : ℕ) (fd maxEntries : ℤ)
  | lseek (pid : ℕ) (fd offset : ℤ) (whence : ℕ)
  | stat (path : List Byte)
  | fstat (pid : ℕ) (fd : ℤ)
  | unlink (path : List Byte)
  | ftruncate (pid : ℕ) (fd size : ℤ)
  | exists (path : List Byte)

/-- What a call gives back: its return value, and what it stored in the caller's
buffer. -/
inductive Reply where
  | code (r : ℤ)
  | bytes (r : ℤ) (data : List Byte)
  | info (r : ℤ) (entry : Option Dirent)
  | listing (r : ℤ) (entries : List (List Byte))

/-- One call. -/
def exec (x : Fs) : Call → Reply × Fs
  | .open pid path flags => let r := xfsOpen x pid path flags; (.code r.1, r.2)
  | .close fd => (.code 0, xfsClose x fd)
  | .read pid fd count => let r := xfsRead x pid fd count; (.bytes r.1 r.2.1, r.2.2)
  | .write pid fd data => let r := xfsWrite x pid fd data; (.code r.1, r.2)
  | .mkdir path => let r := xfsMkdir x path; (.code r.1, r.2)
  | .readdir pid fd n => let r := xfsReaddir x pid fd n; (.listing r.1 r.2, x)
  | .lseek pid fd offset whence => let r := xfsLseek x pid fd offset whence; (.code r.1, r.2)
  | .stat path => let r := xfsStat x path; (.info r.1 r.2, x)
  | .fstat pid fd => let r := xfsFstat x pid fd; (.info r.1 r.2, x)
  | .unlink path => let r := xfsUnlink x path; (.code r.1, r.2)
  | .ftruncate pid fd size => let r := xfsFtruncate x pid fd size; (.code r.1, r.2)
  | .exists path => (.code (xfsExists x path), x)

/-- The transition relation of the calls. -/
def Step (x : Fs) (call : Call) (y : Fs) : Prop := (exec x call).2 = y

end Xos.Xfs
