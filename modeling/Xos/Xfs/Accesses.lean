import Xos.Lib.Device
import Xos.Xfs.Tree

/-!
# The device accesses of XFS

The calls once more, now as programs of block reads and writes in the order of `xfs.c`.  No caller
of `block_read` or `block_write` in `xfs.c` looks at the result, so a program is not told it either.

The globals are those of the state `x` in which the call is made, and the descriptor table is
part of the result.

* **the same calls** — `eval_exec`: the programs are the calls of `exec`;
* **the disk is apart** — `eval_disk`: a program changes blocks, and nothing else.
-/

namespace Xos.Xfs

open Xos.Lib Function

/-- What a block is read as. -/
inductive Kind where
  | bitmap
  | inode
  | dir
  | data
  deriving DecidableEq

/-- Programs of block accesses. -/
abbrev Io := Prog Kind ℕ Bytes

/-- `block_read` and `block_write`. -/
def device : Device Fs ℕ Bytes where
  read := Fs.read
  write := Fs.write
  read_write x b buf c := by
    by_cases hc : c = b
    · by_cases hb : b < x.dev.blockCount
      · exact .inl ⟨hc, by rw [hc, read_write_self hb]⟩
      · refine .inr ?_
        unfold Fs.write
        rw [if_neg hb]
    · exact .inr (read_write_of_ne hc)

namespace Io

/-! ## Bitmap and inodes -/

/-- The bitmap block `buf` with the bit of `block` set or cleared. -/
def withBit (buf : Bytes) (block : ℕ) (used : Bool) : Bytes :=
  let byte := buf (block / 8 % xfsBlockSize)
  let bit : Byte := BitVec.twoPow 8 (block % 8)
  update buf (block / 8 % xfsBlockSize) (if used then byte ||| bit else byte &&& ~~~bit)

/-- The bit of `block` in its bitmap block. -/
def bitOf (buf : Bytes) (block : ℕ) : Bool := (buf (block / 8 % xfsBlockSize)).getLsbD (block % 8)

def bitmapSet (block : ℕ) (used : Bool) : Io Unit := do
  let buf ← Prog.get .bitmap (1 + block / 8 / xfsBlockSize)
  Prog.put (1 + block / 8 / xfsBlockSize) (withBit buf block used)

def bitmapGet (block : ℕ) : Io Bool := do
  let buf ← Prog.get .bitmap (1 + block / 8 / xfsBlockSize)
  pure (bitOf buf block)

/-- The loop of `alloc_block`. -/
def allocFrom : List ℕ → Io (Option ℕ)
  | [] => pure none
  | b :: bs => do
      if ← bitmapGet b then allocFrom bs
      else
        bitmapSet b true
        pure (some b)

def allocBlock (x : Fs) : Io (Option ℕ) :=
  allocFrom (List.range' x.dataStart (x.total - x.dataStart))

def freeBlock (x : Fs) (block : ℕ) : Io Unit :=
  if x.total ≤ block then pure () else bitmapSet block false

def readInode (x : Fs) (block : ℕ) : Io Bytes := do
  let buf ← Prog.get .inode block
  pure fun j => if j < sizeofInode then buf j else x.stack j

def writeInode (block : ℕ) (inode : Bytes) : Io Unit := do
  let buf ← Prog.get .inode block
  Prog.put block fun j => if j < sizeofInode then inode j else buf j

/-! ## Paths -/

/-- The scan of a directory for the first entry that `pick` accepts; with `skip`, blocks with
the number `0` are not read.  It returns the place and the block's contents. -/
def scan (skip : Bool) (inode : Bytes) (pick : Bytes → ℕ → Bool) :
    List ℕ → Io (Option (ℕ × ℕ × Bytes))
  | [] => pure none
  | db :: dbs =>
    if skip = true ∧ dataBlock inode db = 0 then scan skip inode pick dbs
    else do
      let sector ← Prog.get .dir (dataBlock inode db)
      match (List.range maxDents).find? (pick sector) with
      | some d => pure (some (db, d, sector))
      | none => scan skip inode pick dbs

/-- The loop of `resolve_path`, with the inode that `out` holds. -/
def walk (x : Fs) : ℕ → Bytes → List (List Byte) → Io (Option (ℕ × Bytes))
  | ino, inode, [] => pure (some (ino, inode))
  | _, inode, name :: names => do
      match ← scan true inode (fun s d => entInode s d != 0 && entMatches s d name)
          (List.range (blockCount inode)) with
      | none => pure none
      | some (_, d, sector) => do
          let next ← readInode x (entInode sector d)
          walk x (entInode sector d) next names

def resolvePath (x : Fs) (path : List Byte) : Io (Option (ℕ × Bytes)) :=
  match path with
  | [] => pure none
  | c :: p =>
    if c ≠ slash then pure none
    else do
      let root ← readInode x x.rootBlock
      if !isDir root then pure none
      else if p = [] then pure (some (x.rootBlock, root))
      else walk x x.rootBlock root (components [] p)

def parentInode (x : Fs) (path : List Byte) : Io (Option ℕ) :=
  if path.length - (baseName path).length - 1 = 0 then pure (some x.rootBlock)
  else do
    let r ← resolvePath x (parentPath path)
    pure (r.map Prod.fst)

/-! ## Creation -/

/-- What a creation does in the directory `parent`. -/
def createIn (x : Fs) (parent : ℕ) (name : List Byte) (flags : ℕ) : Io (Option ℕ) := do
  match ← allocBlock x with
  | none => pure none
  | some ino => do
      match ← allocBlock x with
      | none => do
          freeBlock x ino
          pure none
      | some data => do
          writeInode ino (newInode name flags data)
          let inode ← readInode x parent
          match ← scan false inode (fun s d => entInode s d == 0)
              (List.range (blockCount inode)) with
          | none => do
              freeBlock x data
              freeBlock x ino
              pure none
          | some (db, d, sector) => do
              Prog.put (dataBlock inode db) (setDirent sector d name ino flags)
              pure (some ino)

def createEntry (x : Fs) (path : List Byte) (flags : ℕ) : Io (Option ℕ) := do
  match ← parentInode x path with
  | none => pure none
  | some parent => if baseName path = [] then pure none else createIn x parent (baseName path) flags

/-! ## The calls -/

def xfsOpen (x : Fs) (pid : ℕ) (path : List Byte) (flags : ℕ) : Io (ℤ × (ℕ → Fd)) :=
  if path.head? ≠ some slash then pure (-1, x.fds)
  else do
    match ← resolvePath x path with
    | some (ino, _) => pure ((openFd x pid ino flags).1, (openFd x pid ino flags).2.fds)
    | none =>
      if !flags.testBit 2 then pure (-1, x.fds)
      else do
        match ← createEntry x path 0 with
        | none => pure (-1, x.fds)
        | some ino => do
            let _ ← readInode x ino
            pure ((openFd x pid ino flags).1, (openFd x pid ino flags).2.fds)

def readLoop (inode : Bytes) (offset count : ℕ) : ℕ → List Byte → Io (List Byte)
  | 0, acc => pure acc
  | fuel + 1, acc =>
    if count ≤ acc.length then pure acc
    else
      let fileOff := (offset + acc.length) % 2 ^ 32
      let idx := fileOff / xfsBlockSize
      let off := fileOff % xfsBlockSize
      let b := dataBlock inode idx
      if blockCount inode ≤ idx ∨ b = 0 then pure acc
      else do
        let sector ← Prog.get .data b
        let chunk := min (xfsBlockSize - off) (count - acc.length)
        readLoop inode offset count fuel
          (acc ++ (List.range chunk).map fun k => sector (off + k))

def xfsRead (x : Fs) (pid : ℕ) (fd : ℤ) (count : ℕ) : Io (ℤ × List Byte × (ℕ → Fd)) :=
  match fdOf x pid fd with
  | none => pure (-1, [], x.fds)
  | some i =>
    let f := x.fds i
    if count = 0 then pure (0, [], x.fds)
    else do
      let inode ← readInode x f.inodeBlock
      if inodeSize inode ≤ f.offset then pure (0, [], x.fds)
      else do
        let count := min count (inodeSize inode - f.offset)
        let got ← readLoop inode f.offset count count []
        pure (toInt got.length, got,
          update x.fds i { f with offset := (f.offset + got.length) % 2 ^ 32 })

def growFor (x : Fs) (inode : Bytes) (idx : ℕ) : Io (Option Bytes) :=
  if idx < blockCount inode then pure (some inode)
  else if maxDirect ≤ blockCount inode then pure none
  else do
    match ← allocBlock x with
    | none => pure none
    | some nb => pure (some (appendBlock inode nb))

/-- The buffer that a round of `xfs_write` starts with. -/
def sectorFor (b : ℕ) (partly : Prop) [Decidable partly] : Io Bytes :=
  if partly then Prog.get .data b else pure fun _ => 0#8

def writeLoop (x : Fs) (offset : ℕ) (data : List Byte) : ℕ → Bytes → ℕ → Io (Bytes × ℕ)
  | 0, inode, done => pure (inode, done)
  | fuel + 1, inode, done =>
    if data.length ≤ done then pure (inode, done)
    else
      let fileOff := (offset + done) % 2 ^ 32
      let idx := fileOff / xfsBlockSize
      let off := fileOff % xfsBlockSize
      do
        match ← growFor x inode idx with
        | none => pure (inode, done)
        | some inode =>
          let b := dataBlock inode idx
          if b = 0 then pure (inode, done)
          else do
            let sector ← sectorFor b (off ≠ 0 ∨ data.length - done < xfsBlockSize)
            let chunk := min (xfsBlockSize - off) (data.length - done)
            Prog.put b (memcpy sector off ((data.drop done).take chunk))
            writeLoop x offset data fuel inode (done + chunk)

def xfsWrite (x : Fs) (pid : ℕ) (fd : ℤ) (data : List Byte) : Io (ℤ × (ℕ → Fd)) :=
  match fdOf x pid fd with
  | none => pure (-1, x.fds)
  | some i =>
    let f := x.fds i
    if data = [] then pure (0, x.fds)
    else if !(f.flags.testBit 0 || f.flags.testBit 1) then pure (-1, x.fds)
    else do
      let inode ← readInode x f.inodeBlock
      let r ← writeLoop x f.offset data data.length inode 0
      let newSize := (f.offset + r.2) % 2 ^ 32
      writeInode f.inodeBlock (if inodeSize r.1 < newSize then setSize r.1 newSize else r.1)
      pure (toInt r.2, update x.fds i { f with offset := newSize })

def xfsMkdir (x : Fs) (path : List Byte) : Io ℤ :=
  if path.head? ≠ some slash then pure (-1)
  else do
    match ← resolvePath x path with
    | some _ => pure (-1)
    | none => do
        match ← createEntry x path 1 with
        | none => pure (-1)
        | some _ => pure 0

/-- The entry `d` of a block. -/
def entryBytes (sector : Bytes) (d : ℕ) : List Byte :=
  (List.range sizeofDirent).map fun k => sector (sizeofDirent * d + k)

/-- The loop of `xfs_readdir`, with the entries copied so far. -/
def readdirLoop (inode : Bytes) (max : ℕ) (acc : List (List Byte)) :
    List ℕ → Io (List (List Byte))
  | [] => pure acc
  | db :: dbs =>
    if max ≤ acc.length then pure acc
    else if dataBlock inode db = 0 then readdirLoop inode max acc dbs
    else do
      let sector ← Prog.get .dir (dataBlock inode db)
      let live := (List.range maxDents).filter fun d => entInode sector d != 0
      readdirLoop inode max (acc ++ (live.take (max - acc.length)).map (entryBytes sector)) dbs

def xfsReaddir (x : Fs) (pid : ℕ) (fd maxEntries : ℤ) : Io (ℤ × List (List Byte)) :=
  match fdOf x pid fd with
  | none => pure (-1, [])
  | some i =>
    if maxEntries ≤ 0 then pure (0, [])
    else do
      let inode ← readInode x (x.fds i).inodeBlock
      if !isDir inode then pure (-1, [])
      else do
        let got ← readdirLoop inode maxEntries.toNat [] (List.range (blockCount inode))
        pure (got.length, got)

def xfsLseek (x : Fs) (pid : ℕ) (fd offset : ℤ) (whence : ℕ) : Io (ℤ × (ℕ → Fd)) :=
  match fdOf x pid fd with
  | none => pure (-1, x.fds)
  | some i => do
      let f := x.fds i
      let inode ← readInode x f.inodeBlock
      let target : Option ℤ := match whence with
        | 0 => some offset
        | 1 => some ((toInt f.offset + offset).bmod (2 ^ 32))
        | 2 => some ((toInt (inodeSize inode) + offset).bmod (2 ^ 32))
        | _ => none
      match target with
      | none => pure (-1, x.fds)
      | some newOff =>
        if newOff < 0 then pure (-1, x.fds)
        else pure (newOff, update x.fds i { f with offset := newOff.toNat })

def xfsStat (x : Fs) (path : List Byte) : Io (ℤ × Option Dirent) := do
  match ← resolvePath x path with
  | none => pure (-1, none)
  | some (ino, inode) => pure (0, some (statInode inode ino))

def xfsFstat (x : Fs) (pid : ℕ) (fd : ℤ) : Io (ℤ × Option Dirent) :=
  match fdOf x pid fd with
  | none => pure (-1, none)
  | some i => do
      let inode ← readInode x (x.fds i).inodeBlock
      pure (0, some (statInode inode (x.fds i).inodeBlock))

/-- Free the blocks `ks` of an inode. -/
def freeData (x : Fs) (inode : Bytes) : List ℕ → Io Unit
  | [] => pure ()
  | k :: ks =>
    if dataBlock inode k ≠ 0 then do
      freeBlock x (dataBlock inode k)
      freeData x inode ks
    else freeData x inode ks

/-- What `xfs_unlink` finds before it scans the parent: the file and its inode, and the
parent. -/
def unlinkTarget (x : Fs) (path : List Byte) : Io (Option (ℕ × Bytes × ℕ)) :=
  if path.head? ≠ some slash then pure none
  else do
    match ← resolvePath x path with
    | none => pure none
    | some (ino, inode) =>
      if isDir inode then pure none
      else do
        match ← parentInode x path with
        | none => pure none
        | some parent => pure (some (ino, inode, parent))

/-- The removal of the entry, and of the file. -/
def removeFrom (x : Fs) (ino : ℕ) (inode : Bytes) (parent : ℕ) : Io ℤ := do
  let dir ← readInode x parent
  match ← scan true dir (fun s d => entInode s d == ino % 2 ^ 32)
      (List.range (blockCount dir)) with
  | none => pure (-1)
  | some (db, d, sector) => do
      Prog.put (dataBlock dir db) (clearDirent sector d)
      freeData x inode (List.range (blockCount inode))
      freeBlock x ino
      pure 0

def xfsUnlink (x : Fs) (path : List Byte) : Io ℤ := do
  match ← unlinkTarget x path with
  | none => pure (-1)
  | some (ino, inode, parent) => removeFrom x ino inode parent

def extendLoop (x : Fs) (needed : ℕ) : ℕ → Bytes → ℕ → Io Bytes
  | 0, inode, _ => pure inode
  | fuel + 1, inode, i =>
    if i < needed ∧ i < maxDirect then do
      match ← allocBlock x with
      | none => pure inode
      | some nb => do
          Prog.put nb fun _ => 0#8
          extendLoop x needed fuel (setBlockCount (setDataBlock inode i nb) (i + 1)) (i + 1)
    else pure inode

/-- What `xfs_ftruncate` does with the inode it has read. -/
def resize (x : Fs) (ino : ℕ) (inode : Bytes) (size : ℕ) : Io Unit :=
  let needed := neededBlocks size
  let count := blockCount inode
  if size ≤ inodeSize inode then do
    freeData x inode (List.range' needed (count - needed))
    writeInode ino (setSize (setBlockCount (dropBlocks inode needed count) needed) size)
  else do
    let grown ← extendLoop x needed (needed - count) inode count
    writeInode ino (setSize grown size)

def xfsFtruncate (x : Fs) (pid : ℕ) (fd size : ℤ) : Io ℤ :=
  match fdOf x pid fd with
  | none => pure (-1)
  | some i =>
    if size < 0 then pure (-1)
    else do
      let inode ← readInode x (x.fds i).inodeBlock
      resize x (x.fds i).inodeBlock inode (size.toNat % 2 ^ 32)
      pure 0

def xfsExists (x : Fs) (path : List Byte) : Io ℤ :=
  if path.head? = some slash then do
    let r ← resolvePath x path
    pure (if r.isSome then 1 else 0)
  else pure 0

/-- One call: its reply and the descriptor table it leaves. -/
def exec (x : Fs) : Call → Io (Reply × (ℕ → Fd))
  | .open pid path flags => do let r ← xfsOpen x pid path flags; pure (.code r.1, r.2)
  | .close fd => pure (.code 0, (xfsClose x fd).fds)
  | .read pid fd count => do let r ← xfsRead x pid fd count; pure (.bytes r.1 r.2.1, r.2.2)
  | .write pid fd data => do let r ← xfsWrite x pid fd data; pure (.code r.1, r.2)
  | .mkdir path => do let r ← xfsMkdir x path; pure (.code r, x.fds)
  | .readdir pid fd n => do let r ← xfsReaddir x pid fd n; pure (.listing r.1 r.2, x.fds)
  | .lseek pid fd offset whence => do
      let r ← xfsLseek x pid fd offset whence; pure (.code r.1, r.2)
  | .stat path => do let r ← xfsStat x path; pure (.info r.1 r.2, x.fds)
  | .fstat pid fd => do let r ← xfsFstat x pid fd; pure (.info r.1 r.2, x.fds)
  | .unlink path => do let r ← xfsUnlink x path; pure (.code r, x.fds)
  | .ftruncate pid fd size => do let r ← xfsFtruncate x pid fd size; pure (.code r, x.fds)
  | .exists path => do let r ← xfsExists x path; pure (.code r, x.fds)

/-! ## Running the programs -/

section Eval

variable {x y : Fs}

/-- **The disk is apart.**  A program changes neither the globals nor the descriptors. -/
theorem eval_disk {α : Type} (p : Io α) (y : Fs) :
    SameGlobals y (p.eval device y).2 ∧ (p.eval device y).2.fds = y.fds := by
  induction p generalizing y with
  | ret => exact ⟨.refl y, rfl⟩
  | read k b next ih => exact ih _ y
  | write b v next ih =>
    obtain ⟨hsame, hfds⟩ := ih (y.write b v)
    exact ⟨(write_same y b v).trans hsame, hfds.trans (write_fds y b v)⟩

@[simp] theorem eval_bitmapSet (block : ℕ) (used : Bool) (y : Fs) :
    (bitmapSet block used).eval device y = ((), Xfs.bitmapSet y block used) := rfl

@[simp] theorem eval_bitmapGet (block : ℕ) (y : Fs) :
    (bitmapGet block).eval device y = (Xfs.bitmapGet y block, y) := rfl

@[simp] theorem eval_writeInode (block : ℕ) (inode : Bytes) (y : Fs) :
    (writeInode block inode).eval device y = ((), Xfs.writeInode y block inode) := rfl

theorem eval_readInode (h : SameGlobals x y) (block : ℕ) :
    (readInode x block).eval device y = (Xfs.readInode y block, y) := by
  unfold Xfs.readInode
  rw [h.stack]
  rfl

theorem eval_freeBlock (h : SameGlobals x y) (block : ℕ) :
    (freeBlock x block).eval device y = ((), Xfs.freeBlock y block) := by
  unfold freeBlock Xfs.freeBlock
  rw [h.total]
  split <;> rfl

theorem eval_allocFrom (bs : List ℕ) (y : Fs) : (allocFrom bs).eval device y =
      match bs.find? fun b => !Xfs.bitmapGet y b with
      | some b => (some b, Xfs.bitmapSet y b true)
      | none => (none, y) := by
  induction bs with
  | nil => rfl
  | cons b bs ih =>
    unfold allocFrom
    rw [Prog.eval_bind, eval_bitmapGet, List.find?_cons]
    cases hb : Xfs.bitmapGet y b with
    | true => simpa using ih
    | false => simp

theorem eval_allocBlock (h : SameGlobals x y) :
    (allocBlock x).eval device y = Xfs.allocBlock y := by
  unfold allocBlock Xfs.allocBlock
  rewrite [eval_allocFrom, h.dataStart, h.total]
  rfl

theorem eval_scan (skip : Bool) (inode : Bytes) (pick : Bytes → ℕ → Bool) (dbs : List ℕ) (y : Fs) :
    (scan skip inode pick dbs).eval device y =
      (((dbs.flatMap fun db => (List.range maxDents).map (Prod.mk db)).find? fun e =>
          (!skip || dataBlock inode e.1 != 0) && pick (y.read (dataBlock inode e.1)) e.2).map
        fun e => (e.1, e.2, y.read (dataBlock inode e.1)), y) := by
  induction dbs with
  | nil => rfl
  | cons db dbs ih =>
    unfold scan
    rw [List.flatMap_cons, List.find?_append]
    by_cases hskip : skip = true ∧ dataBlock inode db = 0
    · have hnone : ((List.range maxDents).map (Prod.mk db)).find? (fun e =>
          (!skip || dataBlock inode e.1 != 0) && pick (y.read (dataBlock inode e.1)) e.2) =
            none := by
        simp [hskip.1, hskip.2]
      rw [if_pos hskip, ih, hnone, Option.none_or]
    have hread : (!skip || dataBlock inode db != 0) = true := by cases skip <;> simp_all
    have hfind : ((List.range maxDents).map (Prod.mk db)).find? (fun e =>
        (!skip || dataBlock inode e.1 != 0) && pick (y.read (dataBlock inode e.1)) e.2) =
          ((List.range maxDents).find? (pick (y.read (dataBlock inode db)))).map (Prod.mk db) := by
      rw [List.find?_map]
      congr 1
      exact List.find?_congr fun d _ => by simp [hread]
    rw [if_neg hskip, hfind, Prog.eval_bind]
    show (match (List.range maxDents).find? (pick (y.read (dataBlock inode db))) with
      | some d => (pure (some (db, d, y.read (dataBlock inode db))) : Io _)
      | none => scan skip inode pick dbs).eval device y = _
    cases (List.range maxDents).find? (pick (y.read (dataBlock inode db))) with
    | some => rfl
    | none => rw [ih]; rfl

/-- The scan of all blocks of a directory. -/
theorem eval_scan_all (skip : Bool) (inode : Bytes) (pick : Bytes → ℕ → Bool) (y : Fs) :
    (scan skip inode pick (List.range (blockCount inode))).eval device y =
      ((findDent y inode fun b s d => (!skip || b != 0) && pick s d).map
        fun e => (e.1, e.2, y.read (dataBlock inode e.1)), y) :=
  eval_scan skip inode pick _ y

section

variable (h : SameGlobals x y)
include h

theorem eval_walk (ino : ℕ) (names : List (List Byte)) :
    (walk x ino (Xfs.readInode y ino) names).eval device y =
      ((Xfs.walk y ino names).map fun c => (c, Xfs.readInode y c), y) := by
  induction names generalizing ino with
  | nil => rfl
  | cons name names ih =>
    unfold walk Xfs.walk lookup
    rw [Prog.eval_bind, eval_scan_all]
    simp only [Bool.not_true, Bool.false_or, ← Bool.and_assoc]
    cases findDent y (Xfs.readInode y ino) (fun b s d =>
        b != 0 && entInode s d != 0 && entMatches s d name) with
    | none => rfl
    | some e =>
      simp only [Option.map_some, Prog.eval_bind, eval_readInode h]
      exact ih _

theorem eval_resolvePath (path : List Byte) : (resolvePath x path).eval device y =
      ((Xfs.resolvePath y path).map fun c => (c, Xfs.readInode y c), y) := by
  unfold resolvePath Xfs.resolvePath
  cases path with
  | nil => rfl
  | cons =>
    simp only [h.rootBlock]
    split
    · rfl
    rw [Prog.eval_bind, eval_readInode h]
    split_ifs
    · rfl
    · rfl
    · rw [eval_walk h]

theorem eval_parentInode (path : List Byte) :
    (parentInode x path).eval device y = (Xfs.parentInode y path, y) := by
  unfold parentInode Xfs.parentInode
  rw [h.rootBlock]
  split
  · rfl
  · simp [eval_resolvePath h, Function.comp_def]

theorem eval_createIn (parent flags : ℕ) (name : List Byte) :
    (createIn x parent name flags).eval device y = match Xfs.allocBlock y with
      | (none, y) => (none, y)
      | (some ino, y) =>
        match Xfs.allocBlock y with
        | (none, y) => (none, Xfs.freeBlock y ino)
        | (some data, y) =>
          let y := Xfs.writeInode y ino (newInode name flags data)
          match addDirent y parent name ino flags with
          | none => (none, Xfs.freeBlock (Xfs.freeBlock y data) ino)
          | some y => (some ino, y) := by
  unfold createIn
  rw [Prog.eval_bind, eval_allocBlock h]
  rcases allocBlock_spec y with ⟨ino, ha, -⟩ | ha
  swap
  · rw [ha]; rfl
  have h₁ : SameGlobals x (Xfs.bitmapSet y ino true) := h.trans (bitmapSet_same _ _ _)
  simp only [ha, Prog.eval_bind, eval_allocBlock h₁]
  rcases allocBlock_spec (Xfs.bitmapSet y ino true) with ⟨data, ha', -⟩ | ha'
  swap
  · simp only [ha', Prog.eval_bind, eval_freeBlock h₁]; rfl
  have h₂ : SameGlobals x (Xfs.bitmapSet (Xfs.bitmapSet y ino true) data true) :=
    h₁.trans (bitmapSet_same _ _ _)
  set z := Xfs.writeInode (Xfs.bitmapSet (Xfs.bitmapSet y ino true) data true) ino
    (newInode name flags data) with hz
  have h₃ : SameGlobals x z := h₂.trans (writeInode_same _ _ _)
  simp only [ha', Prog.eval_bind, eval_writeInode, ← hz, eval_readInode h₃, eval_scan_all,
    Bool.not_false, Bool.true_or, Bool.true_and, addDirent]
  cases findDent z (Xfs.readInode z parent) (fun _ s d => entInode s d == 0) with
  | none =>
    simp only [Option.map_none, Prog.eval_bind, eval_freeBlock h₃,
      eval_freeBlock (h₃.trans (freeBlock_same z data))]
    rfl
  | some => rfl

theorem eval_createEntry (path : List Byte) (flags : ℕ) :
    (createEntry x path flags).eval device y = Xfs.createEntry y path flags := by
  unfold createEntry Xfs.createEntry
  rw [Prog.eval_bind, eval_parentInode h]
  cases Xfs.parentInode y path with
  | none => rfl
  | some =>
    split_ifs
    · rfl
    · rewrite [eval_createIn h]; rfl

end

theorem eval_readLoop (inode : Bytes) (offset count fuel : ℕ) (acc : List Byte) (y : Fs) :
    (readLoop inode offset count fuel acc).eval device y =
      (Xfs.readLoop y inode offset count fuel acc, y) := by
  induction fuel generalizing acc with
  | zero => rfl
  | succ fuel ih =>
    simp only [readLoop, Xfs.readLoop]
    split_ifs
    · rfl
    · rfl
    · exact ih _

theorem eval_growFor (h : SameGlobals x y) (inode : Bytes) (idx : ℕ) :
    (growFor x inode idx).eval device y = match Xfs.growFor y inode idx with
      | none => (none, y)
      | some (z, inode) => (some inode, z) := by
  unfold growFor Xfs.growFor
  split
  · rfl
  split
  · rfl
  rw [Prog.eval_bind, eval_allocBlock h]
  rcases allocBlock_spec y with ⟨nb, ha, -⟩ | ha <;> rw [ha] <;> rfl

theorem eval_sectorFor (b : ℕ) (partly : Prop) [Decidable partly] (y : Fs) :
    (sectorFor b partly).eval device y = (if partly then y.read b else fun _ => 0#8, y) := by
  unfold sectorFor
  split <;> rfl

theorem eval_writeLoop (offset : ℕ) (data : List Byte) (fuel : ℕ) {y : Fs} (h : SameGlobals x y)
    (inode : Bytes) (done : ℕ) :
    (writeLoop x offset data fuel inode done).eval device y =
      ((Xfs.writeLoop offset data fuel y inode done).2,
        (Xfs.writeLoop offset data fuel y inode done).1) := by
  induction fuel generalizing y inode done with
  | zero => rfl
  | succ fuel ih =>
    simp only [writeLoop, Xfs.writeLoop]
    split
    · rfl
    have hz := (eval_disk (growFor x inode ((offset + done) % 2 ^ 32 / xfsBlockSize)) y).1
    rw [eval_growFor h] at hz
    rw [Prog.eval_bind, eval_growFor h]
    cases hgrow : Xfs.growFor y inode ((offset + done) % 2 ^ 32 / xfsBlockSize) with
    | none => rfl
    | some =>
      rw [hgrow] at hz
      simp only
      split
      · rfl
      · rw [Prog.eval_bind, eval_sectorFor, Prog.eval_bind]
        exact ih ((h.trans hz).trans (write_same _ _ _)) _ _

theorem eval_readdirLoop (inode : Bytes) (max : ℕ) (dbs : List ℕ) (acc : List (List Byte)) (y : Fs)
    (hacc : acc.length ≤ max) :
    (readdirLoop inode max acc dbs).eval device y =
      (acc ++ ((((dbs.flatMap fun db => (List.range maxDents).map (Prod.mk db)).filter fun e =>
          dataBlock inode e.1 != 0 && entInode (y.read (dataBlock inode e.1)) e.2 != 0).take
        (max - acc.length)).map fun e => entryBytes (y.read (dataBlock inode e.1)) e.2), y) := by
  induction dbs generalizing acc with
  | nil => simp [readdirLoop]
  | cons db dbs ih =>
    unfold readdirLoop
    rw [List.flatMap_cons, List.filter_append]
    by_cases hfull : max ≤ acc.length
    · simp [hfull]
    rw [if_neg hfull]
    by_cases hb : dataBlock inode db = 0
    · have hnone : ((List.range maxDents).map (Prod.mk db)).filter (fun e =>
          dataBlock inode e.1 != 0 && entInode (y.read (dataBlock inode e.1)) e.2 != 0) = [] := by
        simp [hb]
      rw [if_pos hb, ih acc hacc, hnone, List.nil_append]
    set live := (List.range maxDents).filter fun d =>
      entInode (y.read (dataBlock inode db)) d != 0 with hlive
    have hfilter : ((List.range maxDents).map (Prod.mk db)).filter (fun e =>
        dataBlock inode e.1 != 0 && entInode (y.read (dataBlock inode e.1)) e.2 != 0) =
          live.map (Prod.mk db) := by
      rw [List.filter_map]
      congr 1
      exact List.filter_congr fun d _ => by simp [hb]
    rw [if_neg hb, hfilter, Prog.eval_bind]
    show (readdirLoop inode max (acc ++ (live.take (max - acc.length)).map
      (entryBytes (y.read (dataBlock inode db)))) dbs).eval device y = _
    have hlen : (acc ++ (live.take (max - acc.length)).map
        (entryBytes (y.read (dataBlock inode db)))).length =
          acc.length + min (max - acc.length) live.length := by
      simp
    rw [ih _ (by omega), List.take_append, List.map_append, ← List.append_assoc,
      ← List.map_take, List.map_map, List.length_map]
    congr 4
    omega

theorem eval_freeData (inode : Bytes) (ks : List ℕ) {y : Fs} (h : SameGlobals x y) :
    (freeData x inode ks).eval device y = ((), ks.foldl (fun y k => if dataBlock inode k ≠ 0 then
        Xfs.freeBlock y (dataBlock inode k) else y) y) := by
  induction ks generalizing y with
  | nil => rfl
  | cons k ks ih =>
    unfold freeData
    rw [List.foldl_cons]
    split
    · rw [Prog.eval_bind, eval_freeBlock h]
      exact ih (h.trans (freeBlock_same _ _))
    · exact ih h

theorem eval_extendLoop (needed fuel : ℕ) {y : Fs} (h : SameGlobals x y) (inode : Bytes) (i : ℕ) :
    (extendLoop x needed fuel inode i).eval device y =
      ((Xfs.extendLoop needed fuel y inode i).2, (Xfs.extendLoop needed fuel y inode i).1) := by
  induction fuel generalizing y inode i with
  | zero => rfl
  | succ fuel ih =>
    unfold extendLoop Xfs.extendLoop
    split
    · rw [Prog.eval_bind, eval_allocBlock h]
      rcases allocBlock_spec y with ⟨nb, ha, -⟩ | ha
      · simp only [ha]
        exact ih ((h.trans (bitmapSet_same _ _ _)).trans (write_same _ _ _)) _ _
      · simp only [ha]; rfl
    · rfl

/-! ## Running the calls -/

/-- Handing out a descriptor depends on the table only. -/
theorem openFd_congr (h : y.fds = x.fds) (pid ino flags : ℕ) : openFd y pid ino flags =
      ((openFd x pid ino flags).1, { y with fds := (openFd x pid ino flags).2.fds }) := by
  unfold openFd
  rw [h]
  cases (List.range xfsMaxFds).find? fun i => !(x.fds i).used with
  | none => rw [← h]
  | some => simp only [Fs.setFd, h]

section

variable (x)

theorem eval_xfsOpen (pid : ℕ) (path : List Byte) (flags : ℕ) :
    let r := (xfsOpen x pid path flags).eval device x
    Xfs.xfsOpen x pid path flags = (r.1.1, { r.2 with fds := r.1.2 }) := by
  unfold xfsOpen Xfs.xfsOpen
  split
  · rfl
  rw [Prog.eval_bind, eval_resolvePath (.refl x)]
  cases Xfs.resolvePath x path with
  | some ino => exact openFd_congr rfl pid ino flags
  | none =>
    simp only [Option.map_none]
    split
    · rfl
    rw [Prog.eval_bind, eval_createEntry (.refl x)]
    have hfds := (eval_disk (createEntry x path 0) x).2
    rw [eval_createEntry (.refl x)] at hfds
    cases hc : Xfs.createEntry x path 0 with
    | mk r =>
      rw [hc] at hfds
      cases r with
      | none => simp only [Prog.eval_pure, ← hfds]
      | some ino =>
        -- the read of the new inode changes nothing
        exact openFd_congr hfds pid ino flags

theorem eval_xfsRead (pid : ℕ) (fd : ℤ) (count : ℕ) :
    let r := (xfsRead x pid fd count).eval device x
    Xfs.xfsRead x pid fd count = (r.1.1, r.1.2.1, { r.2 with fds := r.1.2.2 }) := by
  unfold xfsRead Xfs.xfsRead
  cases fdOf x pid fd with
  | none => rfl
  | some i =>
    simp only
    by_cases hc : count = 0
    · simp [hc]
    rw [if_neg hc, Prog.eval_bind, eval_readInode (.refl x)]
    by_cases hs : inodeSize (Xfs.readInode x (x.fds i).inodeBlock) ≤ (x.fds i).offset
    · simp [hs]
    · simp [hc, hs, eval_readLoop, Fs.setFd]

theorem eval_xfsWrite (pid : ℕ) (fd : ℤ) (data : List Byte) :
    let r := (xfsWrite x pid fd data).eval device x
    Xfs.xfsWrite x pid fd data = (r.1.1, { r.2 with fds := r.1.2 }) := by
  unfold xfsWrite Xfs.xfsWrite
  cases fdOf x pid fd with
  | none => rfl
  | some i =>
    simp only
    split
    · rfl
    split
    · rfl
    rw [Prog.eval_bind, eval_readInode (.refl x)]
    have hfds := (eval_disk (writeLoop x (x.fds i).offset data data.length
      (Xfs.readInode x (x.fds i).inodeBlock) 0) x).2
    rw [eval_writeLoop _ _ _ (.refl x)] at hfds
    dsimp only at hfds
    rw [Prog.eval_bind, eval_writeLoop _ data _ (.refl x), writeInode_setFd]
    simp only [Prog.eval_bind, eval_writeInode, Prog.eval_pure, Fs.setFd, writeInode_fds, hfds]

theorem eval_xfsMkdir (path : List Byte) :
    (xfsMkdir x path).eval device x = Xfs.xfsMkdir x path := by
  unfold xfsMkdir Xfs.xfsMkdir
  split
  · rfl
  rw [Prog.eval_bind, eval_resolvePath (.refl x)]
  cases Xfs.resolvePath x path with
  | some => rfl
  | none =>
    simp only [Option.map_none]
    rw [Prog.eval_bind, eval_createEntry (.refl x)]
    cases Xfs.createEntry x path 1 with
    | mk r => cases r <;> rfl

theorem eval_xfsReaddir (pid : ℕ) (fd maxEntries : ℤ) :
    (xfsReaddir x pid fd maxEntries).eval device x = (Xfs.xfsReaddir x pid fd maxEntries, x) := by
  unfold xfsReaddir Xfs.xfsReaddir
  cases fdOf x pid fd with
  | none => rfl
  | some =>
    simp only
    split
    · rfl
    rw [Prog.eval_bind, eval_readInode (.refl x)]
    split
    · rfl
    rw [Prog.eval_bind, eval_readdirLoop _ _ _ _ _ (Nat.zero_le _)]
    rfl

theorem eval_xfsLseek (pid : ℕ) (fd offset : ℤ) (whence : ℕ) :
    let r := (xfsLseek x pid fd offset whence).eval device x
    Xfs.xfsLseek x pid fd offset whence = (r.1.1, { r.2 with fds := r.1.2 }) := by
  unfold xfsLseek Xfs.xfsLseek
  cases fdOf x pid fd with
  | none => rfl
  | some =>
    rw [Prog.eval_bind, eval_readInode (.refl x)]
    rcases whence with _ | _ | _ | _
    · simp only; split <;> rfl
    iterate 2 simp only; generalize Int.bmod _ _ = target; split <;> rfl
    · rfl

theorem eval_xfsStat (path : List Byte) :
    (xfsStat x path).eval device x = (Xfs.xfsStat x path, x) := by
  unfold xfsStat Xfs.xfsStat
  rw [Prog.eval_bind, eval_resolvePath (.refl x)]
  cases Xfs.resolvePath x path <;> rfl

theorem eval_xfsFstat (pid : ℕ) (fd : ℤ) :
    (xfsFstat x pid fd).eval device x = (Xfs.xfsFstat x pid fd, x) := by
  unfold xfsFstat Xfs.xfsFstat
  cases fdOf x pid fd with
  | none => rfl
  | some => simp only [Prog.eval_bind, eval_readInode (.refl x), Prog.eval_pure]

theorem eval_unlinkTarget (path : List Byte) : (unlinkTarget x path).eval device x =
      (if path.head? ≠ some slash then none
      else (Xfs.resolvePath x path).bind fun ino =>
        if isDir (Xfs.readInode x ino) then none
        else (Xfs.parentInode x path).map fun parent => (ino, Xfs.readInode x ino, parent), x) := by
  unfold unlinkTarget
  split
  · rfl
  rw [Prog.eval_bind, eval_resolvePath (.refl x)]
  cases Xfs.resolvePath x path with
  | none => rfl
  | some =>
    simp only [Option.map_some, Option.bind_some]
    split
    · rfl
    rw [Prog.eval_bind, eval_parentInode (.refl x)]
    cases Xfs.parentInode x path <;> rfl

theorem eval_removeFrom (ino parent : ℕ) :
    (removeFrom x ino (Xfs.readInode x ino) parent).eval device x =
      match findDent x (Xfs.readInode x parent) fun b s d =>
        b != 0 && entInode s d == ino % 2 ^ 32 with
      | none => (-1, x)
      | some (db, d) =>
        let b := dataBlock (Xfs.readInode x parent) db
        let inode := Xfs.readInode x ino
        let y := x.write b (clearDirent (x.read b) d)
        (0, Xfs.freeBlock (Xfs.freeData y inode 0 (blockCount inode)) ino) := by
  unfold removeFrom
  rw [Prog.eval_bind, eval_readInode (.refl x)]
  rw [Prog.eval_bind, eval_scan_all]
  simp only [Bool.not_true, Bool.false_or]
  cases findDent x (Xfs.readInode x parent) (fun b s d =>
      b != 0 && entInode s d == ino % 2 ^ 32) with
  | none => rfl
  | some e =>
    set y := x.write (dataBlock (Xfs.readInode x parent) e.1)
      (clearDirent (x.read (dataBlock (Xfs.readInode x parent) e.1)) e.2) with hy
    have hsame : SameGlobals x y := write_same _ _ _
    simp only [Option.map_some, Prog.eval_bind, Prog.eval_put]
    have hfreed := (eval_disk (freeData x (Xfs.readInode x ino)
      (List.range (blockCount (Xfs.readInode x ino)))) y).1
    rw [eval_freeData _ _ hsame] at hfreed
    show ((0 : ℤ), ((freeBlock x ino).eval device ((freeData x (Xfs.readInode x ino)
      (List.range (blockCount (Xfs.readInode x ino)))).eval device y).2).2) = _
    rw [eval_freeData _ _ hsame, eval_freeBlock (hsame.trans hfreed), List.range_eq_range']
    rfl

theorem eval_xfsUnlink (path : List Byte) :
    (xfsUnlink x path).eval device x = Xfs.xfsUnlink x path := by
  unfold xfsUnlink Xfs.xfsUnlink Xfs.unlinkTarget
  rw [Prog.eval_bind, eval_unlinkTarget]
  split_ifs
  · rfl
  cases Xfs.resolvePath x path with
  | none => rfl
  | some ino =>
    simp only [Option.bind_some]
    split_ifs
    · rfl
    cases Xfs.parentInode x path with
    | none => rfl
    | some parent =>
      simp only [Option.map_some]
      rw [eval_removeFrom]
      cases findDent x (Xfs.readInode x parent) (fun b s d =>
        b != 0 && entInode s d == ino % 2 ^ 32) <;> rfl

theorem eval_xfsFtruncate (pid : ℕ) (fd size : ℤ) :
    (xfsFtruncate x pid fd size).eval device x = Xfs.xfsFtruncate x pid fd size := by
  unfold xfsFtruncate Xfs.xfsFtruncate resize
  cases fdOf x pid fd with
  | none => rfl
  | some =>
    simp only
    split
    · rfl
    rw [Prog.eval_bind, eval_readInode (.refl x)]
    rw [Prog.eval_bind]
    split
    · rw [Prog.eval_bind, eval_freeData _ _ (.refl x)]; rfl
    · rw [Prog.eval_bind, eval_extendLoop _ _ (.refl x)]; rfl

theorem eval_xfsExists (path : List Byte) :
    (xfsExists x path).eval device x = (Xfs.xfsExists x path, x) := by
  unfold xfsExists Xfs.xfsExists
  by_cases hhead : path.head? = some slash <;> simp [hhead, eval_resolvePath (.refl x)]

/-- **The same calls.**  The program of a call gives its reply, its
descriptor table and its blocks. -/
theorem eval_exec (call : Call) :
    let r := (exec x call).eval device x
    Xfs.exec x call = (r.1.1, { r.2 with fds := r.1.2 }) := by
  cases call with
  | close =>
    simp only [exec, Xfs.exec, xfsClose]
    split <;> rfl
  | mkdir path =>
    have hfds := (eval_disk (xfsMkdir x path) x).2
    simp only [exec, Xfs.exec, Prog.eval_bind, Prog.eval_pure, eval_xfsMkdir, ← hfds]
  | unlink path =>
    have hfds := (eval_disk (xfsUnlink x path) x).2
    simp only [exec, Xfs.exec, Prog.eval_bind, Prog.eval_pure, eval_xfsUnlink, ← hfds]
  | ftruncate pid fd size =>
    have hfds := (eval_disk (xfsFtruncate x pid fd size) x).2
    simp only [exec, Xfs.exec, Prog.eval_bind, Prog.eval_pure, eval_xfsFtruncate, ← hfds]
  | _ =>
    simp only [exec, Xfs.exec, Prog.eval_bind, Prog.eval_pure, eval_xfsOpen, eval_xfsRead,
      eval_xfsWrite, eval_xfsReaddir, eval_xfsLseek, eval_xfsStat, eval_xfsFstat, eval_xfsExists]

end

end Eval

end Io

end Xos.Xfs
