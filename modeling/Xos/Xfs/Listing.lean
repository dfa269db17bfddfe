import Xos.Xfs.Ownership
import Xos.Xfs.Descriptors

/-!
# Listing a directory

`opendir` and `readdir` of the C library (`userspace/libc/syscalls.c`) over `xfs_readdir`.
`readdir` fetches up to 64 records into its buffer and hands them out one by one; when the buffer
is used up it fetches again.

* **The two sides do not fit.**  `xfs_readdir` begins with the first entry at every call, and its
  records are 76 bytes long; the library takes them to be 140 bytes long.
* **A listing comes to its end only in an empty directory** — `listing_iff`.  Any other is handed
  out again and again: `one_file_without_end`.
-/

namespace Xos.Libc

open Xos.Lib Xos.Xfs Function

/-! ## The library -/

/-- `sizeof(xfs_dirent_raw_t)`: the library's own `XFS_NAME_MAX` is 128. -/
def sizeofDirentRaw : ℕ := 140

/-- `DT_DIR` and `DT_REG`. -/
inductive DType where
  | dir
  | reg
  deriving DecidableEq

/-- `struct dirent`; `d_namlen` is the length of the name. -/
structure Dirent where
  dFileno : ℕ
  dType : DType
  dName : List Byte
  deriving DecidableEq

/-- `DIR`. -/
structure Dir where
  ddFd : ℤ
  ddLoc : ℕ
  ddSize : ℕ
  ddBuf : Bytes

/-- `opendir(path)`; `mem` is the fresh buffer, or `none` if there is no memory. -/
def opendir (x : Fs) (pid : ℕ) (path : List Byte) (mem : Option Bytes) : Option Dir × Fs :=
  let r := xfsOpen x pid path 0
  if r.1 < 0 then (none, r.2)
  else
    match mem with
    | none => (none, xfsClose r.2 r.1)
    | some buf => (some ⟨r.1, 0, 0, buf⟩, r.2)

/-- The buffer after `xfs_readdir` stored its records there, one behind the other. -/
def copyOut (buf : Bytes) (entries : List (List Byte)) : Bytes := fun a =>
  match entries[a / sizeofDirent]? with
  | some e => e.getD (a % sizeofDirent) 0#8
  | none => buf a

/-- The record at `a`, as the library reads it. -/
def rawDirent (buf : Bytes) (a : ℕ) : Dirent where
  dFileno := readLE buf (a + 128) 4
  dType := if (readLE buf (a + 136) 2).testBit 0 then .dir else .reg
  dName := cstr buf a 255

/-- The rest of `readdir`, once there is a record at `dd_loc`. -/
def nextDirent (d : Dir) : Option Dirent × Dir :=
  (some (rawDirent d.ddBuf d.ddLoc), { d with ddLoc := d.ddLoc + sizeofDirentRaw })

/-- `readdir(d)`. -/
def readdir (x : Fs) (pid : ℕ) (d : Dir) : Option Dirent × Dir :=
  if d.ddFd < 0 then (none, d)
  else if d.ddSize ≤ d.ddLoc then
    let r := xfsReaddir x pid d.ddFd 64
    if r.1 ≤ 0 then (none, d)
    else
      nextDirent { d with
        ddSize := r.1.toNat * sizeofDirentRaw, ddLoc := 0, ddBuf := copyOut d.ddBuf r.2 }
  else nextDirent d

/-! ## What a listing should be -/

/-- Entry `e` of a directory's block. -/
def direntAt (sector : Bytes) (e : ℕ) : Dirent where
  dFileno := entInode sector e
  dType := if (readLE sector (sizeofDirent * e + 72) 2).testBit 0 then .dir else .reg
  dName := entName sector e

/-- The live entries of a directory. -/
def liveDirents (x : Fs) (inode : Bytes) : List Dirent :=
  ((dentPlaces inode).filter fun e =>
    dataBlock inode e.1 != 0 && entInode (x.read (dataBlock inode e.1)) e.2 != 0).map fun e =>
      direntAt (x.read (dataBlock inode e.1)) e.2

/-- The inode behind an open directory. -/
def dirInode (x : Fs) (d : Dir) : Bytes := readInode x (x.fds d.ddFd.toNat).inodeBlock

/-- What call number `k` of `readdir` returns. -/
def nthReaddir (x : Fs) (pid : ℕ) (d : Dir) (k : ℕ) : Option Dirent :=
  (readdir x pid ((fun d => (readdir x pid d).2)^[k] d)).1

/-- The calls of `readdir` return `es`, one after the other, and then `NULL`. -/
def Lists (x : Fs) (pid : ℕ) (d : Dir) (es : List Dirent) : Prop :=
  (∀ k e, es[k]? = some e → nthReaddir x pid d k = some e) ∧ nthReaddir x pid d es.length = none

/-! ## When it is -/

variable {x y : Fs} {pid : ℕ} {d : Dir}

/-- What `opendir` leaves in its `DIR`. -/
theorem opendir_fd (hpid : pid < 2 ^ 32) (h : opendir x pid path mem = (some d, y)) :
    fdOf y pid d.ddFd = some d.ddFd.toNat ∧ 0 ≤ d.ddFd ∧ d.ddSize ≤ d.ddLoc := by
  unfold opendir at h
  dsimp only at h
  split at h
  · cases h
  next hneg =>
  cases mem with
  | none => cases h
  | some =>
    cases h
    rcases xfsOpen_fds x pid path 0 with ⟨he, -⟩ | ⟨i, f, hi, he, -, hu, hp, hfds⟩
    · rw [he] at hneg
      exact absurd (by decide) hneg
    refine ⟨?_, not_lt.mp hneg, le_rfl⟩
    unfold fdOf
    rw [he, hfds, Int.toNat_natCast, update_self, hu, hp, Nat.mod_eq_of_lt hpid]
    exact if_pos ⟨Int.natCast_nonneg i, Int.ofNat_lt.mpr hi, rfl, rfl⟩

/-- `xfs_readdir` finds something exactly if there is a live entry. -/
theorem xfsReaddir_nonpos_iff (hfd : fdOf x pid d.ddFd = some d.ddFd.toNat)
    (hdir : isDir (dirInode x d) = true) :
    (xfsReaddir x pid d.ddFd 64).1 ≤ 0 ↔ liveDirents x (dirInode x d) = [] := by
  unfold dirInode at hdir ⊢
  unfold xfsReaddir liveDirents
  rw [hfd]
  simp [hdir]

section

variable (hfd : 0 ≤ d.ddFd) (hpos : ¬(xfsReaddir x pid d.ddFd 64).1 ≤ 0)
include hfd hpos

/-- As long as `xfs_readdir` finds something, `readdir` returns something. -/
theorem readdir_some : (readdir x pid d).1 ≠ none ∧ (readdir x pid d).2.ddFd = d.ddFd := by
  unfold readdir
  rw [if_neg (not_lt.mpr hfd)]
  split
  · rw [if_neg hpos]
    exact ⟨nofun, rfl⟩
  · exact ⟨nofun, rfl⟩

theorem nthReaddir_some (k : ℕ) : nthReaddir x pid d k ≠ none := by
  have hsame : ((fun d => (readdir x pid d).2)^[k] d).ddFd = d.ddFd := by
    induction k with
    | zero => rfl
    | succ k ih =>
      rw [iterate_succ_apply']
      exact (readdir_some (ih ▸ hfd) (ih ▸ hpos)).2.trans ih
  exact (readdir_some (hsame ▸ hfd) (hsame ▸ hpos)).1

end

/-- **When a listing is right.**  On any file system and any directory, the calls of `readdir` that
follow `opendir` return every live entry once, with its name, inode and type, and then `NULL`,
exactly if the directory has no live entry. -/
theorem listing_iff {path : List Byte} {mem : Option Bytes} (hpid : pid < 2 ^ 32)
    (hopen : opendir x pid path mem = (some d, y)) (hdir : isDir (dirInode y d) = true) :
    (∃ es, es.Perm (liveDirents y (dirInode y d)) ∧ Lists y pid d es) ↔
      liveDirents y (dirInode y d) = [] := by
  obtain ⟨hfd, hnonneg, hempty⟩ := opendir_fd hpid hopen
  have hlive := xfsReaddir_nonpos_iff hfd hdir
  constructor
  · rintro ⟨es, -, -, hend⟩
    by_contra hne
    exact nthReaddir_some hnonneg (fun h => hne (hlive.mp h)) _ hend
  · intro h
    refine ⟨[], by rw [h], nofun, ?_⟩
    show (readdir y pid d).1 = none
    unfold readdir
    rw [if_neg (not_lt.mpr hnonneg), if_pos hempty, if_pos (hlive.mpr h)]

/-! ## Two listings -/

/-- The root of a fresh disk is listed as it is. -/
theorem fresh_root_listed : ∃ d y, opendir (freshDisk 8) 1 [slash] (some fun _ => 1#8) = (some d, y) ∧
    isDir (dirInode y d) = true ∧ ∃ es, es.Perm (liveDirents y (dirInode y d)) ∧ Lists y 1 d es := by
  refine ⟨_, _, rfl, by decide +kernel, ?_⟩
  have hopen : opendir (freshDisk 8) 1 [slash] (some fun _ => 1#8) = _ := rfl
  exact (listing_iff (by decide) hopen (by decide +kernel)).mpr (by decide +kernel)

/-- **A directory with one file.**  The first call returns the file, with the type of a directory
and an inode number from the bytes behind the record; the second returns it again, and no call
returns `NULL`. -/
theorem one_file_without_end : ∃ d y,
    opendir oneFile 1 [slash] (some fun _ => 1#8) = (some d, y) ∧ isDir (dirInode y d) = true ∧
      liveDirents y (dirInode y d) = [⟨4, .reg, [0x66#8]⟩] ∧
      nthReaddir y 1 d 0 = some ⟨0x01010101, .dir, [0x66#8]⟩ ∧
      nthReaddir y 1 d 1 = nthReaddir y 1 d 0 ∧ ∀ k, nthReaddir y 1 d k ≠ none := by
  refine ⟨_, _, rfl, by decide +kernel, by decide +kernel, by decide +kernel, by decide +kernel, ?_⟩
  exact nthReaddir_some (by decide +kernel) (by decide +kernel)

end Xos.Libc
