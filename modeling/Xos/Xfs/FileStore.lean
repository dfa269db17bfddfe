import Xos.Xfs.Content
import Xos.Xfs.Ownership

/-!
# Files as byte lists

What XFS is for, with regular files only: a `Store` has for each file the list of its bytes and
for each open descriptor an offset, and `Does` says what a call may do to it.

* **File bytes are reached as entries.**  A path that leads through a regular file has the
  file's bytes read, and written, as directory entries — `entry_in_file_bytes`.
* **Otherwise the disk is a store.**  Under `Regular` — an open finds a regular file of the
  tree or nothing, a new file goes into a directory of the tree, and no write starts behind the
  end of its file — every call does to `store x` what `Does` says, and a write is short only if
  the file has all its blocks or the disk is full (`file_refinement`).
-/

namespace Xos.Xfs

open Xos.Lib Function

variable {x y z : Fs} {f g i : ℕ} {fd : ℤ} {pid offset : ℕ} {data : List Byte}

/-! ## Stores -/

/-- An open descriptor. -/
structure Desc where
  pid : ℕ
  ino : ℕ
  offset : ℕ
  flags : ℕ

/-- Files and open descriptors. -/
structure Store where
  file : ℕ → Option (List Byte)
  desc : ℕ → Option Desc

def Store.setFile (s : Store) (ino : ℕ) (bytes : List Byte) : Store :=
  { s with file := update s.file ino (some bytes) }

def Store.setDesc (s : Store) (i : ℕ) (d : Option Desc) : Store :=
  { s with desc := update s.desc i d }

/-- `fd` is the descriptor `d` of the process. -/
structure Store.Has (s : Store) (pid : ℕ) (fd : ℤ) (d : Desc) : Prop where
  nonneg : 0 ≤ fd
  desc : s.desc fd.toNat = some d
  pid : d.pid = pid

/-- Where `xfs_lseek` counts from. -/
def seekBase (d : Desc) (bytes : List Byte) : ℕ → Option ℕ
  | 0 => some 0
  | 1 => some d.offset
  | 2 => some bytes.length
  | _ => none

/-- What a call may do to a store. -/
inductive Does (s : Store) : Call → Reply → Store → Prop
  | openFails {pid flags : ℕ} {path : List Byte} : Does s (.open pid path flags) (.code (-1)) s
  | opens {pid flags i ino : ℕ} {path bytes : List Byte} :
      s.file ino = some bytes → s.desc i = none →
      Does s (.open pid path flags) (.code i) (s.setDesc i (some ⟨pid % 2 ^ 32, ino, 0, flags⟩))
  /-- A new file is empty. -/
  | creates {pid flags i ino : ℕ} {path : List Byte} : s.file ino = none → s.desc i = none →
      Does s (.open pid path flags) (.code i)
        ((s.setFile ino []).setDesc i (some ⟨pid % 2 ^ 32, ino, 0, flags⟩))
  /-- There is a new file but no free descriptor. -/
  | createsOnly {pid flags ino : ℕ} {path : List Byte} : s.file ino = none →
      Does s (.open pid path flags) (.code (-1)) (s.setFile ino [])
  | closes {fd : ℤ} : 0 ≤ fd → Does s (.close fd) (.code 0) (s.setDesc fd.toNat none)
  | closesNone {fd : ℤ} : fd < 0 → Does s (.close fd) (.code 0) s
  | readFails {pid n : ℕ} {fd : ℤ} : (∀ d, ¬ s.Has pid fd d) →
      Does s (.read pid fd n) (.bytes (-1) []) s
  /-- The `min(n, size - offset)` bytes at the offset are returned, and the offset moves. -/
  | reads {pid n : ℕ} {fd : ℤ} {d : Desc} {bytes : List Byte} : s.Has pid fd d →
      s.file d.ino = some bytes →
      Does s (.read pid fd n)
        (.bytes (slice bytes d.offset n).length (slice bytes d.offset n))
        (s.setDesc fd.toNat
          (some { d with offset := d.offset + (slice bytes d.offset n).length }))
  | writeFails {pid : ℕ} {fd : ℤ} {data : List Byte} : (∀ d, ¬ s.Has pid fd d) →
      Does s (.write pid fd data) (.code (-1)) s
  | writeDenied {pid : ℕ} {fd : ℤ} {data : List Byte} {d : Desc} : s.Has pid fd d → data ≠ [] →
      d.flags.testBit 0 = false → d.flags.testBit 1 = false →
      Does s (.write pid fd data) (.code (-1)) s
  /-- The first `k` bytes of the buffer are in the file at the offset, and the offset moves. -/
  | writes {pid k : ℕ} {fd : ℤ} {data bytes : List Byte} {d : Desc} : s.Has pid fd d →
      s.file d.ino = some bytes → d.offset ≤ bytes.length → k ≤ data.length →
      Does s (.write pid fd data) (.code k)
        ((s.setFile d.ino (splice bytes d.offset (data.take k))).setDesc fd.toNat
          (some { d with offset := d.offset + k }))
  | seekFails {pid whence : ℕ} {fd offset : ℤ} :
      (∀ d bytes base (o : ℕ), s.Has pid fd d → s.file d.ino = some bytes →
        seekBase d bytes whence = some base → (base + offset).bmod (2 ^ 32) ≠ o) →
      Does s (.lseek pid fd offset whence) (.code (-1)) s
  | seeks {pid whence base o : ℕ} {fd offset : ℤ} {d : Desc} {bytes : List Byte} :
      s.Has pid fd d → s.file d.ino = some bytes → seekBase d bytes whence = some base →
      (base + offset).bmod (2 ^ 32) = o →
      Does s (.lseek pid fd offset whence) (.code o)
        (s.setDesc fd.toNat (some { d with offset := o }))

/-! ## The store on the disk -/

/-- The descriptor in an entry of the table. -/
def descOf (f : Fd) : Option Desc :=
  if f.used then some ⟨f.pid, f.inodeBlock, f.offset, f.flags⟩ else none

open Classical in
/-- The store that a disk holds. -/
noncomputable def store (x : Fs) : Store where
  file ino := if LiveFile x ino then some (content x ino) else none
  desc i := if i < xfsMaxFds then descOf (x.fds i) else none

/-- What the calls keep: the tree is sound, files have the blocks for their size, and
descriptors are of files. -/
structure WellFormed (x : Fs) : Prop where
  geometry : Geometry x
  sound : (tree x).Sound
  size : ∀ {f}, LiveFile x f →
    inodeSize (readInode x f) ≤ xfsBlockSize * blockCount (readInode x f)
  fds : ∀ {i}, i < xfsMaxFds → (x.fds i).used = true →
    LiveFile x (x.fds i).inodeBlock ∧ (x.fds i).offset < 2 ^ 31

/-- The calls on regular files, and what they have to respect:

* an open finds a file of the tree or nothing, and a new file goes into a directory;
* no write starts behind the end of the file;
* the offset of a seek is an `int`. -/
def Regular (x : Fs) : Call → Prop
  | .open pid path flags => (∀ ino, resolvePath x path = some ino → LiveFile x ino) ∧
      Orderly x (.open pid path flags)
  | .read _ _ _ | .close _ => True
  | .lseek _ _ offset _ => -2 ^ 31 ≤ offset ∧ offset < 2 ^ 31
  | .write pid fd _ => ∀ i, fdOf x pid fd = some i →
      (x.fds i).offset ≤ inodeSize (readInode x (x.fds i).inodeBlock)
  | _ => False

theorem store_file (h : LiveFile x f) : (store x).file f = some (content x f) := if_pos h

theorem store_file_none (h : ¬ LiveFile x f) : (store x).file f = none := if_neg h

theorem store_setFd (hi : i < xfsMaxFds) (x : Fs) (d : Fd) :
    store (x.setFd i d) = (store x).setDesc i (descOf d) := by
  unfold store
  congr 1
  funext j
  show (if j < xfsMaxFds then descOf (update x.fds i d j) else none) =
    update (fun j => if j < xfsMaxFds then descOf (x.fds j) else none) i (descOf d) j
  by_cases hj : j = i
  · rw [hj, update_self, update_self, if_pos hi]
  · rw [update_of_ne hj, update_of_ne hj]

/-- Two disks with the same files and the same table hold the same store. -/
theorem store_congr (hlive : ∀ g, LiveFile y g ↔ LiveFile x g)
    (hcontent : ∀ g, LiveFile x g → content y g = content x g) (hfds : y.fds = x.fds) :
    store y = store x := by
  unfold store
  rw [hfds]
  congr 1
  funext g
  by_cases hg : LiveFile x g
  · rw [if_pos hg, if_pos ((hlive g).mpr hg), hcontent g hg]
  · rw [if_neg hg, if_neg fun h => hg ((hlive g).mp h)]

/-- The file `f` may have changed, or be new. -/
theorem store_setFile (hf : LiveFile y f) (hlive : ∀ g, g ≠ f → (LiveFile y g ↔ LiveFile x g))
    (hcontent : ∀ g, g ≠ f → LiveFile x g → content y g = content x g) (hfds : y.fds = x.fds) :
    store y = (store x).setFile f (content y f) := by
  have hfile : (store y).file = update (store x).file f (some (content y f)) := by
    funext g
    by_cases hgf : g = f
    · rw [hgf, update_self, store_file hf]
    rw [update_of_ne hgf]
    by_cases hg : LiveFile x g
    · rw [store_file hg, store_file ((hlive g hgf).mpr hg), hcontent g hgf hg]
    · rw [store_file_none hg, store_file_none fun hy => hg ((hlive g hgf).mp hy)]
  have hdesc : (store y).desc = (store x).desc := by
    unfold store
    rw [hfds]
  unfold Store.setFile
  rw [← hfile, ← hdesc]

/-- The descriptor that passes the check of a call. -/
theorem has_of_fdOf (h : fdOf x pid fd = some i) :
    i = fd.toNat ∧ i < xfsMaxFds ∧ (x.fds i).used = true ∧
      (store x).Has pid fd ⟨(x.fds i).pid, (x.fds i).inodeBlock, (x.fds i).offset,
        (x.fds i).flags⟩ := by
  unfold fdOf at h
  split_ifs at h with hc
  obtain ⟨h0, hlt, hu, hpid⟩ := hc
  cases h
  have hi : fd.toNat < xfsMaxFds := by omega
  refine ⟨rfl, hi, hu, h0, ?_, hpid⟩
  show (if fd.toNat < xfsMaxFds then descOf (x.fds fd.toNat) else none) = _
  rw [if_pos hi, descOf, if_pos hu]

theorem not_has_of_fdOf (h : fdOf x pid fd = none) (d : Desc) : ¬ (store x).Has pid fd d := by
  rintro ⟨h0, hd, hpid⟩
  have hd' : (if fd.toNat < xfsMaxFds then descOf (x.fds fd.toNat) else none) = some d := hd
  split_ifs at hd' with hlt
  unfold descOf at hd'
  split_ifs at hd' with hu
  cases hd'
  unfold fdOf at h
  rw [if_pos ⟨h0, by omega, hu, hpid⟩] at h
  simp at h

theorem toInt_of_lt (h : n < 2 ^ 31) : toInt n = n := by
  unfold toInt
  rw [Int.bmod_eq_of_le] <;> omega

/-! ## Files that stay as they are -/

/-- Inode and bytes of the file are as they were. -/
structure SameFile (x y : Fs) (g : ℕ) : Prop where
  inode : readInode y g = readInode x g
  content : content y g = content x g

theorem SameFile.of_read (h : WellFormed x) (hsame : SameGlobals x y) (hg : LiveFile x g)
    (hread : y.read g = x.read g)
    (hblocks : ∀ j, j < (tree x).count g → y.read ((tree x).slot g j) = x.read ((tree x).slot g j)) :
    SameFile x y g := by
  have hinode : readInode y g = readInode x g := readInode_congr hsame hread
  refine ⟨hinode, content_congr ?_ (h.sound.count_le hg.1) (h.size hg) hblocks⟩
  rw [hinode]
  exact fun _ _ => rfl

theorem SameFile.size (h : SameFile x y g) (hx : WellFormed x) (hg : LiveFile x g) :
    inodeSize (readInode y g) ≤ xfsBlockSize * blockCount (readInode y g) := by
  rw [h.inode]
  exact hx.size hg

theorem LiveFile.small (h : LiveFile x f) (hx : WellFormed x) : f < 2 ^ 32 :=
  lt_of_lt_of_le (hx.sound.live_range h.1).2 hx.geometry.small

theorem LiveFile.size_lt (h : LiveFile x f) (hx : WellFormed x) :
    inodeSize (readInode x f) < 2 ^ 31 := by
  have hsize := hx.size h
  have hcount : blockCount (readInode x f) ≤ maxDirect := hx.sound.count_le h.1
  simp only [xfsBlockSize, maxDirect] at *
  omega

/-- A change of one descriptor. -/
theorem WellFormed.setFd (h : WellFormed x) (i : ℕ) (d : Fd)
    (hd : d.used = true → LiveFile x d.inodeBlock ∧ d.offset < 2 ^ 31) :
    WellFormed (x.setFd i d) := by
  refine ⟨h.geometry.same (setFd_same x i d), h.sound, h.size, ?_⟩
  intro j hj hu
  rw [setFd_fds] at hu ⊢
  by_cases hji : j = i
  · rw [hji, update_self] at hu ⊢
    exact hd hu
  · rw [update_of_ne hji] at hu ⊢
    exact h.fds hj hu

/-! ## Close, seek and read -/

theorem close_does (x : Fs) (fd : ℤ) :
    Does (store x) (.close fd) (.code 0) (store (xfsClose x fd)) := by
  unfold xfsClose
  by_cases h0 : 0 ≤ fd
  · have hdoes := Does.closes (s := store x) h0
    by_cases hlt : fd < xfsMaxFds
    · rw [if_pos ⟨h0, hlt⟩, store_setFd (by omega)]
      exact hdoes
    -- there is no such descriptor
    rw [if_neg fun hc => hlt hc.2]
    have hnone : (store x).desc fd.toNat = none := if_neg (by omega)
    unfold Store.setDesc at hdoes
    rw [← hnone, update_eq_self] at hdoes
    exact hdoes
  · rw [if_neg fun hc => h0 hc.1]
    exact .closesNone (by omega)

section

variable (h : WellFormed x)
include h

theorem close_wellFormed (fd : ℤ) : WellFormed (xfsClose x fd) := by
  unfold xfsClose
  split
  · exact h.setFd _ _ (fun hu => nomatch hu)
  · exact h

/-- `xfs_lseek` through a descriptor, by where it counts from. -/
theorem xfsLseek_eq {whence : ℕ} {offset : ℤ} (hfd : fdOf x pid fd = some i)
    (hr : -2 ^ 31 ≤ offset ∧ offset < 2 ^ 31) :
    xfsLseek x pid fd offset whence =
      match seekBase ⟨(x.fds i).pid, (x.fds i).inodeBlock, (x.fds i).offset, (x.fds i).flags⟩
        (content x (x.fds i).inodeBlock) whence with
      | none => (-1, x)
      | some base =>
        if (base + offset).bmod (2 ^ 32) < 0 then (-1, x)
        else ((base + offset).bmod (2 ^ 32),
          x.setFd i { x.fds i with offset := ((base + offset).bmod (2 ^ 32)).toNat }) := by
  obtain ⟨-, hi, hu, -⟩ := has_of_fdOf hfd
  obtain ⟨hf, hoff⟩ := h.fds hi hu
  have hoffset : toInt (x.fds i).offset = (x.fds i).offset := toInt_of_lt hoff
  have hsize : toInt (inodeSize (readInode x (x.fds i).inodeBlock)) =
      (content x (x.fds i).inodeBlock).length := by
    rw [toInt_of_lt (hf.size_lt h), length_content]
  have hzero : ((0 : ℕ) + offset).bmod (2 ^ 32) = offset := by
    rw [Int.bmod_eq_of_le] <;> omega
  unfold xfsLseek
  simp only [hfd, hoffset, hsize]
  obtain _ | _ | _ | _ := whence
  · simp only [seekBase, hzero]
  all_goals rfl

theorem lseek_does {offset : ℤ} (hr : -2 ^ 31 ≤ offset ∧ offset < 2 ^ 31) :
    Does (store x) (.lseek pid fd offset whence) (.code (xfsLseek x pid fd offset whence).1)
        (store (xfsLseek x pid fd offset whence).2) ∧
      WellFormed (xfsLseek x pid fd offset whence).2 := by
  cases hfd : fdOf x pid fd with
  | none =>
    have heq : xfsLseek x pid fd offset whence = (-1, x) := by simp only [xfsLseek, hfd]
    rw [heq]
    exact ⟨.seekFails fun d _ _ _ hd => absurd hd (not_has_of_fdOf hfd d), h⟩
  | some =>
    obtain ⟨rfl, hi, hu, hhas⟩ := has_of_fdOf hfd
    obtain ⟨hf, hoff⟩ := h.fds hi hu
    have hfile := store_file hf
    rw [xfsLseek_eq h hfd hr]
    generalize hd : (⟨(x.fds fd.toNat).pid, (x.fds fd.toNat).inodeBlock,
      (x.fds fd.toNat).offset, (x.fds fd.toNat).flags⟩ : Desc) = d at *
    have hino : d.ino = (x.fds fd.toNat).inodeBlock := by rw [← hd]
    -- the descriptor and its file are the only ones there can be
    have honly : ∀ {d' bytes}, (store x).Has pid fd d' → (store x).file d'.ino = some bytes →
        d' = d ∧ bytes = content x (x.fds fd.toNat).inodeBlock := by
      intro d' bytes hd' hb
      obtain rfl : d' = d := Option.some.inj (hd'.desc.symm.trans hhas.desc)
      rw [hino, hfile] at hb
      exact ⟨rfl, (Option.some.inj hb).symm⟩
    cases hb : seekBase d (content x (x.fds fd.toNat).inodeBlock) whence with
    | none =>
      refine ⟨.seekFails fun d' bytes base o hd' hb' hs => ?_, h⟩
      obtain ⟨rfl, rfl⟩ := honly hd' hb'
      rw [hb] at hs
      cases hs
    | some base =>
      dsimp only
      by_cases hneg : ((base : ℤ) + offset).bmod (2 ^ 32) < 0
      · rw [if_pos hneg]
        refine ⟨.seekFails fun d' bytes base' o hd' hb' hs ho => ?_, h⟩
        obtain ⟨rfl, rfl⟩ := honly hd' hb'
        obtain rfl := Option.some.inj (hb.symm.trans hs)
        omega
      rw [if_neg hneg]
      obtain ⟨o, ho⟩ := Int.eq_ofNat_of_zero_le (not_lt.mp hneg)
      have holt : o < 2 ^ 31 := by
        have := Int.bmod_lt (x := (base : ℤ) + offset) (m := 2 ^ 32) (by decide)
        omega
      rw [ho, store_setFd hi]
      refine ⟨?_, h.setFd _ _ fun _ => ⟨hf, holt⟩⟩
      have hdoes := Does.seeks (o := o) hhas (hino ▸ hfile) hb ho
      rw [← hd] at hdoes
      rw [descOf, if_pos hu]
      exact hdoes

/-- The bytes that `xfs_read` copies. -/
theorem xfsRead_eq (hfd : fdOf x pid fd = some i) :
    let got := slice (content x (x.fds i).inodeBlock) (x.fds i).offset n
    (xfsRead x pid fd n).1 = got.length ∧ (xfsRead x pid fd n).2.1 = got ∧
      (xfsRead x pid fd n).2.2 =
        x.setFd i { x.fds i with offset := (x.fds i).offset + got.length } := by
  intro got
  obtain ⟨-, hi, hu, -⟩ := has_of_fdOf hfd
  obtain ⟨hf, hoff⟩ := h.fds hi hu
  have hsize := h.size hf
  have hlt := hf.size_lt h
  set f := (x.fds i).inodeBlock with hfi
  set o := (x.fds i).offset with ho
  have hlen : got.length = min n (inodeSize (readInode x f) - o) := by
    rw [length_slice, length_content]
  unfold xfsRead
  simp only [hfd, ← ho]
  by_cases hend : n = 0 ∨ inodeSize (readInode x f) ≤ o
  · have hnil : got = [] := List.eq_nil_of_length_eq_zero (by omega)
    rw [if_pos hend, hnil]
    refine ⟨rfl, rfl, ?_⟩
    have hsame : ({ x.fds i with offset := o + ([] : List Byte).length } : Fd) = x.fds i := rfl
    show x = { x with fds := update x.fds i _ }
    rw [hsame, update_eq_self]
  rw [if_neg hend]
  -- the blocks of the file reach to the end of the request
  have hblock : ∀ j, j < blockCount (readInode x f) → dataBlock (readInode x f) j ≠ 0 := by
    intro j hj
    have hlo : x.dataStart ≤ dataBlock (readInode x f) j := (h.sound.slot_range hf.1 hj).1
    have hpos := h.geometry.dataStart_pos
    omega
  set count := min n (inodeSize (readInode x f) - o) with hcount
  obtain ⟨hl, hb⟩ := @readLoop_spec x (readInode x f) o count (by omega)
    (h.sound.count_le hf.1) hblock count [] (by simp) (by simp) (by simp)
  set l := readLoop x (readInode x f) o count count [] with hldef
  have hgot : l = got := by
    refine List.ext_getElem? fun k => ?_
    by_cases hk : k < count
    · have hin : o + k < inodeSize (readInode x f) := by omega
      rw [hb k hk, getElem?_slice (by omega), getElem?_content hin]
    · rw [List.getElem?_eq_none (by omega), List.getElem?_eq_none (by omega)]
  rw [hgot, toInt_of_lt (by omega), Nat.mod_eq_of_lt (by omega)]
  exact ⟨rfl, rfl, rfl⟩

theorem read_does (pid : ℕ) (fd : ℤ) (n : ℕ) : Does (store x) (.read pid fd n)
        (.bytes (xfsRead x pid fd n).1 (xfsRead x pid fd n).2.1) (store (xfsRead x pid fd n).2.2) ∧
      WellFormed (xfsRead x pid fd n).2.2 := by
  cases hfd : fdOf x pid fd with
  | none =>
    have heq : xfsRead x pid fd n = (-1, [], x) := by simp only [xfsRead, hfd]
    rw [heq]
    exact ⟨.readFails (not_has_of_fdOf hfd), h⟩
  | some =>
    obtain ⟨h₁, h₂, h₃⟩ := xfsRead_eq h (n := n) hfd
    obtain ⟨rfl, hi, hu, hhas⟩ := has_of_fdOf hfd
    obtain ⟨hf, hoff⟩ := h.fds hi hu
    rw [h₁, h₂, h₃, store_setFd hi, descOf, if_pos hu]
    refine ⟨.reads hhas (store_file hf), h.setFd _ _ fun _ => ⟨hf, ?_⟩⟩
    have hlt := hf.size_lt h
    show (x.fds fd.toNat).offset + (slice _ _ _).length < 2 ^ 31
    rw [length_slice, length_content]
    omega

end

/-! ## Write -/

/-- What a write of `k` bytes does to the file `f`. -/
structure WroteFile (x y : Fs) (f offset : ℕ) (data : List Byte) (k : ℕ) : Prop where
  same : SameGlobals x y
  sound : (tree y).Sound
  le : k ≤ data.length
  live : ∀ g, LiveFile y g ↔ LiveFile x g
  fds : y.fds = x.fds
  length : inodeSize (readInode y f) = max (inodeSize (readInode x f)) (offset + k)
  old : ∀ j, j < xfsBlockSize * blockCount (readInode x f) → j < offset ∨ offset + k ≤ j →
    byteAt y (readInode y f) j = byteAt x (readInode x f) j
  new : ∀ j, offset ≤ j → j < offset + k → some (byteAt y (readInode y f) j) = data[j - offset]?
  size : inodeSize (readInode y f) ≤ xfsBlockSize * blockCount (readInode y f)
  reach : offset + k < 2 ^ 31
  others : ∀ g, LiveFile x g → g ≠ f → SameFile x y g
  count : blockCount (readInode x f) ≤ blockCount (readInode y f)
  short : k < data.length → offset + k = xfsBlockSize * blockCount (readInode y f) ∧
    (blockCount (readInode y f) = maxDirect ∨ Full y)

theorem inBounds_of_le (hoff : offset ≤ xfsBlockSize * blockCount (readInode x f)) :
    InBounds offset (readInode x f) := by
  unfold InBounds
  simp only [xfsBlockSize] at *
  omega

theorem LiveFile.resize_iff (h : BlockTree.Resize (tree x) (tree y) f) :
    LiveFile y g ↔ LiveFile x g := by
  unfold LiveFile
  rw [h.live_iff]
  refine and_congr_right fun hg => ?_
  by_cases hgf : g = f
  · rw [hgf, h.dir, h.file]
  · rw [(h.inode hg hgf).dir]

/-- The blocks of another file are none of the growing one's. -/
theorem OnlyOwn.read_other (h : OnlyOwn x f z inode) (hs : (tree x).Sound) (hf : LiveFile x f)
    (hg : LiveFile x g) (hne : g ≠ f) (hj : j < (tree x).count g) :
    z.read ((tree x).slot g j) = x.read ((tree x).slot g j) := by
  refine h.others _ (hs.slot_range hg.1 hj).1 fun k hk he => ?_
  by_cases hold : k < blockCount (readInode x f)
  · rw [h.growing.old k hold] at he
    exact hne (hs.slot_inj hf.1 hold hg.1 hj he).1.symm
  have hfree := (h.growing.new k (by omega) hk).2.2
  have hu : bitmapGet x ((tree x).slot g j) = true := hs.slot_used hg.1 hj
  rw [he, hu] at hfree
  cases hfree

@[simp] theorem blockCount_writtenInode (offset : ℕ) (r : Bytes × ℕ) :
    blockCount (writtenInode offset r) = blockCount r.1 := by
  unfold writtenInode; split <;> simp

@[simp] theorem dataBlock_writtenInode (offset : ℕ) (r : Bytes × ℕ) (j : ℕ) :
    dataBlock (writtenInode offset r) j = dataBlock r.1 j := by
  unfold writtenInode; split <;> simp

/-- The bytes of the loop are in the file. -/
theorem OnlyOwn.byteAt_written {r : Fs × Bytes × ℕ} (hown : OnlyOwn x f r.1 r.2.1)
    (h : WellFormed x) (hf : LiveFile x f) (offset : ℕ)
    (hk : k < xfsBlockSize * blockCount r.2.1) :
    let y := writeInode r.1 f (writtenInode offset r.2)
    byteAt y (readInode y f) k = byteAt r.1 r.2.1 k := by
  intro y
  have hgrow := hown.growing
  have hcount := hgrow.tidy.count_le
  have hidx : k / xfsBlockSize < blockCount r.2.1 := by
    rw [Nat.div_lt_iff_lt_mul (by decide), Nat.mul_comm]
    exact hk
  have hne : dataBlock r.2.1 (k / xfsBlockSize) ≠ f := fun he =>
    (hgrow.block_spec h.sound hf.1 hf.2 hidx).2.2 (he ▸ .inl hf.1)
  unfold byteAt
  rw [(hgrow.inode_fields h.geometry h.sound hf.1 _).block (by omega), dataBlock_writtenInode]
  exact congrFun (read_write_of_ne hne) _

/-- What `xfs_write` stores after its loop. -/
theorem Wrote.wroteFile {r : Fs × Bytes × ℕ} (hwrote : Wrote offset data 0 x (readInode x f) r)
    (h : WellFormed x) (hf : LiveFile x f) (hown : OnlyOwn x f r.1 r.2.1) :
    WroteFile x (writeInode r.1 f (writtenInode offset r.2)) f offset data r.2.2 := by
  have hsize := h.size hf
  have hgrow := hown.growing
  have hreach := hwrote.reach
  have hcount := hgrow.tidy.count_le
  have hsmall : offset + r.2.2 < 2 ^ 31 := by
    simp only [xfsBlockSize, maxDirect] at *
    omega
  set inode' := writtenInode offset r.2 with hinode'
  set y := writeInode r.1 f inode' with hy
  have hcount' : blockCount inode' = blockCount r.2.1 := blockCount_writtenInode _ _
  have hblock' : ∀ j, dataBlock inode' j = dataBlock r.2.1 j := dataBlock_writtenInode _ _
  have hsize' : inodeSize inode' = max (inodeSize (readInode x f)) (offset + r.2.2) := by
    rw [hinode', writtenInode, hown.size]
    split
    · rw [inodeSize_setSize]; omega
    · rw [hown.size]; omega
  have hfields : SameFields (readInode y f) inode' := hgrow.inode_fields h.geometry h.sound hf.1 _
  have hres : BlockTree.Resize (tree x) (tree y) f := by
    refine hgrow.resize h.geometry h.sound hf.1 hf.2 ?_ hcount' hblock'
    rw [hinode', writtenInode]; split <;> simp
  have hsame : SameGlobals x y := hgrow.frame.same.trans (writeInode_same _ _ _)
  have hbyte := fun k => hown.byteAt_written h hf offset (k := k)
  refine ⟨hsame, h.sound.resize hres, hwrote.le_length, fun g => LiveFile.resize_iff hres, ?_, ?_,
    ?_, ?_, ?_, hsmall, ?_, ?_, ?_⟩
  · rw [writeInode_fds, hgrow.fds]
  · rw [hfields.size, hsize']
  · intro j hj hout
    rw [hbyte j (lt_of_lt_of_le hj (Nat.mul_le_mul_left _ hwrote.count))]
    exact hwrote.old j hj (by omega)
  · intro j hlo hhi
    rw [hbyte j (by omega)]
    exact hwrote.new j (by omega) hhi
  · rw [hfields.size, hfields.count, hcount']
    have := Nat.mul_le_mul_left xfsBlockSize hwrote.count
    omega
  · intro g hg hne
    refine .of_read h hsame hg (hgrow.read_held h.sound (.inl hg.1) hne) fun j hj => ?_
    rw [hy, writeInode, read_write_of_ne (h.sound.live_ne_slot hf.1 hg.1 hj)]
    exact hown.read_other h.sound hf hg hne hj
  · rw [hfields.count, hcount']
    exact hwrote.count
  · intro hlt
    rw [hfields.count, hcount']
    refine (hwrote.short hlt).imp_right (Or.imp_right fun hfull b hlo hhi => ?_)
    have hgr := h.geometry.same hgrow.frame.same
    have hrange := (h.sound.live_range hf.1).1
    rw [hsame.dataStart] at hlo
    rw [hsame.total] at hhi
    rw [hy, writeInode, bitmapGet_write hgr (by rw [hgrow.frame.same.total]; exact hhi)
      (by rw [hgrow.frame.same.dataStart]; exact hrange)]
    exact hfull b (by rw [hgrow.frame.same.dataStart]; exact hlo)
      (by rw [hgrow.frame.same.total]; exact hhi)

theorem wroteFile (h : WellFormed x) (hf : LiveFile x f)
    (hoff : offset ≤ xfsBlockSize * blockCount (readInode x f)) (data : List Byte) :
    let r := writeLoop offset data data.length x (readInode x f) 0
    WroteFile x (writeInode r.1 f (writtenInode offset r.2)) f offset data r.2.2 :=
  (writeLoop_bytes h.geometry h.sound hf.1 hf.2 data.length (.start h.sound hf.1)
    (Nat.zero_le _) (by omega) (by omega)).wroteFile h hf
    (writeLoop_others h.geometry h.sound hf.1 hf.2 (inBounds_of_le hoff) data)

/-- At an offset in the file, the bytes are written over the old ones and behind them. -/
theorem WroteFile.bytes (h : WroteFile x y f offset data k) (hx : WellFormed x) (hf : LiveFile x f)
    (hoff : offset ≤ inodeSize (readInode x f)) :
    content y f = splice (content x f) offset (data.take k) := by
  have hle : offset ≤ (content x f).length := by rw [length_content]; exact hoff
  have htake : (data.take k).length = k := by rw [List.length_take, min_eq_left h.le]
  have hlen := h.length
  have hsize := hx.size hf
  refine List.ext_getElem? fun j => ?_
  by_cases hj : offset ≤ j ∧ j < offset + k
  · rw [getElem?_splice_of_mem hle hj.1 (by omega), getElem?_content (by omega),
      h.new j hj.1 hj.2, List.getElem?_take_of_lt (by omega)]
  rw [getElem?_splice_of_not_mem hle (by omega)]
  by_cases hjx : j < inodeSize (readInode x f)
  · rw [getElem?_content (by omega), getElem?_content hjx, h.old j (by omega) (by omega)]
  · rw [List.getElem?_eq_none (by rw [length_content]; omega),
      List.getElem?_eq_none (by rw [length_content]; omega)]

theorem store_wrote (hx : WellFormed x) (hf : LiveFile x f)
    (hoff : offset ≤ inodeSize (readInode x f)) (h : WroteFile x y f offset data k) :
    store y = (store x).setFile f (splice (content x f) offset (data.take k)) := by
  rw [← h.bytes hx hf hoff]
  exact store_setFile ((h.live f).mpr hf) (fun g _ => h.live g)
    (fun g hne hg => (h.others g hg hne).content) h.fds

theorem WroteFile.wellFormed (h : WroteFile x y f offset data k) (hx : WellFormed x) :
    WellFormed y := by
  refine ⟨hx.geometry.same h.same, h.sound, ?_, ?_⟩
  · intro g hg
    have hg' := (h.live g).mp hg
    by_cases hgf : g = f
    · rw [hgf]; exact h.size
    · exact (h.others g hg' hgf).size hx hg'
  · intro j hj hu
    rw [h.fds] at hu ⊢
    exact (hx.fds hj hu).imp_left (h.live _).mpr

/-- What `xfs_write` comes to when its loop has written the file. -/
theorem xfsWrite_of_wroteFile (hfd : fdOf x pid fd = some i) (hdata : data ≠ [])
    (hflags : Writable (x.fds i)) :
    let r := writeLoop (x.fds i).offset data data.length x (readInode x (x.fds i).inodeBlock) 0
    let y := writeInode r.1 (x.fds i).inodeBlock (writtenInode (x.fds i).offset r.2)
    WroteFile x y (x.fds i).inodeBlock (x.fds i).offset data r.2.2 →
      xfsWrite x pid fd data =
        ((r.2.2 : ℤ), y.setFd i { x.fds i with offset := (x.fds i).offset + r.2.2 }) := by
  dsimp only
  intro hw
  have hreach := hw.reach
  rw [xfsWrite_eq hfd hdata hflags, toInt_of_lt (by omega), Nat.mod_eq_of_lt (by omega)]

/-- `xfs_write` through a descriptor: it is refused, has nothing to write, or writes what its loop
has written. -/
theorem xfsWrite_cases (hfd : fdOf x pid fd = some i) (hwrote : data ≠ [] → Writable (x.fds i) →
      let r := writeLoop (x.fds i).offset data data.length x (readInode x (x.fds i).inodeBlock) 0
      WroteFile x (writeInode r.1 (x.fds i).inodeBlock (writtenInode (x.fds i).offset r.2))
        (x.fds i).inodeBlock (x.fds i).offset data r.2.2) :
    (data = [] ∧ xfsWrite x pid fd data = (0, x)) ∨
    (data ≠ [] ∧ ¬ Writable (x.fds i) ∧ xfsWrite x pid fd data = (-1, x)) ∨
    ∃ (k : ℕ) (y : Fs), data ≠ [] ∧ xfsWrite x pid fd data =
        ((k : ℤ), y.setFd i { x.fds i with offset := (x.fds i).offset + k }) ∧
      WroteFile x y (x.fds i).inodeBlock (x.fds i).offset data k := by
  by_cases hdata : data = []
  · exact .inl ⟨hdata, by simp only [xfsWrite, hfd, hdata, if_true]⟩
  by_cases hflags : ((x.fds i).flags.testBit 0 || (x.fds i).flags.testBit 1) = true
  · have hwrote := hwrote hdata hflags
    exact .inr (.inr ⟨_, _, hdata, xfsWrite_of_wroteFile hfd hdata hflags hwrote, hwrote⟩)
  · refine .inr (.inl ⟨hdata, hflags, ?_⟩)
    simp only [xfsWrite, hfd, hdata, hflags, if_false, Bool.not_false, if_true]

section

variable (h : WellFormed x)
include h

theorem write_does (hr : Regular x (.write pid fd data)) :
    Does (store x) (.write pid fd data) (.code (xfsWrite x pid fd data).1)
        (store (xfsWrite x pid fd data).2) ∧ WellFormed (xfsWrite x pid fd data).2 ∧
      ∀ i (k : ℕ), fdOf x pid fd = some i → (xfsWrite x pid fd data).1 = k → k < data.length →
        blockCount (readInode (xfsWrite x pid fd data).2 (x.fds i).inodeBlock) = maxDirect ∨
          Full (xfsWrite x pid fd data).2 := by
  cases hfd : fdOf x pid fd with
  | none =>
    have heq : xfsWrite x pid fd data = (-1, x) := by simp only [xfsWrite, hfd]
    rw [heq]
    exact ⟨.writeFails (not_has_of_fdOf hfd), h, fun i k hi => by cases hi⟩
  | some i =>
    have hoff := hr i hfd
    obtain ⟨rfl, hi, hu, hhas⟩ := has_of_fdOf hfd
    obtain ⟨hf, -⟩ := h.fds hi hu
    have hle : (x.fds fd.toNat).offset ≤ (content x (x.fds fd.toNat).inodeBlock).length := by
      rw [length_content]; exact hoff
    rcases xfsWrite_cases hfd fun _ _ => wroteFile h hf (hoff.trans (h.size hf)) data with
      ⟨hdata, heq⟩ | ⟨hdata, hflags, heq⟩ | ⟨k, y, -, heq, hwrote⟩
    · rw [heq]
      refine ⟨?_, h, fun i k _ _ hk => absurd hk (by simp [hdata])⟩
      have hdoes := @Does.writes _ pid 0 fd data _ _ hhas (store_file hf) hle (Nat.zero_le _)
      rw [List.take_zero, splice_nil] at hdoes
      unfold Store.setFile Store.setDesc at hdoes
      rw [← store_file hf, update_eq_self, Nat.add_zero, ← hhas.desc, update_eq_self] at hdoes
      exact hdoes
    · rw [heq]
      unfold Writable at hflags
      rw [Bool.or_eq_true, not_or, Bool.not_eq_true, Bool.not_eq_true] at hflags
      refine ⟨.writeDenied hhas hdata hflags.1 hflags.2, h, fun j k _ hk => ?_⟩
      omega
    · rw [heq]
      refine ⟨?_, ?_, ?_⟩
      · rw [store_setFd hi, store_wrote h hf hoff hwrote, descOf, if_pos hu]
        exact .writes hhas (store_file hf) hle hwrote.le
      · exact (hwrote.wellFormed h).setFd _ _ fun _ => ⟨(hwrote.live _).mpr hf, hwrote.reach⟩
      · intro j k' hj hk hlt
        cases hj
        obtain rfl : k = k' := Int.ofNat.inj hk
        exact (hwrote.short hlt).2

/-! ## Open -/

/-- The store after a creation that fails. -/
theorem store_of_unchanged (hu : Unchanged x y) (hfr : Frame x y fun q => bitmapGet x q = false) :
    store y = store x ∧ WellFormed y := by
  have hlive : ∀ g, LiveFile y g ↔ LiveFile x g := by
    intro g
    unfold LiveFile
    rw [hu.agree.live_iff]
    refine and_congr_right fun hg => ?_
    rw [(hu.agree.inode hg).dir]
  have hsame : ∀ g, LiveFile x g → SameFile x y g := by
    intro g hg
    refine .of_read h hu.same hg (hu.held g (.inl hg.1)) fun j hj => ?_
    refine hfr.read _ (h.sound.slot_range hg.1 hj).1 fun hfree => ?_
    have hused : bitmapGet x ((tree x).slot g j) = true := h.sound.slot_used hg.1 hj
    rw [hused] at hfree
    cases hfree
  refine ⟨store_congr hlive (fun g hg => (hsame g hg).content) hu.fds,
    h.geometry.same hu.same, hu.quiet.sound h.sound, ?_, ?_⟩
  · intro g hg
    have hg' := (hlive g).mp hg
    exact (hsame g hg').size h hg'
  · intro j hj hused
    rw [hu.fds] at hused ⊢
    exact (h.fds hj hused).imp_left (hlive _).mpr

/-- The store after a creation. -/
theorem store_of_made {p db d ino data : ℕ} (hm : Made x y path 0 p db d ino data) :
    store y = (store x).setFile ino [] ∧ (store x).file ino = none ∧ WellFormed y ∧
      LiveFile y ino := by
  have hnew : ¬ (tree x).Live ino := hm.create.ino_not_live h.sound
  have hdir : (tree y).dir ino = false := hm.create.newDir
  have hino : LiveFile y ino := ⟨hm.create.live_iff.mpr (.inr rfl), hdir⟩
  have hlive : ∀ g, g ≠ ino → (LiveFile y g ↔ LiveFile x g) := by
    intro g hne
    unfold LiveFile
    rw [hm.create.live_iff, or_iff_left hne]
    refine and_congr_right fun hg => ?_
    rw [(hm.create.inode hg).dir]
  have hempty : content y ino = [] := by
    refine List.eq_nil_of_length_eq_zero ?_
    rw [length_content, hm.inode.size, inodeSize_newInode]
  -- a file has no block in common with the new inode or the directory
  have hsame : ∀ g, LiveFile x g → SameFile x y g := by
    intro g hg
    have hp := hm.create.parent
    have hgp : g ≠ p := by
      rintro rfl
      have hd := hm.create.dir
      rw [hg.2] at hd
      cases hd
    refine .of_read h hm.same hg ?_ fun j hj => ?_
    · exact hm.read_held h.sound (.inl hg.1)
        fun he => h.sound.live_ne_slot hg.1 hp hm.create.index he.symm
    · refine hm.frame.read _ (h.sound.slot_range hg.1 hj).1 ?_
      rintro (he | he)
      · have hused : (tree x).used ((tree x).slot g j) = true := h.sound.slot_used hg.1 hj
        rw [he, (hm.create.range ino (.inl rfl)).2.2] at hused
        cases hused
      · exact hgp (h.sound.slot_inj hg.1 hj hp hm.create.index he).1
  refine ⟨?_, store_file_none fun hx => hnew hx.1, ⟨h.geometry.same hm.same, ?_, ?_, ?_⟩, hino⟩
  · rw [← hempty]
    exact store_setFile hino hlive (fun g _ hg => (hsame g hg).content) hm.fds
  · exact h.sound.create hm.create (show 1 ≤ maxDirect by decide)
  · intro g hg
    by_cases hgi : g = ino
    · rw [hgi, hm.inode.size]
      exact Nat.zero_le _
    · have hg' := (hlive g hgi).mp hg
      exact (hsame g hg').size h hg'
  · intro j hj hu
    rw [hm.fds] at hu ⊢
    obtain ⟨hf, hoff⟩ := h.fds hj hu
    have hne : (x.fds j).inodeBlock ≠ ino := fun he => hnew (he ▸ hf.1)
    exact ⟨(hlive _ hne).mpr hf, hoff⟩

/-- The last part of `xfs_open`: there is a descriptor for the file, or none is free. -/
theorem openFd_cases (hf : LiveFile x f) (pid flags : ℕ) : openFd x pid f flags = (-1, x) ∨
    ∃ (i : ℕ) (y : Fs), openFd x pid f flags = ((i : ℤ), y) ∧ (store x).desc i = none ∧
      store y = (store x).setDesc i (some ⟨pid % 2 ^ 32, f, 0, flags⟩) ∧ WellFormed y := by
  unfold openFd
  cases hfind : (List.range xfsMaxFds).find? fun i => !(x.fds i).used with
  | none => exact .inl rfl
  | some i =>
    have hi : i < xfsMaxFds := List.mem_range.mp (List.mem_of_find?_eq_some hfind)
    have hfree : (x.fds i).used = false := by simpa using List.find?_some hfind
    have hsmall := hf.small h
    refine .inr ⟨i, _, rfl, ?_, ?_, ?_⟩
    · show (if i < xfsMaxFds then descOf (x.fds i) else none) = none
      rw [if_pos hi, descOf, hfree]
      rfl
    · rw [store_setFd hi, Nat.mod_eq_of_lt hsmall]
      rfl
    · refine h.setFd _ _ fun _ => ?_
      rw [Nat.mod_eq_of_lt hsmall]
      exact ⟨hf, show 0 < 2 ^ 31 by decide⟩

theorem open_does (hr : Regular x (.open pid path flags)) :
    Does (store x) (.open pid path flags) (.code (xfsOpen x pid path flags).1)
      (store (xfsOpen x pid path flags).2) ∧ WellFormed (xfsOpen x pid path flags).2 := by
  unfold xfsOpen
  by_cases hhead : path.head? ≠ some slash
  · rw [if_pos hhead]; exact ⟨.openFails, h⟩
  rw [if_neg hhead]
  cases hres : resolvePath x path with
  | some f =>
    have hf := hr.1 f hres
    rcases openFd_cases h hf pid flags with he | ⟨i, y, he, hfree, hstore, hy⟩
    · simp only [he]; exact ⟨.openFails, h⟩
    · simp only [he, hstore]; exact ⟨.opens (store_file hf) hfree, hy⟩
  | none =>
    by_cases hcreat : flags.testBit 2 = true
    swap
    · simp only [hcreat]
      exact ⟨.openFails, h⟩
    simp only [hcreat, Bool.not_true, Bool.false_eq_true, if_false]
    have hpar := hr.2 ⟨not_not.mp hhead, hres⟩ hcreat
    rcases createEntry_spec h.geometry h.sound 0 (by decide) hpar (by simp) with
      ⟨z, hz, hu, -⟩ | ⟨z, p, db, d, ino, data, hz, hm⟩
    · obtain ⟨hstore, hwf⟩ := store_of_unchanged h hu (createEntry_none h.geometry hz).frame
      simp only [hz, hstore]
      exact ⟨.openFails, hwf⟩
    obtain ⟨hstore, hnone, hwf, hf⟩ := store_of_made h hm
    simp only [hz]
    rcases openFd_cases hwf hf pid flags with he | ⟨i, y, he, hfree, hopen, hy⟩
    · simp only [he, hstore]; exact ⟨.createsOnly hnone, hwf⟩
    rw [hstore] at hopen hfree
    simp only [he, hopen]
    exact ⟨.creates hnone hfree, hy⟩

/-! ## Runs -/

/-- One call. -/
theorem exec_does (hr : Regular x call) :
    Does (store x) call (exec x call).1 (store (exec x call).2) ∧ WellFormed (exec x call).2 := by
  cases call with
  | «open» => exact open_does h hr
  | close fd => exact ⟨close_does x fd, close_wellFormed h fd⟩
  | read pid fd n => exact read_does h pid fd n
  | write =>
    obtain ⟨hdoes, hwf, -⟩ := write_does h hr
    exact ⟨hdoes, hwf⟩
  | lseek => exact lseek_does h hr
  | mkdir | readdir | stat | fstat | unlink | ftruncate | «exists» => exact hr.elim

end

/-- A formatted disk holds the empty store. -/
theorem Blank.wellFormed (h : Blank x) : WellFormed x := by
  refine ⟨h.geometry, h.sound, ?_, ?_⟩
  · rintro f ⟨hf, hfile⟩
    rw [h.live_iff.mp hf, h.dir_root] at hfile
    cases hfile
  · intro i _ hu
    rw [h.fds] at hu
    cases hu

/-- **File contents.**  From a well-formed disk, after any run of calls on regular files: the
next call does to the store what `Does` says, and a write through a descriptor is short only if
the file has all its direct blocks or no block of the data area is free. -/
theorem file_refinement {x₀ : Fs} (h : WellFormed x₀) {calls : List Call}
    (hrun : Run Step Regular x₀ calls x) {call : Call} (hr : Regular x call) :
    Does (store x) call (exec x call).1 (store (exec x call).2) ∧
    ∀ pid fd data i (k : ℕ), call = .write pid fd data → fdOf x pid fd = some i →
      (exec x call).1 = .code k → k < data.length →
      blockCount (readInode (exec x call).2 (x.fds i).inodeBlock) = maxDirect ∨
        Full (exec x call).2 := by
  have hwf : WellFormed x := by
    refine hrun.invariant h fun s a s' hs ha hstep => ?_
    rw [← hstep]
    exact (exec_does hs ha).2
  refine ⟨(exec_does hwf hr).1, ?_⟩
  rintro pid fd data i k rfl hfd hk hlt
  exact (write_does hwf hr).2.2 i k hfd (Reply.code.inj hk) hlt

/-- **File bytes as a directory.**  The file `/f` holds a zero byte; then `/f/x` is created, and
the entry goes into the block of `/f`, which now holds an `x`. -/
theorem entry_in_file_bytes : ∃ y z, Run Step (fun _ _ => True) (freshDisk 8)
        [.open 1 [slash, 0x66#8] 6, .write 1 0 [0#8]] y ∧
      exec y (.open 1 [slash, 0x66#8, slash, 0x78#8] 6) = (.code 1, z) ∧
      LiveFile y 4 ∧ content y 4 = [0#8] ∧ content z 4 = [0x78#8] := by
  let y := execs (freshDisk 8) [.open 1 [slash, 0x66#8] 6, .write 1 0 [0#8]]
  have hfile : LiveFile y 4 := ⟨live_first_entry (by decide +kernel), by decide +kernel⟩
  have hcode : (exec y (.open 1 [slash, 0x66#8, slash, 0x78#8] 6)).1 = .code 1 :=
    congrArg Reply.code (by decide +kernel)
  exact ⟨y, (exec y (.open 1 [slash, 0x66#8, slash, 0x78#8] 6)).2, run_execs _ _,
    Prod.ext hcode rfl, hfile, by decide +kernel, by decide +kernel⟩

theorem regular_oneFile : Regular (freshDisk 8) (.open 1 [slash, 0x66#8] 6) := by
  refine ⟨fun ino h => ?_, orderly_oneFile⟩
  have hnone : resolvePath (freshDisk 8) [slash, 0x66#8] = none := by decide +kernel
  cases h

/-- Two bytes are written, and read from the start. -/
theorem file_refinement_small_disk : ∃ y, Run Step Regular (freshDisk 8)
        [.open 1 [slash, 0x66#8] 6, .write 1 0 [1#8, 2#8], .lseek 1 0 0 0] y ∧
      Does (store y) (.read 1 0 5) (exec y (.read 1 0 5)).1 (store (exec y (.read 1 0 5)).2) := by
  have g₂ : Regular oneFile (.write 1 0 [1#8, 2#8]) := by
    intro i h
    rw [(oneFile_fd h).2.2.1]
    exact Nat.zero_le _
  have hrun : ∃ y, Run Step Regular (freshDisk 8)
      [.open 1 [slash, 0x66#8] 6, .write 1 0 [1#8, 2#8], .lseek 1 0 0 0] y :=
    ⟨_, .cons regular_oneFile rfl <| .cons g₂ rfl <| .cons ⟨by decide, by decide⟩ rfl .nil⟩
  obtain ⟨y, hy⟩ := hrun
  have hread : Regular y (.read 1 0 5) := trivial
  exact ⟨y, hy, (file_refinement blank_freshDisk.wellFormed hy hread).1⟩

end Xos.Xfs
