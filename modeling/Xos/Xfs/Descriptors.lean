import Xos.Xfs.Accesses

/-!
# The descriptor table

What the calls do to `g_fds`, whatever is on the disk.

* **The disk is apart.**  Nothing that only writes blocks changes the table —
  `createEntry_fds`, `xfsUnlink_fds`, `xfsMkdir_fds`, `xfsFtruncate_fds`, all by `Io.eval_disk`.
* **One entry at most.**  A call leaves every entry's owner alone and opens none
  (`Keeps`), except that `xfs_open` may fill one unused entry (`xfsOpen_fds`).
-/

namespace Xos.Xfs

open Xos.Lib Function

variable {x y : Fs} {pid : ℕ} {fd : ℤ}

/-! ## Writing blocks -/

theorem createEntry_fds (x : Fs) (path : List Byte) (flags : ℕ) :
    (createEntry x path flags).2.fds = x.fds := by
  rw [← Io.eval_createEntry (.refl x)]
  exact (Io.eval_disk _ x).2

theorem writeLoop_fds (offset : ℕ) (data : List Byte) (fuel : ℕ) (x : Fs) (inode : Bytes)
    (done : ℕ) : (writeLoop offset data fuel x inode done).1.fds = x.fds := by
  have hfds := (Io.eval_disk (Io.writeLoop x offset data fuel inode done) x).2
  rw [Io.eval_writeLoop _ _ _ (.refl x)] at hfds
  exact hfds

theorem xfsFtruncate_fds (x : Fs) (pid : ℕ) (fd size : ℤ) :
    (xfsFtruncate x pid fd size).2.fds = x.fds := by
  rw [← Io.eval_xfsFtruncate]
  exact (Io.eval_disk _ x).2

theorem xfsUnlink_fds (x : Fs) (path : List Byte) : (xfsUnlink x path).2.fds = x.fds := by
  rw [← Io.eval_xfsUnlink]
  exact (Io.eval_disk _ x).2

theorem xfsMkdir_fds (x : Fs) (path : List Byte) : (xfsMkdir x path).2.fds = x.fds := by
  rw [← Io.eval_xfsMkdir]
  exact (Io.eval_disk _ x).2

/-! ## Calls -/

/-- No entry changes its owner, and none becomes used. -/
structure Keeps (x y : Fs) : Prop where
  pid : ∀ i, (y.fds i).pid = (x.fds i).pid
  used : ∀ i, (y.fds i).used = true → (x.fds i).used = true

theorem Keeps.of_eq (h : y.fds = x.fds) : Keeps x y :=
  ⟨fun i => by rw [h], fun i => by rw [h]; exact id⟩

theorem Keeps.setFd {z : Fs} (hz : z.fds = x.fds) {i : ℕ} {f : Fd}
    (hpid : f.pid = (x.fds i).pid) (hused : f.used = true → (x.fds i).used = true) :
    Keeps x (z.setFd i f) := by
  constructor
  · intro j
    show (update z.fds i f j).pid = _
    by_cases hj : j = i
    · rw [hj, update_self, hpid]
    · rw [update_of_ne hj, hz]
  · intro j
    show (update z.fds i f j).used = true → _
    by_cases hj : j = i
    · rw [hj, update_self]
      exact hused
    · rw [update_of_ne hj, hz]
      exact id

theorem xfsRead_keeps (x : Fs) (pid : ℕ) (fd : ℤ) (count : ℕ) :
    Keeps x (xfsRead x pid fd count).2.2 := by
  unfold xfsRead
  split
  · exact .of_eq rfl
  dsimp only
  split
  · exact .of_eq rfl
  · exact Keeps.setFd rfl rfl id

theorem xfsWrite_keeps (x : Fs) (pid : ℕ) (fd : ℤ) (data : List Byte) :
    Keeps x (xfsWrite x pid fd data).2 := by
  unfold xfsWrite
  split
  · exact .of_eq rfl
  next i _ =>
  dsimp only
  split
  · exact .of_eq rfl
  split
  · exact .of_eq rfl
  have hloop := writeLoop_fds (x.fds i).offset data data.length x
    (readInode x (x.fds i).inodeBlock) 0
  have hkeeps := Keeps.setFd hloop (i := i) (f := { x.fds i with
    offset := ((x.fds i).offset + (writeLoop (x.fds i).offset data data.length x
      (readInode x (x.fds i).inodeBlock) 0).2.2) % 2 ^ 32 }) rfl id
  exact ⟨fun j => by rw [writeInode_fds]; exact hkeeps.pid j,
    fun j => by rw [writeInode_fds]; exact hkeeps.used j⟩

theorem xfsLseek_keeps (x : Fs) (pid : ℕ) (fd offset : ℤ) (whence : ℕ) :
    Keeps x (xfsLseek x pid fd offset whence).2 := by
  unfold xfsLseek
  split
  · exact .of_eq rfl
  dsimp only
  split
  · exact .of_eq rfl
  split
  · exact .of_eq rfl
  · exact Keeps.setFd rfl rfl id

theorem xfsClose_keeps (x : Fs) (fd : ℤ) : Keeps x (xfsClose x fd) := by
  unfold xfsClose
  split
  · exact Keeps.setFd rfl rfl (fun h => by simp at h)
  · exact .of_eq rfl

/-- **Opening.**  `xfs_open` fails and leaves the table alone, or returns an entry that was
not used and is now the caller's. -/
theorem xfsOpen_fds (x : Fs) (pid : ℕ) (path : List Byte) (flags : ℕ) :
    ((xfsOpen x pid path flags).1 = -1 ∧ (xfsOpen x pid path flags).2.fds = x.fds) ∨
    ∃ i f, i < xfsMaxFds ∧ (xfsOpen x pid path flags).1 = i ∧ (x.fds i).used = false ∧
      f.used = true ∧ f.pid = pid % 2 ^ 32 ∧
      (xfsOpen x pid path flags).2.fds = update x.fds i f := by
  have hopen : ∀ (z : Fs) (ino : ℕ), z.fds = x.fds →
      ((openFd z pid ino flags).1 = -1 ∧ (openFd z pid ino flags).2.fds = x.fds) ∨
      ∃ i f, i < xfsMaxFds ∧ (openFd z pid ino flags).1 = i ∧ (x.fds i).used = false ∧
        f.used = true ∧ f.pid = pid % 2 ^ 32 ∧
        (openFd z pid ino flags).2.fds = update x.fds i f := by
    intro z ino hz
    unfold openFd
    split
    · exact .inl ⟨rfl, hz⟩
    next i hfind =>
    have hmem := List.mem_range.mp (List.mem_of_find?_eq_some hfind)
    have hfree : (z.fds i).used = false := by simpa using List.find?_some hfind
    let f : Fd := ⟨true, pid % 2 ^ 32, ino % 2 ^ 32, 0, flags⟩
    refine .inr ⟨i, f, hmem, rfl, by rw [← hz]; exact hfree, rfl, rfl, ?_⟩
    rw [← hz]
    rfl
  have hcreate := createEntry_fds x path 0
  unfold xfsOpen
  split
  · exact .inl ⟨rfl, rfl⟩
  split
  · exact hopen x _ rfl
  split
  · exact .inl ⟨rfl, rfl⟩
  split
  · next y heq => rw [heq] at hcreate; exact .inl ⟨rfl, hcreate⟩
  · next ino y heq => rw [heq] at hcreate; exact hopen y ino hcreate

end Xos.Xfs
