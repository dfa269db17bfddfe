import Xos.Xfs.Descriptors
import Xos.Xfs.Ownership

/-!
# Calls that fail

A call of `xfs_open`, `xfs_mkdir` or `xfs_unlink` that returns -1 has changed nothing, whatever it
ran out of on the way — but for one case: a file that `xfs_open` has just created stays when no
descriptor is left for it (`full_table_creates`).

* **`exec_fails`** — one call, from any state whose tree is sound;
* **`failed_call_changes_nothing_iff`** — after any run of orderly calls, exactly outside this case.
-/

namespace Xos.Xfs

open Xos.Lib

variable {x y x₀ : Fs} {path : List Byte}

/-- If there is room for a new file, a descriptor is left for it. -/
def Spare (x : Fs) : Call → Prop
  | .open _ path flags => Creates x path → flags.testBit 2 = true →
      (createEntry x path 0).1 ≠ none → ∃ i, i < xfsMaxFds ∧ (x.fds i).used = false
  | _ => True

theorem openFd_fails (h : (openFd x pid ino flags).1 = -1) :
    (openFd x pid ino flags).2 = x ∧ ∀ i, i < xfsMaxFds → (x.fds i).used = true := by
  unfold openFd at h ⊢
  cases hf : (List.range xfsMaxFds).find? fun i => !(x.fds i).used with
  | none =>
    refine ⟨rfl, fun i hi => ?_⟩
    simpa using List.find?_eq_none.mp hf i (List.mem_range.mpr hi)
  | some =>
    simp only [hf] at h
    omega

theorem xfsOpen_fails (hg : Geometry x) (hspare : Spare x (.open pid path flags))
    (h : (xfsOpen x pid path flags).1 = -1) :
    Undone x (xfsOpen x pid path flags).2 := by
  unfold xfsOpen at h ⊢
  split at h
  · next hhead =>
    rw [if_pos hhead]
    exact .refl x
  next hhead =>
  rw [if_neg hhead]
  cases hr : resolvePath x path with
  | some =>
    simp only [hr] at h ⊢
    rw [(openFd_fails h).1]
    exact .refl x
  | none =>
    simp only [hr] at h ⊢
    cases hflag : flags.testBit 2 with
    | false => exact .refl x
    | true =>
      simp only [hflag] at h ⊢
      rcases hc : createEntry x path 0 with ⟨_ | ino, z⟩
      · exact createEntry_none hg hc
      obtain ⟨i, hi, hfree⟩ := hspare ⟨not_not.1 hhead, hr⟩ hflag (by simp [hc])
      -- the descriptor is still there after the creation
      simp only [hc] at h ⊢
      have hfds := createEntry_fds x path 0
      rw [hc] at hfds
      have hused := (openFd_fails h).2 i hi
      rw [hfds, hfree] at hused
      cases hused

theorem xfsMkdir_fails (hg : Geometry x) (h : (xfsMkdir x path).1 = -1) :
    Undone x (xfsMkdir x path).2 := by
  unfold xfsMkdir at h ⊢
  split
  · exact .refl x
  next hhead =>
  rw [if_neg hhead] at h
  cases hr : resolvePath x path with
  | some => exact .refl x
  | none =>
    simp only [hr] at h ⊢
    rcases hc : createEntry x path 1 with ⟨_ | ino, z⟩
    · exact createEntry_none hg hc
    · simp [hc] at h

theorem xfsUnlink_fails (h : (xfsUnlink x path).1 = -1) : (xfsUnlink x path).2 = x := by
  unfold xfsUnlink at h ⊢
  cases ht : unlinkTarget x path with
  | none => rfl
  | some => simp [ht] at h

theorem exec_fails (hg : Geometry x) (hcall : call.Renames) (hspare : Spare x call)
    (h : (exec x call).1 = .code (-1)) : Undone x (exec x call).2 := by
  cases call with
  | «open» => exact xfsOpen_fails hg hspare (Reply.code.inj h)
  | mkdir => exact xfsMkdir_fails hg (Reply.code.inj h)
  | unlink path =>
    have hx : (exec x (.unlink path)).2 = x := xfsUnlink_fails (Reply.code.inj h)
    rw [hx]
    exact .refl x
  | _ => exact hcall.elim

/-- Without a descriptor for it, a file is created and the call fails. -/
theorem Orderly.spare (hg : Geometry x) (hs : (tree x).Sound) (ho : Orderly x call)
    (h : (exec x call).1 = .code (-1) → Unchanged x (exec x call).2) : Spare x call := by
  cases call with
  | «open» pid path flags =>
    intro hcreates hflag hroom
    by_contra hfull
    rcases createEntry_spec hg hs 0 (by decide) (ho hcreates hflag) (by simp) with
      ⟨y, hc, -⟩ | ⟨y, p, db, d, ino, data, hc, hm⟩
    · exact hroom (by rw [hc])
    have hnone : (List.range xfsMaxFds).find? (fun i => !(y.fds i).used) = none := by
      refine List.find?_eq_none.2 fun i hi hfree => hfull ⟨i, List.mem_range.1 hi, ?_⟩
      rw [hm.fds] at hfree
      simpa using hfree
    have hopen : xfsOpen x pid path flags = (-1, y) := by
      simp [xfsOpen, hcreates.1, hcreates.2, hflag, hc, openFd, hnone]
    have hun : Unchanged x y := by
      simpa [exec, hopen] using h (by simp [exec, hopen])
    -- the block of the new inode was free
    obtain ⟨-, hhi, hfree⟩ := hm.create.range ino (.inl rfl)
    have hused : (tree y).used ino = true := (hm.create.used ino hhi).2 (.inr (.inl rfl))
    cases (hfree.symm.trans (hun.used ino hhi).symm).trans hused
  | _ => trivial

/-- **A call that fails changes nothing.**  After any run of orderly calls on a formatted disk, a
call of `xfs_open`, `xfs_mkdir` or `xfs_unlink` that returns -1 leaves tree, bitmap and descriptors
alone, if an `xfs_open` that has room for a new file finds a descriptor free; and an orderly call
only then. -/
theorem failed_call_changes_nothing_iff (hfit : Fits x₀)
    (hmount : xfsMount (xfsFormat x₀) = some x) {calls : List Call}
    (hrun : Run Step Orderly x calls y) {call : Call} (hcall : call.Renames) :
    (Spare y call → (exec y call).1 = .code (-1) → Unchanged y (exec y call).2) ∧
    (Orderly y call → ((exec y call).1 = .code (-1) → Unchanged y (exec y call).2) →
      Spare y call) := by
  obtain ⟨z, hz, hblank⟩ := mount_format hfit
  obtain rfl : x = z := Option.some.inj (hmount.symm.trans hz)
  have hown : Owned y := hrun.invariant hblank.owned fun _ _ _ h ho hstep => h.step ho hstep
  exact ⟨fun hspare hfail => (exec_fails hown.geometry hcall hspare hfail).unchanged hown.sound,
    fun ho h => ho.spare hown.geometry hown.sound h⟩

/-- A disk of seven blocks with the file `/a`: one block is free. -/
def nearlyFull : Fs := execs (freshDisk 7) [.open 1 [slash, 0x61#8] 6]

/-- A directory needs two blocks: the first one is taken and given back. -/
theorem mkdir_rolled_back : (allocBlock nearlyFull).1 = some 6 ∧
    (exec nearlyFull (.mkdir [slash, 0x62#8])).1 = .code (-1) ∧
      Unchanged nearlyFull (exec nearlyFull (.mkdir [slash, 0x62#8])).2 := by
  have hfail : (exec nearlyFull (.mkdir [slash, 0x62#8])).1 = .code (-1) :=
    congrArg Reply.code (show (xfsMkdir nearlyFull _).1 = -1 by decide +kernel)
  have hfit : Fits (emptyDevice 7) := ⟨by decide, by decide⟩
  have hmount : xfsMount (xfsFormat (emptyDevice 7)) = some (freshDisk 7) := by
    obtain ⟨y, hy, -⟩ := mount_format hfit
    rfl
  have hrun : Run Step Orderly (freshDisk 7) [.open 1 [slash, 0x61#8] 6] nearlyFull := by
    obtain ⟨y, hy, hblank⟩ := mount_format hfit
    obtain rfl := Option.some.inj (hmount.symm.trans hy)
    refine .cons (fun _ _ p h => ?_) rfl .nil
    obtain rfl : (freshDisk 7).rootBlock = p := Option.some.inj h
    exact ⟨.root, hblank.sound.rootDir⟩
  exact ⟨by decide +kernel, hfail, (failed_call_changes_nothing_iff hfit hmount hrun
    (show Call.Renames (.mkdir [slash, 0x62#8]) from trivial)).1 trivial hfail⟩

/-- **The file stays.**  All descriptors are taken when a process creates a file: the call fails,
and the file is there, with two blocks of the disk. -/
theorem full_table_creates : ∃ y, Run Step (fun _ _ => True) (freshDisk 8)
        (List.replicate xfsMaxFds (.open 1 [slash] 0)) y ∧
      (exec y (.open 1 [slash, 0x66#8] 4)).1 = .code (-1) ∧
      resolvePath y [slash, 0x66#8] = none ∧ bitmapGet y 4 = false ∧ bitmapGet y 5 = false ∧
      resolvePath (exec y (.open 1 [slash, 0x66#8] 4)).2 [slash, 0x66#8] = some 4 ∧
      bitmapGet (exec y (.open 1 [slash, 0x66#8] 4)).2 4 = true ∧
      bitmapGet (exec y (.open 1 [slash, 0x66#8] 4)).2 5 = true := by
  refine ⟨_, run_execs _ _, congrArg Reply.code (show (xfsOpen _ _ _ _).1 = -1 by decide +kernel),
    ?_⟩
  decide +kernel

end Xos.Xfs
