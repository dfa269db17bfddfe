import Xos.Lib.Run
import Xos.Xfs.Descriptors
import Xos.Xfs.Ownership
import Xos.Files.Calls

/-!
# Descriptors of one process and calls of another

* **Descriptors are not kept apart.**  Any process may close any descriptor and read or
  write through any `/sys` descriptor, and a process that gets the pid of one that left
  descriptors open has them — `stranger_closes`.
* **What the checks are good for.**  Under `Guard` — a process closes, and uses under `/sys`,
  only numbers that its own open returned, and no pid is handed out that an open entry of XFS
  still carries — the replies of a process are the same with and without the reads, writes,
  closes and exits of others on its descriptors, and nobody reads or writes through a number
  that it did not open (`descriptor_isolation`).
-/

namespace Xos.Files

open Xos.Lib Function
open Xos.Xfs (Fs Reply fdOf xfsMaxFds Keeps)
open Xos.Sched (ProcId schedMaxProcs)

variable {s s' t t' : System} {p : ProcId} {fd : ℕ} {T pid : ℕ} {op : Op} {n : ℤ}

/-! ## The condition -/

/-- The number `n` is in use. -/
def IsOpen (s : System) (n : ℕ) : Prop :=
  (n < xfsMaxFds ∧ (s.fs.fds n).used = true) ∨
    (sysfsFdBase ≤ n ∧ n < sysfsFdBase + sysfsMaxFds ∧ (s.sys (n - sysfsFdBase)).used = true)

/-- If `fd` is in use, then the process in slot `p` opened it. -/
def Own (s : System) (p : ProcId) (fd : ℕ) : Prop :=
  IsOpen s (number fd) → s.caller p = some (s.opener (number fd))

/-- The condition under which an operation is taken. -/
def Guard (s : System) : Op → Prop
  | .close p fd => Own s p fd
  | .read p fd _ | .write p fd _ | .lseek p fd _ _ => sysfsOwnsFd fd = true → Own s p fd
  | .create _ _ => ∀ j, freeSlot s.procs = some j →
      ∀ i, i < xfsMaxFds → (s.fs.fds i).used = true → (s.fs.fds i).pid ≠ j.val
  | _ => True

/-- A call by another process than `T` on a descriptor of `T`, or its exit. -/
def Interferes (T : ℕ) (s : System) : Op → Prop
  | .read p fd _ | .write p fd _ | .close p fd =>
    s.caller p ≠ some T ∧ IsOpen s (number fd) ∧ s.opener (number fd) = T
  | .exit p => s.caller p ≠ some T
  | _ => False

instance (s : System) (n : ℕ) : Decidable (IsOpen s n) := by
  unfold IsOpen
  infer_instance

instance (T : ℕ) (s : System) : DecidablePred (Interferes T s)
  | .read .. | .write .. | .close .. | .exit .. => by
      unfold Interferes
      infer_instance
  | .open .. | .lseek .. | .other .. | .create .. | .reap .. => isFalse id

/-- The call is made by the process `T`. -/
def By (T : ℕ) (s : System) (op : Op) : Prop := ∃ p, op.by = some p ∧ s.caller p = some T

/-! ## Numbers -/

theorem number_of_sysfs (h : sysfsOwnsFd fd = true) :
    sysfsFdBase ≤ number fd ∧ number fd < sysfsFdBase + sysfsMaxFds := by
  exact of_decide_eq_true h

theorem route_cases (fd : ℕ) :
    (route fd = .sysfs (number fd - sysfsFdBase) ∧ sysfsOwnsFd fd = true) ∨
    route fd = .pipe ∨ route fd = .xfs := by
  unfold route
  by_cases hs : sysfsOwnsFd fd = true
  · exact .inl ⟨if_pos hs, hs⟩
  · rw [if_neg hs]
    exact .inr (ite_eq_or_eq ..)

/-! ## Who has a number -/

/-- A live process whose pid is in an open entry of XFS opened it. -/
def Tagged (s : System) : Prop :=
  ∀ i, i < xfsMaxFds → (s.fs.fds i).used = true → ∀ q T, s.caller q = some T →
    (s.fs.fds i).pid = q.val → T = s.opener i

theorem Start.tagged (h : Start s) : Tagged s := by
  intro i _ hu
  simp [h.fds i] at hu

/-- What a step does not do to the ownership of entries: it opens no entry, changes no owner,
gives no number to anybody else, and lets no process come up. -/
theorem Tagged.keeps (h : Tagged s) (hfs : Keeps s.fs t.fs)
    (hopener : ∀ i, i < xfsMaxFds → t.opener i = s.opener i)
    (hcaller : ∀ q T, t.caller q = some T → s.caller q = some T) : Tagged t := by
  intro i hi hu q T hq hpid
  rw [hopener i hi]
  rw [hfs.pid i] at hpid
  exact h i hi (hfs.used i hu) q T (hcaller q T hq) hpid

theorem caller_eq :
    s.caller q = some T ↔ ∃ v, s.procs q = some v ∧ v.dead = false ∧ v.task = T := by
  unfold System.caller
  cases hv : s.procs q with
  | none => simp
  | some v => cases hd : v.dead <;> simp

theorem procs_bury (s : System) (p q : ProcId) : (s.bury p).procs q =
    if q = p then (s.procs p).map ({ · with dead := true }) else s.procs q :=
  update_apply _ _ _ _

theorem caller_bury (s : System) (p q : ProcId) (T : ℕ) (h : (s.bury p).caller q = some T) :
    s.caller q = some T := by
  rw [caller_eq] at h ⊢
  obtain ⟨v, hv, hd, ht⟩ := h
  rw [procs_bury] at hv
  split at hv
  · obtain ⟨w, -, rfl⟩ := Option.map_eq_some_iff.mp hv
    simp at hd
  · exact ⟨v, hv, hd, ht⟩

theorem caller_procKill (s : System) (pid : ℕ) (q : ProcId) (T : ℕ)
    (h : (procKill s pid).caller q = some T) : s.caller q = some T := by
  unfold procKill at h
  split at h
  · exact h
  split at h
  · exact h
  · exact caller_bury s _ q T h

theorem procKill_frame (s : System) (pid : ℕ) :
    (procKill s pid).fs = s.fs ∧ (procKill s pid).opener = s.opener := by
  unfold procKill
  split
  · exact ⟨rfl, rfl⟩
  · split <;> exact ⟨rfl, rfl⟩

theorem sysOpen_tagged (h : Tagged s) (hp : (s.caller p).isSome) :
    Tagged (sysOpen s p path flags view).2 := by
  obtain ⟨T, hT⟩ := Option.isSome_iff_exists.mp hp
  unfold sysOpen
  by_cases hsys : sysfsOwns path = true
  · rw [if_pos hsys]
    -- a number of `/sys` is no index of the table of XFS
    have hopen : (sysfsOpen s p path view).2.fs = s.fs ∧
        (sysfsOpen s p path view).2.procs = s.procs ∧
        (sysfsOpen s p path view).2.opener = s.opener ∧
        ((sysfsOpen s p path view).1 < 0 ∨ (xfsMaxFds : ℤ) ≤ (sysfsOpen s p path view).1) := by
      unfold sysfsOpen
      split
      · exact ⟨rfl, rfl, rfl, .inl (by simp)⟩
      split
      · exact ⟨rfl, rfl, rfl, .inl (by simp)⟩
      refine ⟨rfl, rfl, rfl, .inr ?_⟩
      simp only [sysfsFdBase, xfsMaxFds]
      omega
    obtain ⟨hfs, hprocs, hop, hr⟩ := hopen
    have hcaller : ∀ q T', (sysfsOpen s p path view).2.caller q = some T' →
        s.caller q = some T' := by
      intro q T' hq
      rwa [System.caller, hprocs] at hq
    dsimp only
    split
    · exact h.keeps (.of_eq (by rw [hfs])) (fun i _ => by rw [hop]) hcaller
    refine h.keeps (.of_eq (by rw [hfs])) (fun i hi => ?_) hcaller
    show update _ _ _ i = _
    rw [update_of_ne (by omega), hop]
  · rw [if_neg hsys]
    rcases Xfs.xfsOpen_fds s.fs p.val path flags with
      ⟨hr, hfds⟩ | ⟨i, f, hi, hr, -, -, hpid, hfds⟩
    · rw [if_pos (by rw [hr]; decide)]
      exact h.keeps (.of_eq hfds) (fun _ _ => rfl) (fun _ _ hq => hq)
    rw [if_neg (by rw [hr]; omega)]
    have hpmod : p.val % 2 ^ 32 = p.val :=
      Nat.mod_eq_of_lt (p.isLt.trans (show schedMaxProcs < 2 ^ 32 by decide))
    intro k hk huk q T' hq hpk
    simp only [hr, Int.toNat_natCast, hT]
    simp only [hfds] at huk hpk
    by_cases hki : k = i
    · subst hki
      rw [update_self] at hpk ⊢
      have hqp : q = p := Fin.ext (by rw [← hpk, hpid, hpmod])
      have hq' : s.caller q = some T' := hq
      rw [hqp, hT] at hq'
      exact (Option.some.inj hq').symm
    · rw [update_of_ne hki] at huk hpk ⊢
      exact h k hk huk q T' hq hpk

theorem create_tagged (h : Tagged s) (hg : Guard s (.create p thread)) :
    Tagged (procCreate s p thread) := by
  unfold procCreate
  split
  · exact h
  next j hslot =>
  intro i hi hu q T hq hpid
  rw [caller_eq] at hq
  obtain ⟨v, hv, hd, ht⟩ := hq
  by_cases hqj : q = j
  · rw [hqj] at hpid
    exact absurd hpid (hg j hslot i hi hu)
  have hv' : s.procs q = some v := by
    rw [← hv]
    exact (update_of_ne hqj _ _).symm
  exact h i hi hu q T (caller_eq.mpr ⟨v, hv', hd, ht⟩) hpid

/-- The other calls leave the table alone. -/
theorem other_fds (x : Fs) (h : OtherCall pid call) : (Xfs.exec x call).2.fds = x.fds := by
  cases call with
  | mkdir path => exact Xfs.xfsMkdir_fds x path
  | unlink path => exact Xfs.xfsUnlink_fds x path
  | ftruncate q fd size => exact Xfs.xfsFtruncate_fds x q fd size
  | readdir | stat | fstat | «exists» => rfl
  | «open» | close | read | write | lseek => exact absurd h id

section

variable (h : Tagged s)
include h

theorem sysRead_tagged (p : ProcId) (fd count : ℕ) : Tagged (sysRead s p fd count).2.2 := by
  have hxfs : ∀ n, Tagged { s with fs := (Xfs.xfsRead s.fs p.val n count).2.2 } := fun n =>
    h.keeps (Xfs.xfsRead_keeps _ _ n _) (fun _ _ => rfl) (fun _ _ hq => hq)
  unfold sysRead
  generalize (number fd : ℤ) = n
  generalize route fd = r
  cases r with
  | sysfs =>
    unfold sysfsRead
    dsimp only
    split <;> exact h.keeps (.of_eq rfl) (fun _ _ => rfl) (fun _ _ hq => hq)
  | pipe | xfs => exact hxfs n

theorem sysWrite_tagged (p : ProcId) (fd : ℕ) (data : List Byte) :
    Tagged (sysWrite s p fd data).2 := by
  have hxfs : ∀ n, Tagged { s with fs := (Xfs.xfsWrite s.fs p.val n data).2 } := fun n =>
    h.keeps (Xfs.xfsWrite_keeps _ _ n _) (fun _ _ => rfl) (fun _ _ hq => hq)
  unfold sysWrite
  generalize (number fd : ℤ) = n
  generalize route fd = r
  cases r with
  | sysfs =>
    unfold sysfsWrite
    dsimp only
    split
    · exact h
    split
    · exact h
    · exact h
    next pid _ =>
      obtain ⟨hfs, hop⟩ := procKill_frame s pid
      exact h.keeps (.of_eq (by rw [hfs])) (fun _ _ => by rw [hop]) (caller_procKill s pid)
  | pipe | xfs => exact hxfs n

theorem sysClose_tagged (fd : ℕ) : Tagged (sysClose s fd) := by
  have hxfs : ∀ n, Tagged { s with fs := Xfs.xfsClose s.fs n } := fun n =>
    h.keeps (Xfs.xfsClose_keeps _ n) (fun _ _ => rfl) (fun _ _ hq => hq)
  unfold sysClose
  generalize (number fd : ℤ) = n
  generalize route fd = r
  cases r with
  | sysfs => exact h.keeps (.of_eq rfl) (fun _ _ => rfl) (fun _ _ hq => hq)
  | pipe | xfs => exact hxfs n

theorem sysLseek_tagged (p : ProcId) (fd : ℕ) (offset : ℤ) (whence : ℕ) :
    Tagged (sysLseek s p fd offset whence).2 := by
  unfold sysLseek
  split
  · unfold sysfsLseek
    dsimp only
    generalize Int.bmod _ _ = no
    split
    · exact h
    · split <;> exact h.keeps (.of_eq rfl) (fun _ _ => rfl) (fun _ _ hq => hq)
  · exact h.keeps (Xfs.xfsLseek_keeps _ _ _ _ _) (fun _ _ => rfl) (fun _ _ hq => hq)

/-- **A guarded step keeps the owners right.** -/
theorem Tagged.step (hg : Guard s op) (hs : Step s op t) : Tagged t := by
  obtain ⟨he, rfl⟩ := hs
  cases op with
  | «open» => exact sysOpen_tagged h he
  | read p fd count => exact sysRead_tagged h p fd count
  | write p fd data => exact sysWrite_tagged h p fd data
  | close p fd => exact sysClose_tagged h fd
  | lseek p fd offset whence => exact sysLseek_tagged h p fd offset whence
  | other => exact h.keeps (.of_eq (other_fds s.fs he.2)) (fun _ _ => rfl) (fun _ _ hq => hq)
  | create => exact create_tagged h hg
  | exit p => exact h.keeps (.of_eq rfl) (fun _ _ => rfl) (caller_bury s p)
  | reap j =>
    refine h.keeps (.of_eq rfl) (fun _ _ => rfl) (fun q T hq => ?_)
    rw [caller_eq] at hq ⊢
    obtain ⟨v, hv, hd, ht⟩ := hq
    have hqj : q ≠ j := by
      rintro rfl
      simp [exec] at hv
    exact ⟨v, by rw [← hv]; exact (update_of_ne hqj _ _).symm, hd, ht⟩

end

/-! ## Success -/

theorem fdOf_some (h : fdOf x pid n = some i) :
    i = n.toNat ∧ 0 ≤ n ∧ i < xfsMaxFds ∧ (x.fds i).used = true ∧ (x.fds i).pid = pid := by
  unfold fdOf at h
  split_ifs at h with hc
  obtain ⟨h0, hlt, hu, hpid⟩ := hc
  cases h
  exact ⟨rfl, h0, by omega, hu, hpid⟩

/-- The check of XFS admits only the process that opened the number. -/
theorem Tagged.own_of_fdOf (h : Tagged s) (hp : s.caller p = some T)
    (hfd : fdOf s.fs p.val n = some i) : IsOpen s n.toNat ∧ T = s.opener n.toNat := by
  obtain ⟨rfl, -, hi, hu, hpid⟩ := fdOf_some hfd
  exact ⟨.inl ⟨hi, hu⟩, h _ hi hu p T hp hpid⟩

/-- A `/sys` descriptor that is in use is open. -/
theorem isOpen_of_sysfs (h : sysfsOwnsFd fd = true)
    (hu : (s.sys (number fd - sysfsFdBase)).used = true) : IsOpen s (number fd) :=
  .inr ⟨(number_of_sysfs h).1, (number_of_sysfs h).2, hu⟩

/-- The return value. -/
def Reply.ret : Reply → ℤ
  | .code r | .bytes r _ | .info r _ | .listing r _ => r

theorem xfsRead_none {x : Fs} {count : ℕ} (h : fdOf x pid n = none) :
    Xfs.xfsRead x pid n count = (-1, [], x) := by
  unfold Xfs.xfsRead
  rw [h]

theorem xfsWrite_none (h : fdOf x pid n = none) : Xfs.xfsWrite x pid n data = (-1, x) := by
  unfold Xfs.xfsWrite
  rw [h]

/-- The number is one of an open `/sys` descriptor, or of one of XFS that passes the check. -/
def Passes (s : System) (p : ProcId) (fd : ℕ) : Prop :=
  (sysfsOwnsFd fd = true ∧ (s.sys (number fd - sysfsFdBase)).used = true) ∨
    ∃ i, fdOf s.fs p.val (number fd) = some i

theorem passes_or (s : System) (p : ProcId) (hroute : route fd ≠ .pipe) : Passes s p fd ∨
    (route fd = .sysfs (number fd - sysfsFdBase) ∧ (s.sys (number fd - sysfsFdBase)).used = false) ∨
    (route fd = .xfs ∧ fdOf s.fs p.val (number fd) = none) := by
  rcases route_cases fd with ⟨hr, hsys⟩ | hr | hr
  · cases hu : (s.sys (number fd - sysfsFdBase)).used with
    | true => exact .inl (.inl ⟨hsys, hu⟩)
    | false => exact .inr (.inl ⟨hr, rfl⟩)
  · exact absurd hr hroute
  · cases hfd : fdOf s.fs p.val (number fd) with
    | some i => exact .inl (.inr ⟨i, hfd⟩)
    | none => exact .inr (.inr ⟨hr, rfl⟩)

/-- A read that does not pass fails, and nothing changes. -/
theorem sysRead_cases (s : System) (p : ProcId) (fd count : ℕ) (hroute : route fd ≠ .pipe) :
    Passes s p fd ∨ sysRead s p fd count = (-1, [], s) := by
  refine (passes_or s p hroute).imp_right ?_
  rintro (⟨hr, hu⟩ | ⟨hr, hfd⟩)
  · simp [sysRead, hr, sysfsRead, hu]
  · simp [sysRead, hr, xfsRead_none hfd]

theorem sysWrite_cases (s : System) (p : ProcId) (fd : ℕ) (data : List Byte)
    (hroute : route fd ≠ .pipe) : Passes s p fd ∨ sysWrite s p fd data = (-1, s) := by
  refine (passes_or s p hroute).imp_right ?_
  rintro (⟨hr, hu⟩ | ⟨hr, hfd⟩)
  · simp [sysWrite, hr, sysfsWrite, hu]
  · simp [sysWrite, hr, xfsWrite_none hfd]

/-- A call that the tables let pass is on a descriptor of the caller. -/
theorem Tagged.own (h : Tagged s) (hp : s.caller p = some T)
    (hown : sysfsOwnsFd fd = true → Own s p fd) (hpass : Passes s p fd) :
    IsOpen s (number fd) ∧ T = s.opener (number fd) := by
  rcases hpass with ⟨hsys, hu⟩ | ⟨i, hfd⟩
  · have hopen := isOpen_of_sysfs hsys hu
    have hcaller := hown hsys hopen
    rw [hp] at hcaller
    exact ⟨hopen, Option.some.inj hcaller⟩
  · exact h.own_of_fdOf hp hfd

/-- **A read that does not fail is on a descriptor of the caller.** -/
theorem Tagged.read_success (h : Tagged s) {count : ℕ} (hg : Guard s (.read p fd count))
    (he : Enabled s (.read p fd count)) (hp : s.caller p = some T)
    (hr : Reply.ret (exec s (.read p fd count)).1 ≠ -1) :
    IsOpen s (number fd) ∧ T = s.opener (number fd) := by
  rcases sysRead_cases s p fd count he.2 with hpass | hfail
  · exact h.own hp hg hpass
  · simp [exec, hfail, Reply.ret] at hr

/-- **A write that does not fail is on a descriptor of the caller.** -/
theorem Tagged.write_success (h : Tagged s) (hg : Guard s (.write p fd data))
    (he : Enabled s (.write p fd data)) (hp : s.caller p = some T)
    (hr : Reply.ret (exec s (.write p fd data)).1 ≠ -1) :
    IsOpen s (number fd) ∧ T = s.opener (number fd) := by
  rcases sysWrite_cases s p fd data he.2 with hpass | hfail
  · exact h.own hp hg hpass
  · simp [exec, hfail, Reply.ret] at hr

/-! ## Two runs -/

/-- What the slots of two runs have in common: the same process is there, and what is dead in
the second is dead in the first. -/
def SlotLike (a b : Option Slot) : Prop :=
  a.map (fun v => (v.task, v.tgid)) = b.map (fun v => (v.task, v.tgid)) ∧
    ∀ v w, a = some v → b = some w → w.dead = true → v.dead = true

/-- The two systems differ at most in that more processes of the first have exited. -/
structure Alike (s s' : System) : Prop where
  fs : s'.fs = s.fs
  sys : s'.sys = s.sys
  next : s'.next = s.next
  opener : s'.opener = s.opener
  procs : ∀ q, SlotLike (s.procs q) (s'.procs q)

theorem SlotLike.refl (a : Option Slot) : SlotLike a a :=
  ⟨rfl, fun v w hv hw hd => by rw [Option.some.inj (hv.symm.trans hw)]; exact hd⟩

theorem Alike.refl (s : System) : Alike s s := ⟨rfl, rfl, rfl, rfl, fun _ => .refl _⟩

theorem SlotLike.bury_left (h : SlotLike a b) : SlotLike (a.map ({ · with dead := true })) b := by
  refine ⟨by rw [Option.map_map]; exact h.1, ?_⟩
  intro v w hv _ _
  obtain ⟨v', -, rfl⟩ := Option.map_eq_some_iff.mp hv
  rfl

theorem SlotLike.bury (h : SlotLike a b) :
    SlotLike (a.map ({ · with dead := true })) (b.map ({ · with dead := true })) := by
  refine ⟨by rw [Option.map_map, Option.map_map]; exact h.1, ?_⟩
  intro v w hv _ _
  obtain ⟨v', -, rfl⟩ := Option.map_eq_some_iff.mp hv
  rfl

theorem SlotLike.any (h : SlotLike a b) (pid : ℕ) :
    b.any (·.tgid == pid) = a.any (·.tgid == pid) := by
  have hmap := congrArg (Option.any fun e => e.2 == pid) h.1
  rw [Option.any_map, Option.any_map] at hmap
  exact hmap.symm

theorem SlotLike.isNone (h : SlotLike a b) : b.isNone = a.isNone := by
  have hmap := congrArg Option.isNone h.1
  rw [Option.isNone_map, Option.isNone_map] at hmap
  exact hmap.symm

section

variable (h : Alike s s')
include h

theorem Alike.procByPid (pid : ℕ) : procByPid s'.procs pid = procByPid s.procs pid := by
  unfold Files.procByPid
  congr 1
  funext i
  exact (h.procs i).any pid

theorem Alike.freeSlot : freeSlot s'.procs = freeSlot s.procs := by
  unfold Files.freeSlot
  congr 1
  funext i
  exact (h.procs i).isNone

/-- Who can make a call in both runs is the same process. -/
theorem Alike.caller (hq : s.caller p = some T) : s'.caller p = some T := by
  rw [caller_eq] at hq ⊢
  obtain ⟨v, hv, hd, ht⟩ := hq
  obtain ⟨hmap, hdead⟩ := h.procs p
  rw [hv] at hmap
  obtain ⟨w, hw, hvw⟩ := Option.map_eq_some_iff.mp hmap.symm
  obtain ⟨htask, -⟩ := Prod.mk.inj hvw
  refine ⟨w, hw, ?_, htask.trans ht⟩
  by_contra hwd
  rw [hdead v w hv hw (by simpa using hwd)] at hd
  exact absurd hd (by decide)

theorem Alike.bury (p : ProcId) : Alike (s.bury p) (s'.bury p) := by
  refine ⟨h.fs, h.sys, h.next, h.opener, fun q => ?_⟩
  rw [procs_bury, procs_bury]
  split
  · exact (h.procs p).bury
  · exact h.procs q

theorem Alike.bury_left (p : ProcId) : Alike (s.bury p) s' := by
  refine ⟨h.fs, h.sys, h.next, h.opener, fun q => ?_⟩
  rw [procs_bury]
  split
  · next hq =>
      rw [hq]
      exact (h.procs p).bury_left
  · exact h.procs q

theorem Alike.procKill (pid : ℕ) : Alike (procKill s pid) (procKill s' pid) := by
  unfold Files.procKill
  rw [h.procByPid pid]
  split
  · exact h
  split
  · exact h
  · exact h.bury _

theorem Alike.setFs (x : Fs) : Alike { s with fs := x } { s' with fs := x } :=
  ⟨rfl, h.sys, h.next, h.opener, h.procs⟩

theorem Alike.setSys (i : ℕ) (f : SysFd) : Alike (s.setSys i f) (s'.setSys i f) :=
  { h with sys := by simp [System.setSys, h.sys] }

theorem Alike.update_procs (j q : ProcId) (v : Option Slot) :
    SlotLike (update s.procs j v q) (update s'.procs j v q) := by
  rw [update_apply, update_apply]
  split
  · exact .refl _
  · exact h.procs q

theorem Alike.create (p : ProcId) (thread : Bool) :
    Alike (procCreate s p thread) (procCreate s' p thread) := by
  have htgid : (s'.procs p).map (·.tgid) = (s.procs p).map (·.tgid) := by
    have hmap := congrArg (Option.map Prod.snd) (h.procs p).1
    rw [Option.map_map, Option.map_map] at hmap
    exact hmap.symm
  unfold procCreate
  rw [h.freeSlot, htgid, h.next]
  split
  · exact h
  next j _ =>
  exact ⟨h.fs, h.sys, rfl, h.opener, fun q => h.update_procs j q _⟩

theorem Alike.sysfsOpen (p : ProcId) (path : List Byte) (view : Option (Bool × List Byte)) :
    (sysfsOpen s' p path view).1 = (sysfsOpen s p path view).1 ∧
      Alike (sysfsOpen s p path view).2 (sysfsOpen s' p path view).2 := by
  unfold Files.sysfsOpen
  rw [h.sys]
  split
  · exact ⟨rfl, h⟩
  split
  · exact ⟨rfl, h.setSys _ _⟩
  · exact ⟨rfl, h.setSys _ _⟩

theorem Alike.sysOpen (hp : s.caller p = some T) (path : List Byte) (flags : ℕ)
    (view : Option (Bool × List Byte)) :
    (sysOpen s' p path flags view).1 = (sysOpen s p path flags view).1 ∧
      Alike (sysOpen s p path flags view).2 (sysOpen s' p path flags view).2 := by
  -- both branches end in the same way: a number is returned and its opener noted
  have hnote : ∀ (r : ℤ) (u u' : System), Alike u u' →
      let f := fun v w : System => if r < 0 then (r, v) else (r, { v with
        opener := update v.opener r.toNat ((w.caller p).getD 0) })
      (f u' s').1 = (f u s).1 ∧ Alike (f u s).2 (f u' s').2 := by
    intro r u u' hu
    dsimp only
    rw [h.caller hp, hp]
    split
    · exact ⟨rfl, hu⟩
    · exact ⟨rfl, { hu with opener := congrArg (update · _ _) hu.opener }⟩
  unfold Files.sysOpen
  by_cases hsys : sysfsOwns path = true
  · rw [if_pos hsys, if_pos hsys]
    obtain ⟨hr, halike⟩ := h.sysfsOpen p path view
    generalize Files.sysfsOpen s p path view = a at *
    generalize Files.sysfsOpen s' p path view = b at *
    obtain ⟨r, u⟩ := a
    obtain ⟨r', u'⟩ := b
    obtain rfl : r' = r := hr
    exact hnote r' u u' halike
  · rw [if_neg hsys, if_neg hsys, h.fs]
    generalize Xfs.xfsOpen s.fs p.val path flags = a
    obtain ⟨r, x⟩ := a
    exact hnote r _ _ (h.setFs x)

theorem Alike.sysRead (p : ProcId) (fd count : ℕ) :
    (sysRead s' p fd count).1 = (sysRead s p fd count).1 ∧
      (sysRead s' p fd count).2.1 = (sysRead s p fd count).2.1 ∧
      Alike (sysRead s p fd count).2.2 (sysRead s' p fd count).2.2 := by
  unfold Files.sysRead
  rw [h.fs]
  generalize route fd = r
  cases r with
  | sysfs =>
    unfold sysfsRead
    rw [h.sys]
    dsimp only
    split
    · exact ⟨rfl, rfl, h⟩
    · exact ⟨rfl, rfl, h.setSys _ _⟩
  | pipe | xfs => exact ⟨rfl, rfl, h.setFs _⟩

theorem Alike.sysWrite (p : ProcId) (fd : ℕ) (data : List Byte) :
    (sysWrite s' p fd data).1 = (sysWrite s p fd data).1 ∧
      Alike (sysWrite s p fd data).2 (sysWrite s' p fd data).2 := by
  have hfound : (fun pid => (Files.procByPid s'.procs pid).isSome) =
      fun pid => (Files.procByPid s.procs pid).isSome := by
    funext pid
    rw [h.procByPid pid]
  unfold Files.sysWrite
  rw [h.fs]
  generalize route fd = r
  cases r with
  | sysfs =>
    unfold sysfsWrite
    rw [h.sys, hfound]
    dsimp only
    split
    · exact ⟨rfl, h⟩
    split
    · exact ⟨rfl, h⟩
    · exact ⟨rfl, h⟩
    · exact ⟨rfl, h.procKill _⟩
  | pipe | xfs => exact ⟨rfl, h.setFs _⟩

theorem Alike.sysClose (fd : ℕ) : Alike (sysClose s fd) (sysClose s' fd) := by
  unfold Files.sysClose
  rw [h.fs]
  generalize route fd = r
  cases r with
  | sysfs =>
    unfold sysfsClose
    rw [h.sys]
    exact h.setSys _ _
  | pipe | xfs => exact h.setFs _

theorem Alike.sysLseek (p : ProcId) (fd : ℕ) (offset : ℤ) (whence : ℕ) :
    (sysLseek s' p fd offset whence).1 = (sysLseek s p fd offset whence).1 ∧
      Alike (sysLseek s p fd offset whence).2 (sysLseek s' p fd offset whence).2 := by
  unfold Files.sysLseek
  rw [h.fs]
  split
  · unfold sysfsLseek
    rw [h.sys]
    dsimp only
    generalize Int.bmod _ _ = no
    split
    · exact ⟨rfl, h⟩
    split
    · exact ⟨rfl, h⟩
    · exact ⟨rfl, h.setSys _ _⟩
  · exact ⟨rfl, h.setFs _⟩

/-- **One operation in both runs** has the same reply, and the systems stay alike. -/
theorem Alike.exec (hby : ∀ p, op.by = some p → (s.caller p).isSome) :
    (exec s' op).1 = (exec s op).1 ∧ Alike (exec s op).2 (exec s' op).2 := by
  cases op with
  | «open» p path flags view =>
    obtain ⟨T, hT⟩ := Option.isSome_iff_exists.mp (hby p rfl)
    obtain ⟨hr, halike⟩ := h.sysOpen hT path flags view
    exact ⟨congrArg Reply.code hr, halike⟩
  | read p fd count =>
    obtain ⟨hr, hdata, halike⟩ := h.sysRead p fd count
    rw [Files.exec]
    rw [hr, hdata]
    exact ⟨rfl, halike⟩
  | write p fd data =>
    obtain ⟨hr, halike⟩ := h.sysWrite p fd data
    exact ⟨congrArg Reply.code hr, halike⟩
  | close p fd => exact ⟨rfl, h.sysClose fd⟩
  | lseek p fd offset whence =>
    obtain ⟨hr, halike⟩ := h.sysLseek p fd offset whence
    exact ⟨congrArg Reply.code hr, halike⟩
  | other =>
    rw [Files.exec, h.fs]
    exact ⟨rfl, h.setFs _⟩
  | create p thread => exact ⟨rfl, h.create p thread⟩
  | exit p => exact ⟨rfl, h.bury p⟩
  | reap j => exact ⟨rfl, { h with procs := fun q => h.update_procs j q none }⟩

end

/-- **Interference does nothing**, but that the process which exits is gone. -/
theorem Interferes.alike (hi : Interferes T s op) (htag : Tagged s) (hg : Guard s op)
    (he : Enabled s op) (h : Alike s s') : Alike (exec s op).2 s' := by
  -- a call that is let through would be one of `T` itself
  have hno : ∀ {p fd}, s.caller p ≠ some T → IsOpen s (number fd) → s.opener (number fd) = T →
      (s.caller p).isSome → (sysfsOwnsFd fd = true → Own s p fd) → ¬ Passes s p fd := by
    intro p fd hne _ hop hp hown hpass
    obtain ⟨T', hT'⟩ := Option.isSome_iff_exists.mp hp
    obtain ⟨-, hT⟩ := htag.own hT' hown hpass
    rw [hop] at hT
    exact hne (by rw [hT', hT])
  cases op with
  | read p fd count =>
    obtain ⟨hne, hopen, hop⟩ := hi
    rw [Files.exec, (sysRead_cases s p fd count he.2).resolve_left (hno hne hopen hop he.1 hg)]
    exact h
  | write p fd data =>
    obtain ⟨hne, hopen, hop⟩ := hi
    rw [Files.exec, (sysWrite_cases s p fd data he.2).resolve_left (hno hne hopen hop he.1 hg)]
    exact h
  | close p fd =>
    obtain ⟨hne, hopen, hop⟩ := hi
    have hown : s.caller p = some (s.opener (number fd)) := hg hopen
    rw [hop] at hown
    exact absurd hown hne
  | exit p => exact h.bury_left p
  | _ => exact absurd hi id

theorem Enabled.caller (he : Enabled s op) (hp : op.by = some p) : (s.caller p).isSome := by
  cases op with
  | read | write | close | other =>
    cases hp
    exact he.1
  | «open» | lseek | create | exit =>
    cases hp
    exact he
  | reap => exact absurd hp (by simp [Op.by])

/-- **Isolation of descriptors.**

* Take two runs from one start whose steps all meet the condition, the first of which has in
  addition calls of other processes on the descriptors of `T` and their exits.  The replies to
  every call of `T` are the same in both.
* In a run whose steps all meet the condition, a read or a write that meets it and does not
  fail is through a number that the caller has opened itself. -/
theorem descriptor_isolation {s₀ : System} (h0 : Start s₀) :
    (∀ T l t t', Weave Step Guard (Interferes T) s₀ l t t' →
      ∀ u u' op, (u, u', op) ∈ l → By T u op → (exec u op).1 = (exec u' op).1) ∧
    (∀ ops t, Run Step Guard s₀ ops t → ∀ op p fd,
      ((∃ count, op = .read p fd count) ∨ ∃ data, op = .write p fd data) → Enabled t op →
      Guard t op → Reply.ret (exec t op).1 ≠ -1 →
      IsOpen t (number fd) ∧ t.caller p = some (t.opener (number fd))) := by
  constructor
  · intro T l t t' hw u u' op hmem ⟨p, hp, hT⟩
    have hrel := hw.invariant (R := fun s s' => Alike s s' ∧ Tagged s) ⟨.refl _, h0.tagged⟩
      (fun s s' op t t' hR hg _ hs hs' => ?_) (fun s s' op t hR hg hi hs => ?_)
    · refine ((hrel.2 (u, u', op) hmem).1.exec fun q hq => ?_).1.symm
      rw [← Option.some.inj (hp.symm.trans hq), hT]
      rfl
    · obtain ⟨-, rfl⟩ := hs'
      refine ⟨?_, hR.2.step hg hs⟩
      rw [hs.2]
      exact (hR.1.exec fun q hq => hs.1.caller hq).2
    · refine ⟨?_, hR.2.step hg hs⟩
      rw [hs.2]
      exact hi.alike hR.2 hg hs.1 hR.1
  · intro ops t hrun op p fd hop he hg hr
    have htag : Tagged t := hrun.invariant h0.tagged fun _ _ _ h hg hs => h.step hg hs
    have hsome : (t.caller p).isSome := by
      refine he.caller ?_
      rcases hop with ⟨count, rfl⟩ | ⟨data, rfl⟩ <;> rfl
    obtain ⟨T, hT⟩ := Option.isSome_iff_exists.mp hsome
    have hown : IsOpen t (number fd) ∧ T = t.opener (number fd) := by
      rcases hop with ⟨count, rfl⟩ | ⟨data, rfl⟩
      · exact htag.read_success hg he hT hr
      · exact htag.write_success hg he hT hr
    exact ⟨hown.1, by rw [hT, hown.2]⟩

/-! ## Two processes -/

/-- Two processes on a fresh disk, with nothing open. -/
def twoProcs : System where
  fs := Xfs.freshDisk 8
  sys _ := ⟨false, false, 0, 0, [], []⟩
  procs q := if q = 1 then some ⟨1, 1, false⟩ else if q = 2 then some ⟨2, 2, false⟩ else none
  next := 3
  opener _ := 0

theorem twoProcs_start : Start twoProcs := by
  have hslot : ∀ {q v}, twoProcs.procs q = some v → v.task = q.val ∧ v.task < 3 := by
    intro q v hv
    have hv' : (if q = 1 then some (⟨1, 1, false⟩ : Slot) else
        if q = 2 then some ⟨2, 2, false⟩ else none) = some v := hv
    split_ifs at hv' with h1 h2
    · cases hv'
      rw [h1]
      exact ⟨rfl, by decide⟩
    cases hv'
    rw [h2]
    exact ⟨rfl, by decide⟩
  refine ⟨fun i => ?_, fun _ => rfl, fun i j v w hv hw heq => ?_, fun i v hv => (hslot hv).2⟩
  · have hfds : (Xfs.freshDisk 8).fds = fun _ => Xfs.noFd := by
      have hmount := Xfs.mount_freshDisk
      unfold Xfs.xfsMount at hmount
      dsimp only at hmount
      split at hmount
      · simp at hmount
      · rw [← Option.some.inj hmount]
    show ((Xfs.freshDisk 8).fds i).used = false
    rfl
  · exact Fin.ext ((hslot hv).1.symm.trans (heq.trans (hslot hw).1))

/-- The first opens a file under `/sys`. -/
def openUptime : Op :=
  .open 1 (ascii ['/', 's', 'y', 's', '/', 'k', 'e', 'r', 'n', 'e', 'l', '/', 'u', 'p', 't', 'i',
    'm', 'e']) 0 (some (false, ascii ['5', '\n']))

/-- The first makes a file on the disk. -/
def openFile : Op := .open 1 (ascii ['/', 'f']) 6 none

/-- The first exits with the file open and is collected; the second forks, and the new
process has the first one's pid. -/
def leftover : List Op := [openFile, .exit 1, .reap 1, .create 2 false]

/-- **Another process closes and a successor inherits.**

* The first process opens a file under `/sys` and reads it.  If the second closes the number
  in between, the read fails; without that call it returns the two bytes.
* A process with the pid of an exited one writes through the descriptor that this one left
  open. -/
theorem stranger_closes : Start twoProcs ∧
    (∃ l t t' u u', Weave Step (fun _ _ => True) (Interferes 1) twoProcs l t t' ∧
      (u, u', .read 1 512 10) ∈ l ∧ By 1 u (.read 1 512 10) ∧
      Reply.ret (exec u (.read 1 512 10)).1 = -1 ∧ Reply.ret (exec u' (.read 1 512 10)).1 = 2) ∧
    (∃ t, Run Step (fun _ _ => True) twoProcs leftover t ∧ Enabled t (.write 1 0 [0x58#8]) ∧
      Reply.ret (exec t (.write 1 0 [0x58#8])).1 = 1 ∧ t.caller 1 = some 3 ∧ t.opener 0 = 1) := by
  refine ⟨twoProcs_start, ?_, ?_⟩
  · let u := (exec twoProcs openUptime).2
    have hopen : Step twoProcs openUptime u := ⟨by decide, rfl⟩
    have hclose : Step u (.close 2 512) (exec u (.close 2 512)).2 := ⟨by decide +kernel, rfl⟩
    refine ⟨_, _, _, (exec u (.close 2 512)).2, u, .both (.left (.both .nil trivial trivial hopen
      hopen) trivial ?_ hclose) trivial trivial ⟨?_, rfl⟩ ⟨?_, rfl⟩,
      List.mem_append_right _ List.mem_cons_self, ⟨1, rfl, ?_⟩, ?_, ?_⟩
    all_goals decide +kernel
  · refine ⟨_, .cons trivial ⟨by decide, rfl⟩ <| .cons trivial ⟨by decide +kernel, rfl⟩ <|
      .cons trivial ⟨by decide +kernel, rfl⟩ <| .cons trivial ⟨by decide +kernel, rfl⟩ .nil,
      ?_, ?_, ?_, ?_⟩
    all_goals decide +kernel

/-- The first process writes to its file; that the second tries to read from the same number
in between makes no difference. -/
theorem descriptor_isolation_two_procs :
    ∃ l t t' u u', Weave Step Guard (Interferes 1) twoProcs l t t' ∧
      (u, u', .write 1 0 [0x58#8]) ∈ l ∧ u = (exec u' (.read 2 0 1)).2 ∧
      (exec u (.write 1 0 [0x58#8])).1 = (exec u' (.write 1 0 [0x58#8])).1 ∧
      Reply.ret (exec u (.write 1 0 [0x58#8])).1 = 1 := by
  let u := (exec twoProcs openFile).2
  have hopen : Step twoProcs openFile u := ⟨by decide, rfl⟩
  have hread : Step u (.read 2 0 1) (exec u (.read 2 0 1)).2 := ⟨by decide +kernel, rfl⟩
  have hread' : Guard u (.read 2 0 1) := fun h => absurd h (by decide)
  have hwrite : ∀ v, Guard v (.write 1 0 [0x58#8]) := fun _ h => absurd h (by decide)
  have hw : Weave Step Guard (Interferes 1) twoProcs
      ([(twoProcs, twoProcs, openFile)] ++ [((exec u (.read 2 0 1)).2, u, .write 1 0 [0x58#8])])
      (exec (exec u (.read 2 0 1)).2 (.write 1 0 [0x58#8])).2
      (exec u (.write 1 0 [0x58#8])).2 := by
    refine .both (.left (.both .nil trivial trivial hopen hopen) hread' ?_ hread) (hwrite _)
      (hwrite _) ⟨?_, rfl⟩ ⟨?_, rfl⟩
    all_goals decide +kernel
  have hmem : ((exec u (.read 2 0 1)).2, u, Op.write 1 0 [0x58#8]) ∈
      [(twoProcs, twoProcs, openFile)] ++
        [((exec u (.read 2 0 1)).2, u, Op.write 1 0 [0x58#8])] :=
    List.mem_append_right _ List.mem_cons_self
  refine ⟨_, _, _, _, _, hw, hmem, rfl, ?_, by decide +kernel⟩
  exact (descriptor_isolation twoProcs_start).1 1 _ _ _ hw _ _ _ hmem ⟨1, rfl, by decide +kernel⟩

end Xos.Files
