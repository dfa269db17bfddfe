import Mathlib.Algebra.Order.Group.Nat
import Mathlib.Data.Int.Notation
import Mathlib.Data.List.Basic
import Mathlib.Data.Nat.Basic
import Mathlib.Logic.Function.Basic
import Mathlib.Order.Basic
import Mathlib.Tactic.Common
import Xos.Lib.Run

/-!
# Socket descriptors

The descriptor table of `bsd/compat/compat_shims.c`: `falloc_caps`, `fget_unlocked`, `fdrop`,
`fdclose`, `kern_close`, and `xos_poll_fd` of `kernel/bsd/syscalls.c`.  A `struct file` is counted:
`falloc_caps` hands out two references, one of them the table's own, `fget_unlocked` one more, and
the file ends when `fdrop` takes the last one.  The model keeps who holds them beside the count:
`callers fp` references handed out by the two functions and not dropped since, and `tabled fp` while
the reference of the table is not dropped.

* **The count is right, and a file ends once** — with its last reference, if `kern_close` only gets
  descriptors that are not open, or whose table reference was dropped before:
  `descriptors_counted`.
* `kern_close` takes a descriptor out of the table and drops only the reference it took itself; the
  file of a socket that is closed stays — `closed_socket_leaks`.
* `next_fd` only grows, so that a descriptor once closed is not given out again; where nothing below
  it is closed, `EMFILE` means that everything is open (last part of `descriptors_counted`).
-/

namespace Xos.Descriptors

open Xos.Lib Function

/-! ## The model -/

/-- `MAX_FDS`. -/
def maxFds : ℕ := 256

/-- `struct file`: its count of 32 bits, and whether `finit` has given it operations (those of a
socket, `fo_close` among them). -/
structure File where
  fCount : ℕ
  fOps : Bool
  deriving DecidableEq

/-- The files in memory by an address that is not used twice, and the table; then what has been
done to each file, and who holds it. -/
structure State where
  file : ℕ → Option File
  nextFile : ℕ
  fdTable : ℕ → Option ℕ
  nextFd : ℕ
  /-- How often `fo_close` was called with the file. -/
  closes : ℕ → ℕ
  /-- How often the file was freed. -/
  frees : ℕ → ℕ
  /-- Whether `finit` was called with the file. -/
  inited : ℕ → Bool
  /-- References handed out to callers and not dropped. -/
  callers : ℕ → ℕ
  /-- Whether the reference of the table is still there. -/
  tabled : ℕ → Bool

/-- The state at boot. -/
def boot : State where
  file := fun _ => none
  nextFile := 0
  fdTable := fun _ => none
  nextFd := 0
  closes := fun _ => 0
  frees := fun _ => 0
  inited := fun _ => false
  callers := fun _ => 0
  tabled := fun _ => false

/-- The references to a file that are outstanding. -/
def State.outstanding (s : State) (fp : ℕ) : ℕ := s.callers fp + (s.tabled fp).toNat

/-- What a call fails with. -/
inductive Errno where
  | emfile
  | enomem
  | ebadf
  deriving DecidableEq

/-- The search of `falloc_caps`: the first free descriptor from `next_fd` on. -/
def freeFd (s : State) : Option ℕ :=
  (List.range' s.nextFd (maxFds - s.nextFd)).find? fun fd => (s.fdTable fd).isNone

/-- What `falloc_caps` stores: a file with two references, one of them for the entry it makes. -/
def install (s : State) (fd : ℕ) : State :=
  { s with
    file := update s.file s.nextFile (some ⟨2, false⟩)
    nextFile := s.nextFile + 1
    fdTable := update s.fdTable fd (some s.nextFile)
    nextFd := fd + 1
    callers := update s.callers s.nextFile 1
    tabled := update s.tabled s.nextFile true }

/-- `falloc_caps(td, fpp, fdp, flags, fcapp)`: the file and the descriptor. -/
def fallocCaps (s : State) (kmallocOk : Bool) : Except Errno (State × ℕ × ℕ) :=
  match freeFd s with
  | none => .error .emfile
  | some fd => if kmallocOk = false then .error .enomem else .ok (install s fd, s.nextFile, fd)

/-- `finit(fp, flags, type, vp, ops)`. -/
def finit (s : State) (fp : ℕ) : State :=
  match s.file fp with
  | none => s
  | some f => { s with
      file := update s.file fp (some { f with fOps := true })
      inited := update s.inited fp true }

/-- The table entry that `fget_unlocked` finds. -/
def fdLookup (s : State) (fd : ℤ) : Option ℕ :=
  if fd < 0 ∨ (maxFds : ℤ) ≤ fd then none else s.fdTable fd.toNat

/-- `__atomic_add_fetch(&fp->f_count, 1)`. -/
def addRef (s : State) (fp : ℕ) : State :=
  match s.file fp with
  | none => s
  | some f => { s with
      file := update s.file fp (some { f with fCount := (f.fCount + 1) % 2 ^ 32 })
      callers := update s.callers fp (s.callers fp + 1) }

/-- `fget_unlocked(td, fd, rightsp, fpp)`. -/
def fgetUnlocked (s : State) (fd : ℤ) : Except Errno (State × ℕ) :=
  match fdLookup s fd with
  | none => .error .ebadf
  | some fp => .ok (addRef s fp, fp)

/-- The decrement of a count of 32 bits. -/
def File.less (f : File) : File := { f with fCount := (f.fCount + 2 ^ 32 - 1) % 2 ^ 32 }

/-- The first entry of a file in the table. -/
def entryOf (table : ℕ → Option ℕ) (fp : ℕ) : Option ℕ :=
  (List.range maxFds).find? fun i => table i == some fp

/-- The loop of `_fdrop` over the table: the first entry of the file is cleared. -/
def clearEntry (table : ℕ → Option ℕ) (fp : ℕ) (fd : ℕ) : Option ℕ :=
  if entryOf table fp = some fd then none else table fd

/-- `_fdrop(fp, td)`. -/
def fdropLast (s : State) (fp : ℕ) (f : File) : State :=
  { s with
    closes := if f.fOps then update s.closes fp (s.closes fp + 1) else s.closes
    fdTable := clearEntry s.fdTable fp
    file := update s.file fp none
    frees := update s.frees fp (s.frees fp + 1) }

/-- `fdrop(fp, td)`. -/
def fdrop (s : State) (fp : ℕ) : State :=
  match s.file fp with
  | none => s
  | some f =>
    if f.less.fCount = 0 then fdropLast s fp f.less
    else { s with file := update s.file fp (some f.less) }

/-- `fdclose(td, fd)`; an entry that goes takes the table's reference along. -/
def fdclose (s : State) (fd : ℤ) : State :=
  match fdLookup s fd with
  | none => s
  | some fp => { s with
      fdTable := update s.fdTable fd.toNat none
      tabled := update s.tabled fp false }

/-- `xos_fdrop(fp)`: it does not look at the count that is left. -/
def xosFdrop (s : State) (fp : ℕ) : State :=
  match s.file fp with
  | none => s
  | some f => { s with file := update s.file fp (some f.less) }

/-- A caller no longer holds a reference. -/
def release (s : State) (fp : ℕ) : State :=
  { s with callers := update s.callers fp (s.callers fp - 1) }

/-- The table no longer holds its reference. -/
def releaseTable (s : State) (fp : ℕ) : State :=
  { s with tabled := update s.tabled fp false }

/-- `kern_close(td, fd)`. -/
def kernClose (s : State) (fd : ℤ) : State :=
  match fgetUnlocked s fd with
  | .error _ => s
  | .ok (s, fp) => fdrop (release (fdclose s fd) fp) fp

/-- `xos_poll_fd(fd, events)`, as far as sockets go: descriptors from 64 on are those of pipes. -/
def xosPollFd (s : State) (fd : ℤ) : State :=
  if 64 ≤ fd then s
  else
    match fgetUnlocked s fd with
    | .error _ => s
    | .ok (s, fp) => xosFdrop (release s fp) fp

/-- The calls. -/
inductive Label where
  | falloc (kmallocOk : Bool)
  | finit (fp : ℕ)
  | fget (fd : ℤ)
  /-- `fdrop` of a reference that a caller was handed. -/
  | fdrop (fp : ℕ)
  /-- `fdrop` of the reference of the table. -/
  | fdropTable (fp : ℕ)
  | poll (fd : ℤ)
  | close (fd : ℤ)

/-- One call.  A call that fails changes nothing; a reference is dropped by who holds it. -/
inductive Step : State → Label → State → Prop
  | falloc {s t : State} {ok : Bool} {fp fd : ℕ} (h : fallocCaps s ok = .ok (t, fp, fd)) :
      Step s (.falloc ok) t
  | fallocFailed {s : State} {ok : Bool} {e : Errno} (h : fallocCaps s ok = .error e) :
      Step s (.falloc ok) s
  | finit {s : State} {fp : ℕ} : Step s (.finit fp) (finit s fp)
  | fget {s t : State} {fd : ℤ} {fp : ℕ} (h : fgetUnlocked s fd = .ok (t, fp)) : Step s (.fget fd) t
  | fgetFailed {s : State} {fd : ℤ} {e : Errno} (h : fgetUnlocked s fd = .error e) :
      Step s (.fget fd) s
  | fdrop {s : State} {fp : ℕ} (h : 0 < s.callers fp) :
      Step s (.fdrop fp) (fdrop (release s fp) fp)
  | fdropTable {s : State} {fp : ℕ} (h : s.tabled fp = true) :
      Step s (.fdropTable fp) (fdrop (releaseTable s fp) fp)
  | poll {s : State} {fd : ℤ} : Step s (.poll fd) (xosPollFd s fd)
  | close {s : State} {fd : ℤ} : Step s (.close fd) (kernClose s fd)

/-- When the counts are kept: `kern_close` gets a descriptor that is not open or whose table
reference is already gone, and a file has fewer references than its count can hold. -/
def Guard (s : State) : Label → Prop
  | .close fd => ∀ fp, fdLookup s fd = some fp → s.tabled fp = false
  | .fget fd => ∀ fp, fdLookup s fd = some fp → s.outstanding fp + 1 < 2 ^ 32
  | _ => True

/-! ## The invariant -/

/-- A file in memory has as many references as its count says, and has not been closed. -/
structure Live (s : State) (fp : ℕ) (f : File) : Prop where
  count : f.fCount = s.outstanding fp
  pos : 0 < f.fCount
  lt : f.fCount < 2 ^ 32
  frees : s.frees fp = 0
  closes : s.closes fp = 0
  ops : f.fOps = s.inited fp

/-- A file that is not in memory has no references, and was closed and freed once if it ever was
there. -/
structure Gone (s : State) (fp : ℕ) : Prop where
  callers : s.callers fp = 0
  tabled : s.tabled fp = false
  frees : s.frees fp = if fp < s.nextFile then 1 else 0
  closes : s.closes fp = if s.inited fp then s.frees fp else 0
  fresh : ¬fp < s.nextFile → s.inited fp = false

/-- The files, and the table with an entry at most for each. -/
structure Inv (s : State) : Prop where
  live : ∀ fp f, s.file fp = some f → Live s fp f ∧ fp < s.nextFile
  gone : ∀ fp, s.file fp = none → Gone s fp
  entry : ∀ fd fp, s.fdTable fd = some fp → (s.file fp).isSome = true ∧ fd < maxFds
  once : ∀ fd fd' fp, s.fdTable fd = some fp → s.fdTable fd' = some fp → fd = fd'

theorem inv_boot : Inv boot where
  live := nofun
  gone := fun _ _ => ⟨rfl, rfl, rfl, rfl, fun _ => rfl⟩
  entry := nofun
  once := nofun

variable {fd fp : ℕ} {s : State} {f : File} {table : ℕ → Option ℕ} {t : State}

theorem freeFd_some (h : freeFd s = some fd) : fd < maxFds := by
  have hmem := List.mem_of_find?_eq_some h
  rw [List.mem_range'_1] at hmem
  omega

theorem freeFd_none (h : freeFd s = none) (hge : s.nextFd ≤ fd) (hlt : fd < maxFds) :
    (s.fdTable fd).isSome = true := by
  have hopen := List.find?_eq_none.mp h fd (by rw [List.mem_range'_1]; omega)
  rw [Option.isSome_iff_ne_none]
  simpa using hopen

theorem fallocCaps_ok (h : fallocCaps s ok = .ok (t, fp, fd)) :
    freeFd s = some fd ∧ t = install s fd := by
  unfold fallocCaps at h
  split at h
  · simp at h
  next fd' hfree =>
  split at h
  · simp at h
  · obtain ⟨rfl, _, rfl⟩ := h
    exact ⟨hfree, rfl⟩

theorem fallocCaps_emfile (h : fallocCaps s ok = .error .emfile) : freeFd s = none := by
  unfold fallocCaps at h
  split at h
  · assumption
  · split at h <;> simp at h

theorem fdLookup_some {fd : ℤ} (h : fdLookup s fd = some fp) : s.fdTable fd.toNat = some fp := by
  unfold fdLookup at h
  split at h
  · simp at h
  · exact h

theorem fgetUnlocked_ok {fd : ℤ} (h : fgetUnlocked s fd = .ok (t, fp)) :
    fdLookup s fd = some fp ∧ t = addRef s fp := by
  unfold fgetUnlocked at h
  split at h
  · simp at h
  next fp' hfp =>
  obtain ⟨rfl, rfl⟩ := h
  exact ⟨hfp, rfl⟩

/-! ## Files that a call does not touch -/

/-- What the invariant says of one file depends on that file only. -/
structure Same (s t : State) (fp : ℕ) : Prop where
  file : t.file fp = s.file fp
  callers : t.callers fp = s.callers fp
  tabled : t.tabled fp = s.tabled fp
  frees : t.frees fp = s.frees fp
  closes : t.closes fp = s.closes fp
  inited : t.inited fp = s.inited fp
  next : (fp < t.nextFile) = (fp < s.nextFile)

theorem Live.same (h : Live s fp f) (hs : Same s t fp) : Live t fp f where
  count := by
    rw [h.count, State.outstanding, State.outstanding, hs.callers, hs.tabled]
  pos := h.pos
  lt := h.lt
  frees := by rw [hs.frees, h.frees]
  closes := by rw [hs.closes, h.closes]
  ops := by rw [hs.inited, h.ops]

theorem Gone.same (h : Gone s fp) (hs : Same s t fp) : Gone t fp where
  callers := by rw [hs.callers, h.callers]
  tabled := by rw [hs.tabled, h.tabled]
  frees := by
    rw [hs.frees, h.frees]
    simp only [hs.next]
  closes := by rw [hs.closes, h.closes, hs.inited, hs.frees]
  fresh := by
    intro hlt
    rw [hs.inited]
    exact h.fresh (hs.next ▸ hlt)

/-- A call that changes one file keeps the invariant if it holds of that file. -/
theorem Inv.change (h : Inv s) (fp : ℕ) (hsame : ∀ q, q ≠ fp → Same s t q)
    (hlive : ∀ f, t.file fp = some f → Live t fp f ∧ fp < t.nextFile)
    (hgone : t.file fp = none → Gone t fp)
    (hentry : ∀ fd, t.fdTable fd = some fp → (t.file fp).isSome = true ∧ fd < maxFds)
    (honce : ∀ fd fd', t.fdTable fd = some fp → t.fdTable fd' = some fp → fd = fd')
    (htable : ∀ fd q, q ≠ fp → t.fdTable fd = some q → s.fdTable fd = some q) : Inv t where
  live := by
    intro q g hg
    by_cases hq : q = fp
    · subst hq
      exact hlive g hg
    have hs := hsame q hq
    obtain ⟨hl, hn⟩ := h.live q g (hs.file ▸ hg)
    exact ⟨hl.same hs, hs.next ▸ hn⟩
  gone := by
    intro q hg
    by_cases hq : q = fp
    · subst hq
      exact hgone hg
    · exact (h.gone q ((hsame q hq).file ▸ hg)).same (hsame q hq)
  entry := by
    intro fd q hfd
    by_cases hq : q = fp
    · subst hq
      exact hentry fd hfd
    · rw [(hsame q hq).file]
      exact h.entry fd q (htable fd q hq hfd)
  once := by
    intro fd fd' q hfd hfd'
    by_cases hq : q = fp
    · subst hq
      exact honce fd fd' hfd hfd'
    · exact h.once fd fd' q (htable fd q hq hfd) (htable fd' q hq hfd')

/-- A call that touches one file, stays in its place in the table and keeps its count right keeps
the invariant. -/
theorem Inv.touch (h : Inv s) (fp : ℕ) (f : File) (hsame : ∀ q, q ≠ fp → Same s t q)
    (hfile : t.file fp = some f) (hlive : Live t fp f) (hlt : fp < t.nextFile)
    (htable : ∀ fd q, t.fdTable fd = some q → s.fdTable fd = some q) : Inv t := by
  refine h.change fp hsame (fun g hg => ?_) (fun hg => ?_) (fun fd hfd => ?_)
    (fun fd fd' hq hq' => h.once fd fd' fp (htable fd fp hq) (htable fd' fp hq'))
    fun fd q _ => htable fd q
  · obtain rfl := Option.some.inj (hfile.symm.trans hg)
    exact ⟨hlive, hlt⟩
  · rw [hfile] at hg
    cases hg
  · exact ⟨by rw [hfile]; rfl, (h.entry fd fp (htable fd fp hfd)).2⟩

/-! ## The calls -/

theorem Inv.file_nextFile (h : Inv s) : s.file s.nextFile = none := by
  cases hx : s.file s.nextFile with
  | none => rfl
  | some f => exact absurd (h.live _ f hx).2 (lt_irrefl _)

theorem same_install (fd : ℕ) (hq : q ≠ s.nextFile) : Same s (install s fd) q where
  file := update_of_ne hq ..
  callers := update_of_ne hq ..
  tabled := update_of_ne hq ..
  frees := rfl
  closes := rfl
  inited := rfl
  next := by
    simp only [install, eq_iff_iff]
    omega

theorem Inv.install (h : Inv s) (hlt : fd < maxFds) : Inv (install s fd) := by
  -- the address is new: it was neither freed nor closed, and no entry has it
  have hnew := h.file_nextFile
  have hgone := h.gone _ hnew
  have hfrees : s.frees s.nextFile = 0 := by simpa using hgone.frees
  have hcloses : s.closes s.nextFile = 0 := by simpa [hfrees] using hgone.closes
  have hentry : ∀ fd', (Descriptors.install s fd).fdTable fd' = some s.nextFile → fd' = fd := by
    intro fd' hfd'
    by_contra hne
    have := (h.entry fd' s.nextFile (by simpa [Descriptors.install, hne] using hfd')).1
    simp [hnew] at this
  have hfile : (Descriptors.install s fd).file s.nextFile = some ⟨2, false⟩ := update_self ..
  refine h.change s.nextFile (fun q hq => same_install fd hq) ?_ ?_ ?_ ?_ ?_
  · intro g hg
    obtain rfl := Option.some.inj (hfile.symm.trans hg)
    refine ⟨⟨?_, by simp, by simp, hfrees, hcloses, ?_⟩, Nat.lt_succ_self _⟩
    · simp [State.outstanding, Descriptors.install]
    · exact (hgone.fresh (lt_irrefl _)).symm
  · intro hg
    rw [hfile] at hg
    cases hg
  · intro fd' hfd'
    exact ⟨by rw [hfile]; rfl, hentry fd' hfd' ▸ hlt⟩
  · intro fd₁ fd₂ h₁ h₂
    rw [hentry fd₁ h₁, hentry fd₂ h₂]
  · intro fd' q hq hfd'
    have hne : fd' ≠ fd := by
      rintro rfl
      simp [Descriptors.install, Ne.symm hq] at hfd'
    simpa [Descriptors.install, hne] using hfd'

theorem Inv.finit (h : Inv s) (fp : ℕ) : Inv (finit s fp) := by
  unfold Descriptors.finit
  split
  · exact h
  next f hf =>
  obtain ⟨hl, hn⟩ := h.live fp f hf
  refine h.touch fp { f with fOps := true } ?_ (by simp) ?_ hn (fun _ _ hq => hq)
  · intro q hq
    constructor <;> simp [hq]
  · exact ⟨hl.count, hl.pos, hl.lt, hl.frees, hl.closes, by simp⟩

theorem Inv.addRef (h : Inv s) (hlt : s.outstanding fp + 1 < 2 ^ 32) : Inv (addRef s fp) := by
  unfold Descriptors.addRef
  split
  · exact h
  next f hf =>
  obtain ⟨hl, hn⟩ := h.live fp f hf
  have hcount := hl.count
  have hmod : (f.fCount + 1) % 2 ^ 32 = f.fCount + 1 := Nat.mod_eq_of_lt (by omega)
  rw [hmod]
  refine h.touch fp { f with fCount := f.fCount + 1 } ?_ (by simp) ?_ hn (fun _ _ hq => hq)
  · intro q hq
    constructor <;> simp [hq]
  · refine ⟨?_, by simp, by simpa [hcount] using hlt, hl.frees, hl.closes, hl.ops⟩
    simp only [State.outstanding] at hcount ⊢
    rw [update_self]
    omega

theorem clearEntry_some (h : clearEntry table fp fd = some q) : table fd = some q := by
  unfold clearEntry at h
  split at h
  · simp at h
  · exact h

/-- An entry that is the only one of its file is the one that is cleared. -/
theorem clearEntry_ne (honce : ∀ fd fd', table fd = some fp → table fd' = some fp → fd = fd')
    (hlt : ∀ fd, table fd = some fp → fd < maxFds) (fd : ℕ) : clearEntry table fp fd ≠ some fp := by
  intro h
  have hfd := clearEntry_some h
  unfold clearEntry at h
  cases hentry : entryOf table fp with
  | none =>
    have hno := List.find?_eq_none.mp hentry fd (List.mem_range.mpr (hlt fd hfd))
    simp [hfd] at hno
  | some i =>
    have hi : table i = some fp := by simpa using List.find?_some hentry
    rw [hentry, honce fd i hfd hi] at h
    simp at h

/-- The state `u` is `s` with one reference to `fp` less on the side of the holders. -/
structure Unheld (s u : State) (fp : ℕ) : Prop where
  same : ∀ q, q ≠ fp → Same s u q
  outstanding : u.outstanding fp + 1 = s.outstanding fp
  file : u.file = s.file
  fdTable : u.fdTable = s.fdTable
  frees : u.frees fp = s.frees fp
  closes : u.closes fp = s.closes fp
  inited : u.inited fp = s.inited fp
  nextFile : u.nextFile = s.nextFile

theorem unheld_release (h : 0 < s.callers fp) : Unheld s (release s fp) fp where
  same := by
    intro q hq
    constructor <;> simp [release, hq]
  outstanding := by
    simp only [State.outstanding, release, update_self]
    omega
  file := rfl
  fdTable := rfl
  frees := rfl
  closes := rfl
  inited := rfl
  nextFile := rfl

theorem unheld_releaseTable (h : s.tabled fp = true) : Unheld s (releaseTable s fp) fp where
  same := by
    intro q hq
    constructor <;> simp [releaseTable, hq]
  outstanding := by simp [State.outstanding, releaseTable, h]
  file := rfl
  fdTable := rfl
  frees := rfl
  closes := rfl
  inited := rfl
  nextFile := rfl

theorem File.less_fOps (f : File) : f.less.fOps = f.fOps := by
  cases f with
  | mk => rfl

theorem File.less_fCount (hpos : 0 < f.fCount) (hlt : f.fCount < 2 ^ 32) :
    f.less.fCount = f.fCount - 1 := by
  simp only [File.less]
  omega

/-- `_fdrop` of a file with its last reference. -/
theorem Inv.fdropLast (h : Inv s) (hf : s.file fp = some f) (hu : Unheld s u fp)
    (hzero : u.outstanding fp = 0) (hfg : g.fOps = f.fOps) :
    Inv (fdropLast u fp g) := by
  obtain ⟨hl, hn⟩ := h.live fp f hf
  have hsame : ∀ q, q ≠ fp → Same s (Descriptors.fdropLast u fp g) q := by
    intro q hq
    have hs := hu.same q hq
    refine ⟨?_, hs.callers, hs.tabled, ?_, ?_, hs.inited, hs.next⟩
    · simp [Descriptors.fdropLast, hq, hs.file]
    · simp [Descriptors.fdropLast, hq, hs.frees]
    · simp only [Descriptors.fdropLast]
      split <;> simp [hq, hs.closes]
  have hne := clearEntry_ne (fun fd fd' => h.once fd fd' fp) (fun fd hfd => (h.entry fd fp hfd).2)
  simp only [State.outstanding, Nat.add_eq_zero_iff] at hzero
  have hgone : Gone (Descriptors.fdropLast u fp g) fp := by
    have hops : g.fOps = u.inited fp := by rw [hfg, hl.ops, hu.inited]
    refine ⟨hzero.1, by simpa [Descriptors.fdropLast] using hzero.2, ?_, ?_, ?_⟩
    · simp [Descriptors.fdropLast, hu.frees, hl.frees, hu.nextFile, hn]
    · simp only [Descriptors.fdropLast, hops]
      cases u.inited fp <;> simp [hu.frees, hl.frees, hu.closes, hl.closes]
    · intro hlt
      exact absurd (hu.nextFile ▸ hn) hlt
  have htable : ∀ fd q, (Descriptors.fdropLast u fp g).fdTable fd = some q →
      clearEntry s.fdTable fp fd = some q := fun fd q hq => hu.fdTable ▸ hq
  refine h.change fp hsame ?_ (fun _ => hgone) (fun fd hfd => absurd (htable fd fp hfd) (hne fd))
    (fun fd _ hfd => absurd (htable fd fp hfd) (hne fd))
    fun fd q _ hfd => clearEntry_some (htable fd q hfd)
  intro e he
  simp [Descriptors.fdropLast] at he

/-- `fdrop` of a reference that is outstanding. -/
theorem Inv.fdrop (h : Inv s) (hu : Unheld s u fp) : Inv (fdrop u fp) := by
  have hout := hu.outstanding
  cases hf : s.file fp with
  | none =>
    have hgone := h.gone fp hf
    simp [State.outstanding, hgone.callers, hgone.tabled] at hout
  | some f =>
    obtain ⟨hl, hn⟩ := h.live fp f hf
    have hcount := hl.count
    have hless := File.less_fCount hl.pos hl.lt
    unfold Descriptors.fdrop
    rw [hu.file, hf]
    dsimp only
    by_cases hz : f.less.fCount = 0
    · rw [if_pos hz]
      exact h.fdropLast hf hu (by omega) f.less_fOps
    rw [if_neg hz]
    have hlt := hl.lt
    refine h.touch fp f.less ?_ (by simp) ?_ (by simpa [hu.nextFile] using hn) ?_
    · intro q hq
      have hs := hu.same q hq
      refine ⟨?_, hs.callers, hs.tabled, hs.frees, hs.closes, hs.inited, hs.next⟩
      simp [hq]
    · refine ⟨?_, by omega, by omega, hu.frees.trans hl.frees, hu.closes.trans hl.closes,
        by rw [f.less_fOps, hl.ops]; exact hu.inited.symm⟩
      change f.less.fCount = u.outstanding fp
      omega
    · intro fd q hq
      exact hu.fdTable ▸ hq

/-- A reference taken and given back leaves the count. -/
theorem File.less_more (h : f.fCount < 2 ^ 32) :
    File.less { f with fCount := (f.fCount + 1) % 2 ^ 32 } = f := by
  cases f with
  | mk =>
    simp only [File.less, File.mk.injEq, and_true] at h ⊢
    omega

theorem Inv.xosPollFd (h : Inv s) (fd : ℤ) : Inv (xosPollFd s fd) := by
  unfold Descriptors.xosPollFd
  split
  · exact h
  split
  · exact h
  next t fp hget =>
  obtain ⟨hfd, rfl⟩ := fgetUnlocked_ok hget
  obtain ⟨f, hf⟩ := Option.isSome_iff_exists.mp (h.entry _ _ (fdLookup_some hfd)).1
  obtain ⟨hl, hn⟩ := h.live fp f hf
  have hkeep := File.less_more hl.lt
  simp only [Descriptors.addRef, hf, release, xosFdrop, update_self, hkeep]
  refine h.touch fp f ?_ (by simp) ?_ hn (fun _ _ hq => hq)
  · intro q hq
    constructor <;> simp [hq]
  · refine ⟨?_, hl.pos, hl.lt, hl.frees, hl.closes, hl.ops⟩
    simpa [State.outstanding] using hl.count

/-- `kern_close` of a descriptor without the reference of the table only takes the entry away. -/
theorem Inv.kernClose (h : Inv s) {fd : ℤ}
    (hg : ∀ fp, fdLookup s fd = some fp → s.tabled fp = false) : Inv (kernClose s fd) := by
  unfold Descriptors.kernClose
  split
  · exact h
  next t fp hget =>
  obtain ⟨hfd, rfl⟩ := fgetUnlocked_ok hget
  obtain ⟨f, hf⟩ := Option.isSome_iff_exists.mp (h.entry _ _ (fdLookup_some hfd)).1
  obtain ⟨hl, hn⟩ := h.live fp f hf
  have hkeep := File.less_more hl.lt
  have hpos : f.fCount ≠ 0 := Nat.pos_iff_ne_zero.mp hl.pos
  have htabled := hg fp hfd
  have hlook : fdLookup (Descriptors.addRef s fp) fd = some fp := by
    rw [← hfd]
    simp only [fdLookup, Descriptors.addRef, hf]
  simp only [fdclose, hlook]
  simp only [Descriptors.addRef, hf, release, Descriptors.fdrop, update_self, hkeep,
    if_neg hpos]
  refine h.touch fp f ?_ (by simp) ?_ hn ?_
  · intro q hq
    constructor <;> simp [hq]
  · refine ⟨?_, hl.pos, hl.lt, hl.frees, hl.closes, hl.ops⟩
    simpa [State.outstanding, htabled] using hl.count
  · intro fd' q hq
    by_cases hfd' : fd' = fd.toNat
    · subst hfd'
      simp at hq
    · simpa [hfd'] using hq

/-- **One call.** -/
theorem Inv.step (h : Inv s) (hg : Guard s l) (hstep : Step s l t) : Inv t := by
  cases hstep with
  | falloc hf =>
    obtain ⟨hfree, rfl⟩ := fallocCaps_ok hf
    exact h.install (freeFd_some hfree)
  | fallocFailed | fgetFailed => exact h
  | finit => exact h.finit _
  | fget hget =>
    obtain ⟨hfd, rfl⟩ := fgetUnlocked_ok hget
    exact h.addRef (hg _ hfd)
  | fdrop hpos => exact h.fdrop (unheld_release hpos)
  | fdropTable htab => exact h.fdrop (unheld_releaseTable htab)
  | poll => exact h.xosPollFd _
  | close => exact h.kernClose hg

/-! ## Runs -/

/-- **The lifecycle of a socket descriptor.**  In every run of the calls in which `kern_close` gets
no descriptor that the table still counts, and no file more references than fit its count: a file in
memory has as many references as its count says and was never closed or freed; a file without
references was freed once, and its `fo_close` called once if it had one; and `falloc_caps` says
`EMFILE` only when everything is open, unless a descriptor below `next_fd` was given back. -/
theorem descriptors_counted {ls : List Label} {s : State} (hrun : Run Step Guard boot ls s) :
    (∀ fp f, s.file fp = some f →
      f.fCount = s.outstanding fp ∧ 0 < s.outstanding fp ∧ s.frees fp = 0 ∧ s.closes fp = 0) ∧
    (∀ fp, fp < s.nextFile → s.outstanding fp = 0 →
      s.file fp = none ∧ s.frees fp = 1 ∧ s.closes fp = (s.inited fp).toNat) ∧
    (∀ fp, fp < s.nextFile → s.file fp = none → s.outstanding fp = 0) ∧
    (∀ ok, fallocCaps s ok = .error .emfile → (∀ fd < s.nextFd, (s.fdTable fd).isSome = true) →
      ∀ fd < maxFds, (s.fdTable fd).isSome = true) := by
  have h : Inv s := hrun.invariant inv_boot fun _ _ _ hi hg hs => hi.step hg hs
  refine ⟨?_, ?_, ?_, ?_⟩
  · intro fp f hf
    obtain ⟨hl, _⟩ := h.live fp f hf
    exact ⟨hl.count, hl.count ▸ hl.pos, hl.frees, hl.closes⟩
  · intro fp hfp hzero
    have hnone : s.file fp = none := by
      cases hf : s.file fp with
      | none => rfl
      | some f =>
        have hl := (h.live fp f hf).1
        have hpos := hl.pos
        rw [hl.count, hzero] at hpos
        exact absurd hpos (lt_irrefl 0)
    have hgone := h.gone fp hnone
    have hfrees : s.frees fp = 1 := by rw [hgone.frees, if_pos hfp]
    refine ⟨hnone, hfrees, ?_⟩
    rw [hgone.closes, hfrees]
    cases s.inited fp <;> rfl
  · intro fp _ hnone
    have hgone := h.gone fp hnone
    simp [State.outstanding, hgone.callers, hgone.tabled]
  · intro ok hfull hlow fd hfd
    rcases Nat.lt_or_ge fd s.nextFd with hlt | hge
    · exact hlow fd hlt
    · exact freeFd_none (fallocCaps_emfile hfull) hge hfd

/-- A socket is made, asked for once more, and all three references are dropped, the table's before
the last: it is closed and freed. -/
theorem socket_ends_once : ∃ s, Run Step Guard boot
        [.falloc true, .finit 0, .fget 0, .fdrop 0, .fdropTable 0, .fdrop 0] s ∧
      s.outstanding 0 = 0 ∧ s.file 0 = none ∧ s.frees 0 = 1 ∧ s.closes 0 = 1 := by
  have hrun : Run Step Guard boot
      [.falloc true, .finit 0, .fget 0, .fdrop 0, .fdropTable 0, .fdrop 0] _ :=
    Run.cons trivial (.falloc (show fallocCaps boot true = .ok (_, 0, 0) from rfl)) <|
    Run.cons trivial .finit <|
    Run.cons (show ∀ fp, _ from fun fp hfp => by cases hfp; decide)
      (.fget (show fgetUnlocked (finit (install boot 0) 0) 0 = .ok (_, 0) from rfl)) <|
    Run.cons trivial (.fdrop (by decide)) <|
    Run.cons trivial (.fdropTable (by decide)) <|
    Run.cons trivial (.fdrop (by decide)) .nil
  obtain ⟨_, hgone, _, _⟩ := descriptors_counted hrun
  obtain ⟨hfile, hfrees, hcloses⟩ := hgone 0 (by decide) (by decide)
  exact ⟨_, hrun, by decide, hfile, hfrees, hcloses.trans (by decide)⟩

/-- A socket is made, as `kern_socket` makes it, and closed.  Nobody has a reference, the table has
no entry, and the file is there with a count of one: `fo_close` is never called. -/
theorem closed_socket_leaks :
    ∃ s, Run Step (fun _ _ => True) boot [.falloc true, .finit 0, .fdrop 0, .close 0] s ∧
      s.fdTable 0 = none ∧ s.outstanding 0 = 0 ∧ s.file 0 = some ⟨1, true⟩ ∧ s.frees 0 = 0 ∧
      s.closes 0 = 0 :=
  ⟨_, Run.cons trivial (.falloc (show fallocCaps boot true = .ok (_, 0, 0) from rfl)) <|
    Run.cons trivial .finit <|
    Run.cons trivial (.fdrop (by decide)) <|
    Run.cons trivial .close .nil, by decide, by decide, by decide, by decide, by decide⟩

/-! ## Descriptors are not given out again -/

theorem addRef_nextFd (s : State) (fp : ℕ) : (addRef s fp).nextFd = s.nextFd := by
  unfold addRef
  split <;> rfl

theorem fdrop_nextFd (s : State) (fp : ℕ) : (fdrop s fp).nextFd = s.nextFd := by
  unfold fdrop
  split
  · rfl
  · split <;> rfl

theorem fdclose_nextFd (s : State) (fd : ℤ) : (fdclose s fd).nextFd = s.nextFd := by
  unfold fdclose
  split <;> rfl

theorem kernClose_nextFd (s : State) (fd : ℤ) : (kernClose s fd).nextFd = s.nextFd := by
  unfold kernClose
  split
  · rfl
  next t fp hget =>
  obtain ⟨_, rfl⟩ := fgetUnlocked_ok hget
  rw [fdrop_nextFd, release, fdclose_nextFd, addRef_nextFd]

theorem xosPollFd_nextFd (s : State) (fd : ℤ) : (xosPollFd s fd).nextFd = s.nextFd := by
  unfold xosPollFd
  split
  · rfl
  split
  · rfl
  next t fp hget =>
  obtain ⟨_, rfl⟩ := fgetUnlocked_ok hget
  rw [xosFdrop]
  split <;> exact addRef_nextFd s fp

theorem Step.nextFd_le (h : Step s l t) : s.nextFd ≤ t.nextFd := by
  have hdrop : ∀ u fp, u.nextFd = s.nextFd → s.nextFd ≤ (Descriptors.fdrop u fp).nextFd := by
    intro u fp hu
    rw [fdrop_nextFd, hu]
  cases h with
  | falloc hf =>
    obtain ⟨hfree, rfl⟩ := fallocCaps_ok hf
    have hmem := List.mem_of_find?_eq_some hfree
    rw [List.mem_range'_1] at hmem
    exact Nat.le_succ_of_le hmem.1
  | fallocFailed | fgetFailed => exact le_rfl
  | finit =>
    unfold Descriptors.finit
    split <;> exact le_rfl
  | fget hget =>
    obtain ⟨_, rfl⟩ := fgetUnlocked_ok hget
    exact (addRef_nextFd ..).ge
  | fdrop _ | fdropTable _ => exact hdrop _ _ rfl
  | poll => exact (xosPollFd_nextFd ..).ge
  | close => exact (kernClose_nextFd ..).ge

/-- **The descriptors run out.**  Once the last descriptor was given out, `falloc_caps` fails with
`EMFILE` from then on, whatever is closed. -/
theorem emfile_forever (hlast : maxFds ≤ s.nextFd) (hrun : Run Step (fun _ _ => True) s ls t)
    (ok : Bool) :
    fallocCaps t ok = .error .emfile := by
  have ht : maxFds ≤ t.nextFd := by
    induction hrun with
    | nil => exact hlast
    | snoc _ _ hstep ih => exact le_trans ih hstep.nextFd_le
  have hnone : freeFd t = none := by
    simp [freeFd, Nat.sub_eq_zero_of_le ht]
  rw [fallocCaps, hnone]

/-- The state after `n` calls of `falloc_caps`. -/
def opened : ℕ → State
  | 0 => boot
  | n + 1 => install (opened n) n

theorem opened_counters (n : ℕ) : (opened n).nextFd = n ∧ (opened n).nextFile = n := by
  induction n with
  | zero => exact ⟨rfl, rfl⟩
  | succ n ih => exact ⟨rfl, congrArg (· + 1) ih.2⟩

theorem opened_fdTable (n fd : ℕ) : (opened n).fdTable fd = if fd < n then some fd else none := by
  induction n with
  | zero => rfl
  | succ n ih =>
    simp only [opened, install, (opened_counters n).2, update_apply, ih]
    grind

theorem opened_run {n : ℕ} (hn : n ≤ maxFds) :
    Run Step (fun _ _ => True) boot (List.replicate n (.falloc true)) (opened n) := by
  induction n with
  | zero => exact .nil
  | succ n ih =>
    have hfree : freeFd (opened n) = some n := by
      rw [freeFd, (opened_counters n).1, show maxFds - n = maxFds - n - 1 + 1 by omega]
      simp [List.range'_succ, opened_fdTable]
    have hcall : fallocCaps (opened n) true = .ok (opened (n + 1), (opened n).nextFile, n) := by
      rw [fallocCaps, hfree]
      rfl
    rw [List.replicate_succ']
    exact (ih (by omega)).snoc trivial (.falloc hcall)

/-- All descriptors are open, one of them is closed, and none is to be had. -/
theorem emfile_after_close :
    Run Step (fun _ _ => True) boot (List.replicate 256 (.falloc true)) (opened 256) ∧
      (opened 256).fdTable 7 = some 7 ∧ (kernClose (opened 256) 7).fdTable 7 = none ∧
      fallocCaps (kernClose (opened 256) 7) true = .error .emfile := by
  refine ⟨opened_run le_rfl, by rw [opened_fdTable]; rfl, by decide +kernel, ?_⟩
  exact emfile_forever (opened_counters 256).1.ge (.cons trivial .close .nil) true

end Xos.Descriptors
