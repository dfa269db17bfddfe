import Xos.Xfs.Ops
import Xos.Sched.Basic

/-!
# File calls of processes

The system calls on descriptors (`kernel/arch/x86_64/syscall.c`), which go to XFS or to the
`/sys` tree (`kernel/fs/sysfs.c`) by the number they are given, and the life of the processes
that make them.

Both file systems have one table of descriptors for all processes.  XFS compares the pid in
an entry with the caller's; `/sys` stores it and never looks at it again.  No table is touched
when a process exits.

The text of a file under `/sys` is rendered, when it is opened, from parts of the kernel that
are not modelled, and is an argument of the call here.  Numbers of pipes reach neither table
and are left out.
-/

namespace Xos.Files

open Xos.Lib Function
open Xos.Xfs (Fs slash toInt Reply)
open Xos.Sched (ProcId schedMaxProcs)

def sysfsFdBase : ℕ := 512

def sysfsMaxFds : ℕ := 32

def sysfsBufMax : ℕ := 4096

/-! ## State -/

/-- `sysfs_fd_t`; `data` is what there is of the text, so `len` is its length. -/
structure SysFd where
  used : Bool
  isDir : Bool
  pid : ℕ
  offset : ℕ
  path : List Byte
  data : List Byte
  deriving DecidableEq

/-- A slot of the process table that is in use.  `task` numbers the processes in order of
creation; the kernel does not have it. -/
structure Slot where
  task : ℕ
  tgid : ℕ
  /-- It has exited and was not collected. -/
  dead : Bool
  deriving DecidableEq

/-- The two tables and the processes.  `opener` remembers which process got a number last. -/
structure System where
  fs : Fs
  sys : ℕ → SysFd
  procs : ProcId → Option Slot
  next : ℕ
  opener : ℕ → ℕ

/-- The process in slot `p`, if it can make a call. -/
def System.caller (s : System) (p : ProcId) : Option ℕ :=
  match s.procs p with
  | some v => if v.dead then none else some v.task
  | none => none

/-! ## Processes -/

/-- `proc_by_pid(pid)`. -/
def procByPid (procs : ProcId → Option Slot) (pid : ℕ) : Option ProcId :=
  (List.finRange schedMaxProcs).find? fun i => (procs i).any (·.tgid == pid)

/-- The slot `proc_create` hands out. -/
def freeSlot (procs : ProcId → Option Slot) : Option ProcId :=
  (List.finRange schedMaxProcs).tail.find? fun i => (procs i).isNone

/-- A process comes to its end: its slot stays until it is collected. -/
def System.bury (s : System) (p : ProcId) : System :=
  { s with procs := update s.procs p ((s.procs p).map ({ · with dead := true })) }

/-- `proc_kill(pid)`. -/
def procKill (s : System) (pid : ℕ) : System :=
  match procByPid s.procs pid with
  | none => s
  | some p => if p.val = 0 then s else s.bury p

/-- A process is made by `p`, in its thread group or in one of its own. -/
def procCreate (s : System) (p : ProcId) (thread : Bool) : System :=
  match freeSlot s.procs with
  | none => s
  | some j =>
    let tgid := if thread then ((s.procs p).map (·.tgid)).getD 0 else j.val
    { s with
      procs := update s.procs j (some ⟨s.next, tgid, false⟩)
      next := s.next + 1 }

/-! ## Writing to `/sys` -/

/-- The bytes of a text. -/
def ascii (cs : List Char) : List Byte := cs.map fun c => BitVec.ofNat 8 c.toNat

/-- `*s >= '0' && *s <= '9'`. -/
def isDigit (c : Byte) : Bool := 0x30#8 ≤ c && c ≤ 0x39#8

def parseDigits (v : ℕ) : List Byte → ℕ × List Byte
  | [] => (v, [])
  | c :: s =>
    if isDigit c then parseDigits ((v * 10 + (c.toNat - 0x30)) % 2 ^ 64) s else (v, c :: s)

/-- `parse_u64`: the number and what follows it; without a digit it is `(uint64_t)-1`. -/
def parseU64 (s : List Byte) : ℕ × List Byte :=
  if (s.head?.any isDigit) then parseDigits 0 s else (2 ^ 64 - 1, s)

/-- `path_after`. -/
def pathAfter (path pfx : List Byte) : Option (List Byte) :=
  if path.take pfx.length = pfx then some (path.drop pfx.length) else none

/-- `trim`. -/
def trim (s : List Byte) : List Byte :=
  (s.reverse.dropWhile fun c => c == 0x0a#8 || c == 0x0d#8 || c == 0x20#8).reverse

/-- What `apply_write` does. -/
inductive Applied where
  | refused
  /-- A line in the log, the position of the pointer, or a priority. -/
  | accepted
  /-- `proc_kill(pid)`. -/
  | kill (pid : ℕ)
  deriving DecidableEq

/-- The value that a priority is given as. -/
def validPrio (val : List Byte) : Bool :=
  val == ascii ['h', 'i', 'g', 'h'] || val == ascii ['n', 'o', 'r', 'm', 'a', 'l'] ||
    val == ascii ['l', 'o', 'w'] || (parseU64 val).1 ≤ 2

/-- `apply_write(path, val)`; `found` is whether `proc_by_pid` finds a process. -/
def applyWrite (found : ℕ → Bool) (path val : List Byte) : Applied :=
  if path = ascii ['/', 's', 'y', 's', '/', 'k', 'e', 'r', 'n', 'e', 'l', '/', 'l', 'o', 'g'] then
    .accepted
  else if path = ascii ['/', 's', 'y', 's', '/', 'i', 'n', 'p', 'u', 't', '/', 'm', 'o', 'u', 's',
      'e'] then
    let x := parseU64 val
    let y := parseU64 (x.2.dropWhile fun c => c == 0x20#8 || c == 0x09#8)
    if x.1 = 2 ^ 64 - 1 ∨ y.1 = 2 ^ 64 - 1 then .refused else .accepted
  else
    match pathAfter path (ascii ['/', 's', 'y', 's', '/', 'p', 'r', 'o', 'c', '/']) with
    | none | some [] => .refused
    | some rest =>
      let pid := parseU64 rest
      if pid.1 = 2 ^ 64 - 1 ∨ pid.2.head? ≠ some slash ∨ !found pid.1 then .refused
      else if pid.2.tail = ascii ['k', 'i', 'l', 'l'] then .kill pid.1
      else if pid.2.tail = ascii ['p', 'r', 'i', 'o'] ∧ validPrio val then .accepted
      else .refused

/-! ## The `/sys` calls -/

def sysfsOwns (path : List Byte) : Bool :=
  path.take 4 == ascii ['/', 's', 'y', 's'] && (path.length == 4 || path[4]? == some slash)

/-- `(int)fd`.  The numbers from `2 ^ 31` on stand for the negative ones, which are out of
range in either file system. -/
def number (fd : ℕ) : ℕ := fd % 2 ^ 32

/-- `sysfs_owns_fd((int)fd)`. -/
def sysfsOwnsFd (fd : ℕ) : Bool :=
  decide (sysfsFdBase ≤ number fd ∧ number fd < sysfsFdBase + sysfsMaxFds)

def System.setSys (s : System) (i : ℕ) (f : SysFd) : System :=
  { s with sys := update s.sys i f }

/-- `sysfs_open`; `view` is what `dir_for` and `render_file` find: whether it is a directory,
and its text. -/
def sysfsOpen (s : System) (p : ProcId) (path : List Byte) (view : Option (Bool × List Byte)) :
    ℤ × System :=
  match (List.range sysfsMaxFds).find? fun i => !(s.sys i).used with
  | none => (-1, s)
  | some i =>
    let f : SysFd :=
      { used := true, isDir := false, pid := p.val, offset := 0, path := path.take 127,
        data := [] }
    match view with
    | none => (-1, s.setSys i { f with used := false })
    | some (isDir, text) =>
      let data := text.take (sysfsBufMax - 1)
      (sysfsFdBase + i, s.setSys i { f with isDir := isDir, data := data })

/-- Any process may close any descriptor. -/
def sysfsClose (s : System) (i : ℕ) : System := s.setSys i { s.sys i with used := false }

def sysfsRead (s : System) (i count : ℕ) : ℤ × List Byte × System :=
  let f := s.sys i
  if !f.used then (-1, [], s)
  else
    let got := (f.data.drop f.offset).take count
    (toInt got.length, got, s.setSys i { f with offset := (f.offset + got.length) % 2 ^ 32 })

def sysfsWrite (s : System) (i : ℕ) (data : List Byte) : ℤ × System :=
  let f := s.sys i
  if !f.used || f.isDir then (-1, s)
  else
    let val := trim ((data.take 255).takeWhile (· ≠ 0#8))
    match applyWrite (fun pid => (procByPid s.procs pid).isSome) f.path val with
    | .refused => (-1, s)
    | .accepted => (toInt data.length, s)
    | .kill pid => (toInt data.length, procKill s pid)

def sysfsLseek (s : System) (i : ℕ) (offset : ℤ) (whence : ℕ) : ℤ × System :=
  let f := s.sys i
  if !f.used then (-1, s)
  else
    let base : ℤ := match whence with
      | 1 => toInt f.offset
      | 2 => f.data.length
      | _ => 0
    let no := (base + offset).bmod (2 ^ 32)
    if no < 0 then (-1, s) else (no, s.setSys i { f with offset := no.toNat })

/-! ## The system calls -/

/-- Where a number leads. -/
inductive Route where
  | sysfs (i : ℕ)
  | pipe
  | xfs
  deriving DecidableEq

/-- The tests of `sys_read_impl`, `sys_write_impl` and `sys_close_impl`. -/
def route (fd : ℕ) : Route :=
  if sysfsOwnsFd fd then .sysfs (number fd - sysfsFdBase)
  else if 64 ≤ fd then .pipe
  else .xfs

/-- Calls, and what happens to processes. -/
inductive Op where
  | open (p : ProcId) (path : List Byte) (flags : ℕ) (view : Option (Bool × List Byte))
  | read (p : ProcId) (fd count : ℕ)
  | write (p : ProcId) (fd : ℕ) (data : List Byte)
  | close (p : ProcId) (fd : ℕ)
  | lseek (p : ProcId) (fd : ℕ) (offset : ℤ) (whence : ℕ)
  /-- A call of XFS that neither opens, closes nor moves a descriptor. -/
  | other (p : ProcId) (call : Xfs.Call)
  /-- `fork`, `clone` or spawn. -/
  | create (p : ProcId) (thread : Bool)
  | exit (p : ProcId)
  /-- The slot of a dead process is given back. -/
  | reap (j : ProcId)

/-- The slot of the process that makes the call. -/
def Op.by : Op → Option ProcId
  | .open p .. | .read p .. | .write p .. | .close p _ | .lseek p .. | .other p _ | .create p _
  | .exit p => some p
  | .reap _ => none

/-- `call` is one of the calls that `Op.other` stands for, made by the process `pid`. -/
def OtherCall (pid : ℕ) : Xfs.Call → Prop
  | .mkdir _ | .stat _ | .unlink _ | .exists _ => True
  | .readdir q _ _ | .fstat q _ | .ftruncate q _ _ => q = pid
  | .open .. | .close _ | .read .. | .write .. | .lseek .. => False

/-- When an operation can be taken. -/
def Enabled (s : System) : Op → Prop
  | .read p fd _ | .write p fd _ | .close p fd =>
    (s.caller p).isSome ∧ route fd ≠ .pipe
  | .other p call => (s.caller p).isSome ∧ OtherCall p.val call
  | .open p .. | .lseek p .. | .create p _ | .exit p => (s.caller p).isSome
  | .reap j => (s.procs j).any (·.dead)

instance (pid : ℕ) : DecidablePred (OtherCall pid)
  | .mkdir .. | .stat .. | .unlink .. | .exists .. => isTrue trivial
  | .readdir .. | .fstat .. | .ftruncate .. => by
      unfold OtherCall
      infer_instance
  | .open .. | .close .. | .read .. | .write .. | .lseek .. => isFalse id

instance (s : System) : DecidablePred (Enabled s)
  | .read .. | .write .. | .close .. | .other .. | .open .. | .lseek .. | .create .. | .exit ..
  | .reap .. => by
      unfold Enabled
      infer_instance

/-- `sys_open_impl` after `path_abs`. -/
def sysOpen (s : System) (p : ProcId) (path : List Byte) (flags : ℕ)
    (view : Option (Bool × List Byte)) : ℤ × System :=
  let r : ℤ × System :=
    if sysfsOwns path then sysfsOpen s p path view
    else
      let r := Xfs.xfsOpen s.fs p.val path flags
      (r.1, { s with fs := r.2 })
  if r.1 < 0 then r
  else (r.1, { r.2 with
    opener := update r.2.opener r.1.toNat ((s.caller p).getD 0) })

def sysRead (s : System) (p : ProcId) (fd count : ℕ) : ℤ × List Byte × System :=
  match route fd with
  | .sysfs i => sysfsRead s i count
  | _ =>
    let r := Xfs.xfsRead s.fs p.val (number fd) count
    (r.1, r.2.1, { s with fs := r.2.2 })

def sysWrite (s : System) (p : ProcId) (fd : ℕ) (data : List Byte) : ℤ × System :=
  match route fd with
  | .sysfs i => sysfsWrite s i data
  | _ =>
    let r := Xfs.xfsWrite s.fs p.val (number fd) data
    (r.1, { s with fs := r.2 })

def sysClose (s : System) (fd : ℕ) : System :=
  match route fd with
  | .sysfs i => sysfsClose s i
  | _ => { s with fs := Xfs.xfsClose s.fs (number fd) }

def sysLseek (s : System) (p : ProcId) (fd : ℕ) (offset : ℤ) (whence : ℕ) : ℤ × System :=
  if sysfsOwnsFd fd then sysfsLseek s (number fd - sysfsFdBase) offset whence
  else
    let r := Xfs.xfsLseek s.fs p.val (number fd) offset whence
    (r.1, { s with fs := r.2 })

/-- An operation and its reply. -/
def exec (s : System) : Op → Reply × System
  | .open p path flags view => let r := sysOpen s p path flags view; (.code r.1, r.2)
  | .read p fd count => let r := sysRead s p fd count; (.bytes r.1 r.2.1, r.2.2)
  | .write p fd data => let r := sysWrite s p fd data; (.code r.1, r.2)
  | .close _ fd => (.code 0, sysClose s fd)
  | .lseek p fd offset whence => let r := sysLseek s p fd offset whence; (.code r.1, r.2)
  | .other _ call => let r := Xfs.exec s.fs call; (r.1, { s with fs := r.2 })
  | .create p thread => (.code 0, procCreate s p thread)
  | .exit p => (.code 0, s.bury p)
  | .reap j => (.code 0, { s with procs := update s.procs j none })

/-- One step of the system. -/
def Step (s : System) (op : Op) (t : System) : Prop := Enabled s op ∧ t = (exec s op).2

/-- Nothing is open, and the processes are different ones. -/
structure Start (s : System) : Prop where
  fds : ∀ i, (s.fs.fds i).used = false
  sys : ∀ i, (s.sys i).used = false
  task : ∀ i j v w, s.procs i = some v → s.procs j = some w → v.task = w.task → i = j
  next : ∀ i v, s.procs i = some v → v.task < s.next

end Xos.Files
