import Xos.Lib.Bytes
import Xos.Mem.Tables

/-!
# The calls that change address spaces

The memory system calls of `kernel/arch/x86_64/syscall.c` and `kernel/bsd/syscalls.c`, the page
faults of `kernel/memory/fault.c`, and fork, exec, spawn and exit as far as they concern memory
(`kernel/proc/proc.c`, `kernel/sched/sched.c`, `kernel/elf/elf.c`).  A call is one step: what two
CPUs do to one address space at a time is not in question here.

* **pages** — `sysMemMap`, `sysMemAlloc`, `sysMemShare`, `sysMemFree`;
* **ranges** — `sysBrk` and `sysMmap`; both, and the loaders, take frame after frame from the
  manager and map them, which is `mapRun`;
* **processes** — `fork`, `exec`, `spawn` and `exit`;
* **faults** — `handleCow` and `growUserStack`.

A slot of the process table is named by its number, which is the process's pid.  Slot 0 is the
kernel's own process.  Whether the kernel heap has room for a kernel stack is not decided here
but given with the call.
-/

namespace Xos.Mem

open Function

/-- `(uint64_t)-1`. -/
def failed : ℕ := 2 ^ 64 - 1

/-- `SCHED_MAX_PROCS`. -/
def maxProcs : ℕ := 256

/-- The number of entries of `g_proc_brk`. -/
def brkSlots : ℕ := 32

/-- The check that the calls make of a user address. -/
def kernelBase : ℕ := 0xffff800000000000

def userHeapBase : ℕ := 0x20000000000
def userHeapMax : ℕ := 0x30000000000
def userStackTop : ℕ := 0x7FFF00000000
def userStackInit : ℕ := 64 * 1024
def userStackMax : ℕ := 8 * 1024 * 1024
def userStackLow : ℕ := userStackTop - userStackMax

/-- `USER_SIGRETURN_PAGE`. -/
def sigreturnPage : ℕ := 0x7FFFF0000000

/-- The machine as the calls see it. -/
structure Sys extends Ram where
  /-- The PML4 of each slot that has an address space. -/
  space : ℕ → Option ℕ
  /-- The slot may be given to a new process: `PROC_DEAD` and reaped. -/
  free : ℕ → Bool
  /-- `g_proc_brk`. -/
  brk : ℕ → ℕ
  /-- `anon_base`. -/
  anonBase : ℕ

namespace Sys

variable (s : Sys)

/-- Store back the memory. -/
def setRam (m : Ram) : Sys := { s with toRam := m }

/-- The PML4 of a process, the kernel's included. -/
def rootOf (pid : ℕ) : Option ℕ := if pid = 0 then some s.kernel else s.space pid

end Sys

/-- The flags that a process may choose for a page of its own. -/
def userFlags (flags : Word) : Word := (flags &&& (vmmRW ||| vmmWT ||| vmmCD)) ||| vmmU ||| vmmP

/-! ## Pages -/

/-- `sys_mem_map`: the frame is the caller's choice, and no reference is taken. -/
def sysMemMap (s : Sys) (pid vaddr paddr : ℕ) (flags : Word) : ℕ × Sys :=
  if kernelBase ≤ vaddr then (failed, s)
  else match s.space pid with
    | none => (failed, s)
    | some root =>
      match s.mapPage root vaddr (paddr / 4096) (userFlags flags) with
      | (false, m) => (failed, s.setRam m)
      | (true, m) => (0, s.setRam m)

/-- `sys_mem_alloc`: the frame is given to the process as it is. -/
def sysMemAlloc (s : Sys) (pid vaddr : ℕ) (flags : Word) : ℕ × Sys :=
  if kernelBase ≤ vaddr then (failed, s)
  else match s.alloc with
    | (0, m) => (failed, s.setRam m)
    | (frame, m) =>
      match s.space pid with
      | none => (failed, s.setRam (m.unref frame))
      | some root =>
        match m.mapPage root vaddr frame (userFlags flags) with
        | (false, m) => (failed, s.setRam (m.unref frame))
        | (true, m) => (0, s.setRam m)

/-- `sys_mem_share`. -/
def sysMemShare (s : Sys) (pid vaddr target targetVaddr : ℕ) (flags : Word) : ℕ × Sys :=
  if vaddr % 4096 ≠ 0 ∨ targetVaddr % 4096 ≠ 0 ∨ kernelBase ≤ targetVaddr then (failed, s)
  else match s.space pid with
    | none => (failed, s)
    | some root =>
      let paddr := s.virtToPhys root vaddr
      if paddr = 0 then (failed, s)
      else match s.rootOf target with
        | none => (failed, s)
        | some dst =>
          match (s.ref (paddr / 4096)).mapPage dst targetVaddr (paddr / 4096)
            (userFlags flags ||| vmmSHARED) with
          | (false, m) => (failed, s.setRam (m.unref (paddr / 4096)))
          | (true, m) =>
            match m.pteLookup root vaddr with
            | none => (0, s.setRam m)
            | some pt =>
              (0, s.setRam
                (m.setWord pt (idx 0 vaddr) (m.mem pt (idx 0 vaddr) ||| vmmSHARED)))

/-- `sys_mem_free`. -/
def sysMemFree (s : Sys) (pid vaddr : ℕ) : ℕ × Sys :=
  match s.space pid with
  | none => (failed, s)
  | some root =>
    let paddr := s.virtToPhys root vaddr
    if paddr = 0 then (failed, s)
    else (0, s.setRam ((s.unmapPage root vaddr).unref (paddr / 4096)))

/-! ## Ranges -/

/-- Store into a frame, if there is something to store. -/
def Ram.prepare (m : Ram) (f : ℕ) : Option (ℕ → Word) → Ram
  | none => m
  | some c => m.fill f c

/-- Take a frame for every address of the list and map it.  `content` says what is stored into
the frame first, if anything; a `strict` run stops when a mapping fails. -/
def mapRun (root : ℕ) (flags : Word) (content : ℕ → Option (ℕ → Word)) (strict : Bool) :
    List ℕ → Ram → Bool × Ram
  | [], m => (true, m)
  | va :: vas, m =>
    match m.alloc with
    | (0, m) => (false, m)
    | (f, m) =>
      match (m.prepare f (content va)).mapPage root va f flags with
      | (ok, m) => if strict && !ok then (false, m) else mapRun root flags content strict vas m

/-- The page-aligned addresses from `start` (included) to `stop` (excluded). -/
def pagesFrom (start stop : ℕ) : List ℕ :=
  (List.range ((stop - start) / 4096)).map fun i => start + i * 4096

/-- `(a + PAGE_SIZE - 1) & ~(PAGE_SIZE - 1)`. -/
def pageUp (a : ℕ) : ℕ := (a + 4095) / 4096 * 4096

/-- `sys_brk`. -/
def sysBrk (s : Sys) (pid addr : ℕ) : ℕ × Sys :=
  match s.space pid with
  | none => (failed, s)
  | some root =>
    if brkSlots ≤ pid then (failed, s)
    else
      let s := if s.brk pid = 0 then { s with brk := update s.brk pid userHeapBase }
        else s
      let old := s.brk pid
      if addr = 0 then (old, s)
      else if addr < userHeapBase ∨ userHeapMax ≤ addr then (failed, s)
      else if pageUp old < pageUp addr then
        match mapRun root (vmmU ||| vmmRW) (fun _ => none) false
          (pagesFrom (pageUp old) (pageUp addr)) s.toRam with
        | (false, m) => (old, s.setRam m)
        | (true, m) =>
          (addr, { s.setRam m with brk := update s.brk pid addr })
      else
        -- pages that are no longer needed are unmapped, but their frames stay taken
        let m := (pagesFrom (pageUp addr) (pageUp old)).foldl
          (fun m va => m.unmapPage root va) s.toRam
        (addr, { s.setRam m with brk := update s.brk pid addr })

/-- The flags of `sys_mmap`. -/
def mmapFlags (prot : ℕ) : Word :=
  (if prot % 2 = 1 then vmmU else 0#64) |||
    (if prot / 2 % 2 = 1 then vmmRW ||| vmmU else 0#64) |||
    (if prot / 4 % 2 = 1 then vmmU else 0#64)

/-- The pages that `sys_mmap` goes through.  Every round takes a frame, so the loop is over
after one round more than there are frames. -/
def mmapVas (total vaddr length : ℕ) : List ℕ :=
  (List.range (min ((length + 4095) % 2 ^ 64 / 4096) (total + 1))).map fun i =>
    (vaddr + i * 4096) % 2 ^ 64

/-- `sys_mmap`. -/
def sysMmap (s : Sys) (pid addr length prot : ℕ) : ℕ × Sys :=
  let vaddr := if addr = 0 then s.anonBase else addr
  let s := if addr = 0 then
    { s with anonBase := (s.anonBase + (length + 4095) % 2 ^ 64 / 4096 * 4096) % 2 ^ 64 } else s
  match s.space pid with
  | none => (failed, s)
  | some root =>
    match mapRun root (mmapFlags prot ||| vmmP) (fun _ => none) true
      (mmapVas s.pmm.total vaddr length) s.toRam with
    | (false, m) => (failed, s.setRam m)
    | (true, m) => (vaddr, s.setRam m)

/-! ## Loading a program -/

/-- A `PT_LOAD` program header. -/
structure Segment where
  vaddr : ℕ
  offset : ℕ
  filesz : ℕ
  memsz : ℕ
  readable : Bool
  writable : Bool
  executable : Bool

/-- An ELF file: whether `elf_validate` accepts it, its loadable segments and its bytes. -/
structure Elf where
  valid : Bool
  len : ℕ
  segments : List Segment
  data : Lib.Bytes

namespace Segment

variable (g : Segment)

def flags : Word :=
  (if g.readable then vmmU else 0#64) ||| (if g.writable then vmmU ||| vmmRW else 0#64) |||
    (if g.executable then vmmU else 0#64)

/-- `offset + filesz`. -/
def fileEnd : ℕ := (g.offset + g.filesz) % 2 ^ 64

/-- The addresses of the segment's pages.  As in `mmapVas`, memory is out before the loop can
run longer than this. -/
def vas (total : ℕ) : List ℕ :=
  ((List.range (total + 1)).map fun i => (g.vaddr / 4096 * 4096 + i * 4096) % 2 ^ 64).takeWhile
    fun va => va < (g.vaddr + g.memsz) % 2 ^ 64

/-- What is stored into the page at `va`: zeros, with the file's bytes over them. -/
def page (data : Lib.Bytes) (va : ℕ) : ℕ → Word :=
  let src := (g.offset + va + (2 ^ 64 - g.vaddr)) % 2 ^ 64
  let count := if g.fileEnd ≤ src then 0
    else if g.fileEnd < (src + 4096) % 2 ^ 64 then g.fileEnd - src else 4096
  fun j => BitVec.ofNat 64
    (Lib.readLE (fun k => if k < count then data (src + k) else 0#8) (8 * j) 8)

end Segment

/-- The loop of `elf_load` over the segments. -/
def loadSegments (elf : Elf) (root : ℕ) : List Segment → Ram → Bool × Ram
  | [], m => (true, m)
  | g :: gs, m =>
    if elf.len < g.fileEnd then (false, m)
    else match mapRun root g.flags (fun va => some (g.page elf.data va)) false
      (g.vas m.pmm.total) m with
      | (false, m) => (false, m)
      | (true, m) => loadSegments elf root gs m

/-- `elf_load`. -/
def elfLoad (elf : Elf) (root : ℕ) (m : Ram) : Bool × Ram :=
  if elf.valid then loadSegments elf root elf.segments m else (false, m)

/-- The words of the signal trampoline: `mov eax, SYS_SIGRETURN; syscall; ud2` and `nop`s; `nr` is
the number of the call. -/
def trampoline (nr : BitVec 32) : ℕ → Word := fun j =>
  if j = 0 then 0x0f050f#64 <<< 40 ||| nr.setWidth 64 <<< 8 ||| 0xb8#64
  else if j = 1 then 0x909090909090900b#64
  else 0x9090909090909090#64

/-- `proc_map_sigreturn_trampoline`; what it returns is not looked at. -/
def mapTrampoline (nr : BitVec 32) (root : ℕ) (m : Ram) : Ram :=
  (mapRun root (vmmU ||| vmmRW) (fun _ => some (trampoline nr)) false [sigreturnPage] m).2

/-- One store into the new stack through the kernel's own mapping: the address, and the bits of
the word there that are replaced. -/
structure Patch where
  va : ℕ
  mask : Word
  word : Word

/-- `USTACK_WRITE`: it stops at the first address that has no frame. -/
def writeBlock (root : ℕ) : List Patch → Ram → Ram
  | [], m => m
  | x :: xs, m =>
    let pa := m.virtToPhys root x.va
    if pa = 0 then m
    else
      let old := m.mem (pa / 4096) (pa % 4096 / 8)
      writeBlock root xs
        (m.setWord (pa / 4096) (pa % 4096 / 8) ((old &&& ~~~x.mask) ||| (x.word &&& x.mask)))

/-- The pages of the initial stack. -/
def stackVas : List ℕ := pagesFrom (userStackTop - userStackInit) userStackTop

/-- A program with its arguments: `args` are the stores that lay them out on the stack. -/
structure Program where
  elf : Elf
  /-- `SYS_SIGRETURN`. -/
  sigreturn : BitVec 32
  args : List (List Patch)

/-- The image, the stack and the trampoline of a new address space. -/
def loadImage (prog : Program) (root : ℕ) (m : Ram) : Bool × Ram :=
  match elfLoad prog.elf root m with
  | (false, m) => (false, m)
  | (true, m) =>
    match mapRun root (vmmU ||| vmmRW) (fun _ => none) false stackVas m with
    | (false, m) => (false, m)
    | (true, m) => (true, mapTrampoline prog.sigreturn root m)

/-! ## Processes -/

/-- Give up an address space: `vmm_destroy_user` and `pmm_free_frame` of the root. -/
def Ram.dropSpace (m : Ram) (root : ℕ) : Ram := (m.destroyUser root).unref root

/-- The slot that `proc_create` finds. -/
def Sys.freeSlot (s : Sys) : Option ℕ := (List.range maxProcs).find? fun i => 1 ≤ i && s.free i

/-- A new process in slot `i`. -/
def Sys.occupy (s : Sys) (i root : ℕ) : Sys :=
  { s with space := update s.space i (some root), free := update s.free i false }

/-- `proc_fork`: the child's pid, 0 on failure; `kstack` is whether there is room for its kernel
stack. -/
def fork (s : Sys) (pid : ℕ) (kstack : Bool) : ℕ × Sys :=
  match s.space pid with
  | none => (0, s)
  | some root =>
    match s.cloneUser root with
    | (0, m) => (0, s.setRam m)
    | (child, m) =>
      if kstack then
        match s.freeSlot with
        | none => (0, s.setRam (m.dropSpace child))
        | some i => (i, (s.setRam m).occupy i child)
      else (0, s.setRam (m.dropSpace child))

/-- `sys_exec`: the old space goes when the new one is complete. -/
def exec (s : Sys) (pid : ℕ) (prog : Program) : ℕ × Sys :=
  let s := if pid < brkSlots then { s with brk := update s.brk pid 0 } else s
  match s.space pid with
  | none => (failed, s)
  | some old =>
    if prog.elf.valid then
      match s.createPml4 with
      | (0, m) => (failed, s.setRam m)
      | (root, m) =>
        match loadImage prog root m with
        | (false, m) => (failed, s.setRam (m.dropSpace root))
        | (true, m) =>
          let m := prog.args.foldl (fun m block => writeBlock root block m) m
          (0, { s.setRam (m.dropSpace old) with
            space := update s.space pid (some root) })
    else (failed, s)

/-- `sys_proc_spawn`: the new pid, 0 on failure.  What a failed call has taken is not given
back. -/
def spawn (s : Sys) (prog : Program) (kstack : Bool) : ℕ × Sys :=
  if prog.elf.valid then
    match s.createPml4 with
    | (0, m) => (0, s.setRam m)
    | (root, m) =>
      match loadImage prog root m with
      | (false, m) => (0, s.setRam m)
      | (true, m) =>
        if kstack then
          match s.freeSlot with
          | none => (0, s.setRam m)
          | some i => (i, (s.setRam m).occupy i root)
        else (0, s.setRam m)
  else (0, s)

/-- `sys_exit`, or the exit of a process that was killed (then `g_proc_brk` stays). -/
def exit (s : Sys) (pid : ℕ) (byCall : Bool) : ℕ × Sys :=
  let s := if byCall ∧ pid < brkSlots then { s with brk := update s.brk pid 0 } else s
  match s.space pid with
  | none => (0, s)
  | some root =>
    (0, { s.setRam (s.toRam.dropSpace root) with space := update s.space pid none })

/-- `proc_waitpid` reaps a process without an address space. -/
def reap (s : Sys) (pid : ℕ) : ℕ × Sys :=
  match s.space pid with
  | none => (0, { s with free := update s.free pid true })
  | some _ => (failed, s)

/-! ## Faults -/

/-- The entry of a copy-on-write page whose last reference it is. -/
def cowSole (pte : Word) : Word := (pte &&& ~~~vmmCOW) ||| vmmRW

/-- The entry of a page that was copied to the frame `f`. -/
def cowEntry (f : ℕ) (pte : Word) : Word :=
  mkEntry f ((pte &&& ~~~physMask &&& ~~~vmmCOW) ||| vmmRW)

/-- The copying half of `handle_cow`: the page at entry `i` of the page table `pt` gets the
frame `f` of its own. -/
def Ram.splitPage (m : Ram) (pt i f : ℕ) : Ram :=
  let pte := m.mem pt i
  ((m.fill f (m.mem (frameOf pte))).setWord pt i (cowEntry f pte)).unref (frameOf pte)

/-- `handle_cow`: whether the fault was resolved. -/
def handleCow (m : Ram) (root cr2 : ℕ) (present write : Bool) : Bool × Ram :=
  if present && write then
    match m.pteLookup root (cr2 / 4096 * 4096) with
    | none => (false, m)
    | some pt =>
      let i := idx 0 (cr2 / 4096 * 4096)
      let pte := m.mem pt i
      if has pte vmmP && has pte vmmCOW then
        if m.pmm.refcount (frameOf pte) = 1 then (true, m.setWord pt i (cowSole pte))
        else match m.alloc with
          | (0, m) => (false, m)
          | (f, m) => (true, m.splitPage pt i f)
      else (false, m)
  else (false, m)

/-- `grow_user_stack`. -/
def growUserStack (m : Ram) (root cr2 : ℕ) (present : Bool) : Bool × Ram :=
  if present || decide (userStackTop ≤ cr2) || decide (cr2 < userStackLow) then (false, m)
  else match m.alloc with
    | (0, m) => (false, m)
    | (f, m) =>
      match (m.fill f fun _ => 0#64).mapPage root (cr2 / 4096 * 4096) f
        (vmmRW ||| vmmU ||| vmmNX) with
      | (false, m) => (false, m.unref f)
      | (true, m) => (true, m)

/-- `vmm_handle_page_fault` of a user-mode fault without a reserved bit. -/
def handlePageFault (m : Ram) (root cr2 : ℕ) (present write : Bool) : Bool × Ram :=
  match handleCow m root cr2 present write with
  | (true, m) => (true, m)
  | (false, m) => growUserStack m root cr2 present

/-- A page fault of a process; the result says whether it goes on. -/
def fault (s : Sys) (pid cr2 : ℕ) (present write : Bool) : ℕ × Sys :=
  match s.space pid with
  | none => (0, s)
  | some root =>
    match handlePageFault s.toRam root cr2 present write with
    | (ok, m) => (if ok then 1 else 0, s.setRam m)

/-! ## One step -/

/-- What a process may do. -/
inductive Call where
  | memMap (vaddr paddr : ℕ) (flags : Word)
  | memAlloc (vaddr : ℕ) (flags : Word)
  | memShare (vaddr target targetVaddr : ℕ) (flags : Word)
  | memFree (vaddr : ℕ)
  | brk (addr : ℕ)
  | mmap (addr length prot : ℕ)
  | fork (kstack : Bool)
  | exec (prog : Program)
  | spawn (prog : Program) (kstack : Bool)
  | exit (byCall : Bool)
  | reap
  | fault (cr2 : ℕ) (present write : Bool)

/-- The effect of a call of the process `pid` (for `reap`, on the process `pid`). -/
def call (s : Sys) (pid : ℕ) : Call → ℕ × Sys
  | .memMap vaddr paddr flags => sysMemMap s pid vaddr paddr flags
  | .memAlloc vaddr flags => sysMemAlloc s pid vaddr flags
  | .memShare vaddr target targetVaddr flags => sysMemShare s pid vaddr target targetVaddr flags
  | .memFree vaddr => sysMemFree s pid vaddr
  | .brk addr => sysBrk s pid addr
  | .mmap addr length prot => sysMmap s pid addr length prot
  | .fork kstack => fork s pid kstack
  | .exec prog => exec s pid prog
  | .spawn prog kstack => spawn s prog kstack
  | .exit byCall => exit s pid byCall
  | .reap => reap s pid
  | .fault cr2 present write => fault s pid cr2 present write

/-- One step: a process makes a call. -/
def Step (s : Sys) (a : ℕ × Call) (t : Sys) : Prop := (call s a.1 a.2).2 = t

end Xos.Mem
