import Xos.Mem.ElfFile
import Xos.Mem.Exec
import Xos.Signal.Handlers
import Xos.Xfs.Ownership

/-!
# The exec call

`sys_exec_impl` and `proc_exec` as a whole: the file is read through a descriptor of its own, its
header decides what is mapped where, the arguments are laid out on the new stack, and the process
gets a name and a priority.  Everything that can fail comes before the old address space goes.

* **All or nothing** — `exec_all_or_nothing`: after a failed call, if no page of the program was
  mapped twice and no mapping failed, a process is what it was exactly if it had no heap; and after a
  call that succeeds a process that caught no signals has nothing of its old image.
* The break is reset before anything has been tried: `failed_exec_drops_break`.
* The dispositions are nobody's business here (`sysExec_sigs`): a handler of the old image is
  entered in the new one.
-/

namespace Xos.Exec

open Xos.Lib
open Xos.Xfs (Fs slash xfsOpen xfsClose xfsFstat xfsRead xfsMaxFds)
open Xos.ElfFile (field phdrAt phoff phentsize phnum elfValidate)
open Xos.Mem (Elf Segment Program Patch failed userStackTop)

/-! ## The file -/

/-- The bytes of a text. -/
def ascii (cs : List Char) : List Byte := cs.map fun c => BitVec.ofNat 8 c.toNat

def binDir : List Byte := ascii ['/', 'b', 'i', 'n', '/']

def cmdsPath : List Byte := binDir ++ ascii ['c', 'm', 'd', 's']

/-- The file that is opened, and under which path: an applet that has no file of its own is the
multicall binary. -/
def openImage (x : Fs) (pid : ℕ) (path : List Byte) : ℤ × List Byte × Fs :=
  let r := xfsOpen x pid path 0
  if r.1 < 0 ∧ binDir <+: path ∧ path ≠ cmdsPath then
    let r := xfsOpen r.2 pid cmdsPath 0
    if 0 ≤ r.1 then (r.1, cmdsPath, r.2) else (r.1, path, r.2)
  else (r.1, path, r.2)

/-- The loop that reads the file; every round but the last reads something. -/
def readAll (pid : ℕ) (fd : ℤ) (size : ℕ) : ℕ → Fs → List Byte → List Byte × Fs
  | 0, x, acc => (acc, x)
  | fuel + 1, x, acc =>
    if size ≤ acc.length then (acc, x)
    else
      let r := xfsRead x pid fd (size - acc.length)
      if r.1 ≤ 0 then (acc, r.2.2) else readAll pid fd size fuel r.2.2 (acc ++ r.2.1)

/-- The whole file, with the path it was found under.  `room` says whether `kmalloc` has the
buffer. -/
def readImage (x : Fs) (pid : ℕ) (path : List Byte) (room : Bool) :
    Option (List Byte × List Byte) × Fs :=
  let o := openImage x pid path
  let fd := o.1
  let x := o.2.2
  if fd < 0 then (none, x)
  else match (xfsFstat x pid fd).2 with
    | none => (none, xfsClose x fd)
    | some st =>
      if st.size = 0 ∨ 4 * 1024 * 1024 < st.size then (none, xfsClose x fd)
      else if room then
        let r := readAll pid fd st.size st.size x []
        if r.1.length = st.size then (some (o.2.1, r.1), xfsClose r.2 fd)
        else (none, xfsClose r.2 fd)
      else (none, xfsClose x fd)

/-! ## The header -/

/-- The program header at `off`, if it is a `PT_LOAD`. -/
def segmentAt (data : Bytes) (off : ℕ) : Option Segment :=
  if field data off 4 = 1 then
    let ph := phdrAt data off
    let flags := field data (off + 4) 4
    some {
      vaddr := ph.vaddr
      offset := ph.offset
      filesz := ph.filesz
      memsz := ph.memsz
      readable := flags.testBit 2
      writable := flags.testBit 1
      executable := flags.testBit 0 }
  else none

/-- The file as `elf_load` sees it.  `beyond` is what lies behind the buffer: a `phoff` close to
`2 ^ 64` passes the check of the header. -/
def parseElf (file : List Byte) (beyond : Bytes) : Elf :=
  let data : Bytes := fun k => if h : k < file.length then file[k] else beyond k
  { valid := elfValidate data file.length
    len := file.length
    segments := (List.range (phnum data)).filterMap fun i =>
      segmentAt data ((phoff data + i * phentsize data) % 2 ^ 64)
    data := data }

/-! ## The arguments -/

/-- `sp -= n`. -/
def down (sp n : ℕ) : ℕ := (sp + (2 ^ 64 - n % 2 ^ 64)) % 2 ^ 64

/-- One byte. -/
def bytePatch (va : ℕ) (b : Byte) : Patch where
  va := va
  mask := 0xff#64 <<< (va % 8 * 8)
  word := b.setWidth 64 <<< (va % 8 * 8)

/-- A string with its NUL. -/
def stringAt (va : ℕ) (s : List Byte) : List Patch :=
  (s ++ [0#8]).mapIdx fun i b => bytePatch ((va + i) % 2 ^ 64) b

/-- Words, at an address that is a multiple of eight. -/
def wordsAt (va : ℕ) (ws : List ℕ) : List Patch :=
  ws.mapIdx fun i w => ⟨(va + 8 * i) % 2 ^ 64, BitVec.allOnes 64, BitVec.ofNat 64 w⟩

/-- The strings, from the last to the first: the stack pointer, their addresses, and the
stores. -/
def pushStrings (argv : List (List Byte)) : ℕ × List ℕ × List (List Patch) :=
  argv.foldr (fun s r => (down r.1 (s.length + 1), down r.1 (s.length + 1) :: r.2.1,
    r.2.2 ++ [stringAt (down r.1 (s.length + 1)) s])) (userStackTop, [], [])

/-- Where the block of pointers ends. -/
def alignSp (sp argc : ℕ) : ℕ :=
  let sp := sp / 16 * 16
  if down sp (40 + argc * 8) % 16 ≠ 0 then down sp 8 else sp

/-- The block of pointers, from its end: the auxiliary vector, two NULLs, `argv` and `argc`. -/
def pushPointers (sp : ℕ) (addrs : List ℕ) : List (List Patch) :=
  [wordsAt (down sp 16) [0, 0], wordsAt (down sp 24) [0], wordsAt (down sp 32) [0]] ++
    (addrs.reverse.mapIdx fun i a => wordsAt (down sp (40 + 8 * i)) [a]) ++
    [wordsAt (down sp (40 + 8 * addrs.length)) [addrs.length]]

/-- All stores into the new stack. -/
def argBlocks (argv : List (List Byte)) : List (List Patch) :=
  let r := pushStrings argv
  r.2.2 ++ pushPointers (alignSp r.1 argv.length) r.2.1

/-- The arguments that the program gets. -/
def argsOf (path : List Byte) (argv : List (List Byte)) : List (List Byte) :=
  if argv = [] then [path] else argv.take 64

/-- The name that the process gets: the last component of `argv[0]`, cut to fit. -/
def commOf (arg0 : List Byte) : List Byte :=
  ((arg0.reverse.takeWhile (· ≠ slash)).reverse).take 15

/-- `PRIO_HIGH` for the three interactive programs, `PRIO_NORMAL` for all others. -/
def prioOf (name : List Byte) : ℕ :=
  if name = ascii ['c', 'o', 'm', 'p', 'o', 's', 'e', 'r'] ∨
    name = ascii ['t', 'e', 'r', 'm', 'i', 'n', 'a', 'l'] ∨ name = ascii ['z', 's', 'h'] then 0
  else 1

/-! ## The call -/

/-- What the call can reach. -/
structure World where
  mem : Mem.Sys
  fs : Fs
  name : ℕ → List Byte
  priority : ℕ → ℕ
  sigs : Signal.State

/-- The program that a file and its arguments make. -/
def program (path file : List Byte) (argv : List (List Byte)) (beyond : Bytes)
    (sigreturn : BitVec 32) : Program :=
  ⟨parseElf file beyond, sigreturn, argBlocks (argsOf path argv)⟩

/-- `sys_exec_impl(path, argv)`; `argv` is empty if the pointer is NULL.  Whether `kmalloc` has the
buffer, and what lies behind it, is given with the call. -/
def sysExec (w : World) (pid : ℕ) (path : Option (List Byte)) (argv : List (List Byte))
    (room : Bool) (beyond : Bytes) (sigreturn : BitVec 32) : ℕ × World :=
  match path with
  | none => (failed, w)
  | some path =>
    if w.mem.space pid = none then (failed, { w with mem := w.mem.brkReset pid })
    else match readImage w.fs pid path room with
      | (none, fs) => (failed, { w with mem := w.mem.brkReset pid, fs := fs })
      | (some (path, file), fs) =>
        let r := Mem.exec w.mem pid (program path file argv beyond sigreturn)
        if r.1 = 0 then
          let name := commOf ((argsOf path argv).headD [])
          (0, { w with
            mem := r.2
            fs := fs
            name := Function.update w.name pid name
            priority := Function.update w.priority pid (prioOf name) })
        else (failed, { w with mem := r.2, fs := fs })

/-! ## The descriptor comes and goes -/

/-- Every open descriptor is as it was, and no other is open. -/
structure SameFds (x y : Fs) : Prop where
  rest : y = { x with fds := y.fds }
  used : ∀ i, (y.fds i).used = (x.fds i).used
  opened : ∀ i, (x.fds i).used = true → y.fds i = x.fds i

theorem SameFds.refl (x : Fs) : SameFds x x := ⟨rfl, fun _ => rfl, fun _ _ => rfl⟩

variable {i va : ℕ}

theorem sameFds_setFd (hfree : (x.fds i).used = false) (hf : f.used = false) :
    SameFds x (x.setFd i f) := by
  refine ⟨rfl, fun j => ?_, fun j hj => ?_⟩
  · by_cases hji : j = i
    · subst hji
      simp [hf, hfree]
    · simp [hji]
  · have hji : j ≠ i := by
      rintro rfl
      rw [hfree] at hj
      cases hj
    simp [hji]

theorem setFd_setFd {x : Fs} {f g : Xfs.Fd} : (x.setFd i f).setFd i g = x.setFd i g := by
  simp [Xfs.Fs.setFd]

/-- Opening for reading: nothing, or one free descriptor. -/
theorem xfsOpen_cases (x : Fs) (pid : ℕ) (path : List Byte) :
    xfsOpen x pid path 0 = (-1, x) ∨ ∃ i f, i < xfsMaxFds ∧ (x.fds i).used = false ∧
      xfsOpen x pid path 0 = ((i : ℤ), x.setFd i f) := by
  have hopen : ∀ ino, Xfs.openFd x pid ino 0 = (-1, x) ∨ ∃ i f, i < xfsMaxFds ∧
      (x.fds i).used = false ∧ Xfs.openFd x pid ino 0 = ((i : ℤ), x.setFd i f) := by
    intro ino
    unfold Xfs.openFd
    split
    · exact .inl rfl
    next i hi =>
    have hfree := List.find?_some hi
    have hlt := List.mem_range.mp (List.mem_of_find?_eq_some hi)
    exact .inr ⟨i, _, hlt, by simpa using hfree, rfl⟩
  unfold xfsOpen
  split
  · exact .inl rfl
  split
  · exact hopen _
  · exact .inl rfl

theorem openImage_cases (x : Fs) (pid : ℕ) (path : List Byte) :
    ((openImage x pid path).1 < 0 ∧ (openImage x pid path).2.2 = x) ∨
      ∃ i f, i < xfsMaxFds ∧ (x.fds i).used = false ∧ (openImage x pid path).1 = (i : ℤ) ∧
        (openImage x pid path).2.2 = x.setFd i f := by
  unfold openImage
  rcases xfsOpen_cases x pid path with heq | ⟨i, f, hlt, hfree, heq⟩
  · rw [heq]
    dsimp only
    split
    · rcases xfsOpen_cases x pid cmdsPath with heq' | ⟨i, f, hlt, hfree, heq'⟩
      · rw [heq']
        exact .inl ⟨by simp, rfl⟩
      · rw [heq']
        exact .inr ⟨i, f, hlt, hfree, rfl, rfl⟩
    · exact .inl ⟨by simp, rfl⟩
  · rw [heq]
    have hnonneg : ¬(i : ℤ) < 0 := by omega
    exact .inr ⟨i, f, hlt, hfree, rfl, rfl⟩

/-- A read moves the offset of its own descriptor. -/
theorem xfsRead_fds (x : Fs) (pid i count : ℕ) :
    ∃ f, (xfsRead x pid (i : ℤ) count).2.2 = x.setFd i f := by
  have hself : x = x.setFd i (x.fds i) := by simp [Xfs.Fs.setFd]
  unfold xfsRead
  split
  · exact ⟨_, hself⟩
  next j hj =>
  have hji : j = i := by
    unfold Xfs.fdOf at hj
    split at hj
    · cases hj
      rfl
    · cases hj
  subst hji
  dsimp only
  split
  · exact ⟨_, hself⟩
  · exact ⟨_, rfl⟩

theorem readAll_fds (pid i size fuel : ℕ) (x : Fs) (acc : List Byte) :
    ∃ f, (readAll pid (i : ℤ) size fuel x acc).2 = x.setFd i f := by
  induction fuel generalizing x acc with
  | zero => exact ⟨x.fds i, by simp [readAll, Xfs.Fs.setFd]⟩
  | succ fuel ih =>
    unfold readAll
    obtain ⟨f, hf⟩ := xfsRead_fds x pid i (size - acc.length)
    split
    · exact ⟨x.fds i, by simp [Xfs.Fs.setFd]⟩
    dsimp only
    split
    · exact ⟨f, hf⟩
    rw [hf]
    obtain ⟨g, hg⟩ := ih (x.setFd i f) (acc ++ (xfsRead x pid (i : ℤ) (size - acc.length)).2.1)
    exact ⟨g, hg.trans setFd_setFd⟩

theorem xfsClose_setFd {x : Fs} {f : Xfs.Fd} (hlt : i < xfsMaxFds) :
    xfsClose (x.setFd i f) (i : ℤ) = x.setFd i { f with used := false } := by
  unfold xfsClose
  rw [if_pos ⟨Int.natCast_nonneg i, by exact_mod_cast hlt⟩]
  simp [Xfs.Fs.setFd]

/-- **The file is read without a trace.** -/
theorem readImage_fds (x : Fs) (pid : ℕ) (path : List Byte) (room : Bool) :
    SameFds x (readImage x pid path room).2 := by
  unfold readImage
  rcases openImage_cases x pid path with ⟨hfd, hx⟩ | ⟨i, f, hlt, hfree, hfd, hx⟩
  · rw [if_pos hfd, hx]
    exact SameFds.refl x
  have hclosed : ∀ g, SameFds x (xfsClose (x.setFd i g) (i : ℤ)) := by
    intro g
    rw [xfsClose_setFd hlt]
    exact sameFds_setFd hfree rfl
  dsimp only
  rw [hfd, hx, if_neg (by omega)]
  split
  · exact hclosed f
  next st hst =>
  split
  · exact hclosed f
  split
  · obtain ⟨g, hg⟩ := readAll_fds pid i st.size st.size (x.setFd i f) []
    rw [hg, setFd_setFd]
    split
    · exact hclosed g
    · exact hclosed g
  · exact hclosed f

/-! ## The arguments stay in the user half -/

/-- The room that strings take. -/
def argBytes (argv : List (List Byte)) : ℕ := (argv.map fun s => s.length + 1).sum

theorem down_eq (h : n ≤ sp) (hsp : sp < 2 ^ 64) : down sp n = sp - n := by
  unfold down
  omega

/-- An address below the top of the stack is in the user half. -/
theorem idx_of_lt (h : va < userStackTop) : Mem.idx 3 va < 256 := by
  unfold Mem.idx
  unfold userStackTop at h
  omega

theorem stringAt_lt (h : va + (s.length + 1) ≤ userStackTop) :
    ∀ x, x ∈ stringAt va s → x.va < userStackTop := by
  intro x hx
  obtain ⟨i, hi, rfl⟩ := List.mem_mapIdx.mp hx
  have hlen : i < s.length + 1 := by simpa using hi
  show (va + i) % 2 ^ 64 < userStackTop
  omega

theorem wordsAt_lt (h : va + 8 * ws.length ≤ userStackTop) :
    ∀ x, x ∈ wordsAt va ws → x.va < userStackTop := by
  intro x hx
  obtain ⟨i, hi, rfl⟩ := List.mem_mapIdx.mp hx
  show (va + 8 * i) % 2 ^ 64 < userStackTop
  omega

theorem pushStrings_spec (argv : List (List Byte)) (h : argBytes argv ≤ userStackTop) :
    (pushStrings argv).1 = userStackTop - argBytes argv ∧
      (pushStrings argv).2.1.length = argv.length ∧
      ∀ b, b ∈ (pushStrings argv).2.2 → ∀ x, x ∈ b → x.va < userStackTop := by
  induction argv with
  | nil => exact ⟨rfl, rfl, nofun⟩
  | cons s argv ih =>
    have hbytes : argBytes (s :: argv) = s.length + 1 + argBytes argv := by simp [argBytes]
    obtain ⟨h1, h2, h3⟩ := ih (by omega)
    have hpush : pushStrings (s :: argv) = (down (pushStrings argv).1 (s.length + 1),
        down (pushStrings argv).1 (s.length + 1) :: (pushStrings argv).2.1,
        (pushStrings argv).2.2 ++ [stringAt (down (pushStrings argv).1 (s.length + 1)) s]) := rfl
    have htop : userStackTop < 2 ^ 64 := by decide
    have hdown : down (pushStrings argv).1 (s.length + 1) =
        userStackTop - argBytes (s :: argv) := by
      rw [down_eq (by omega) (by omega)]
      omega
    rw [hpush, hdown]
    refine ⟨rfl, by simp [h2], fun b hb => ?_⟩
    rcases List.mem_append.mp hb with hb | hb
    · exact h3 b hb
    · rw [List.mem_singleton.mp hb]
      exact stringAt_lt (by rw [hbytes]; omega)

theorem alignSp_le (argc : ℕ) (hsp : 64 ≤ sp) (h64 : sp < 2 ^ 64) :
    alignSp sp argc ≤ sp ∧ sp ≤ alignSp sp argc + 32 := by
  unfold alignSp
  dsimp only
  split
  · rw [down_eq (by omega) (by omega)]
    omega
  · omega

theorem pushPointers_lt (hsp : 48 + 8 * addrs.length ≤ sp) (htop : sp ≤ userStackTop) :
    ∀ b, b ∈ pushPointers sp addrs → ∀ x, x ∈ b → x.va < userStackTop := by
  have h64 : sp < 2 ^ 64 := lt_of_le_of_lt htop (by decide)
  intro b hb
  rcases List.mem_append.mp hb with hb | hb
  · rcases List.mem_append.mp hb with hb | hb
    · simp only [List.mem_cons, List.not_mem_nil, or_false] at hb
      rcases hb with rfl | rfl | rfl
      all_goals
        refine wordsAt_lt ?_
        rw [down_eq (by omega) h64]
        simp only [List.length_cons, List.length_nil]
        omega
    · obtain ⟨i, hi, rfl⟩ := List.mem_mapIdx.mp hb
      have hlen : i < addrs.length := by simpa using hi
      refine wordsAt_lt ?_
      rw [down_eq (by omega) h64]
      simp only [List.length_cons, List.length_nil]
      omega
  · rw [List.mem_singleton.mp hb]
    refine wordsAt_lt ?_
    rw [down_eq (by omega) h64]
    simp only [List.length_cons, List.length_nil]
    omega

theorem argBlocks_inUser (hlen : argv.length ≤ 64) (h : argBytes argv + 4096 ≤ userStackTop) :
    ∀ b, b ∈ argBlocks argv → ∀ x, x ∈ b → Mem.idx 3 x.va < 256 := by
  obtain ⟨hsp, haddrs, hstrings⟩ := pushStrings_spec argv (by omega)
  have h64 : (pushStrings argv).1 < 2 ^ 64 := by
    rw [hsp]
    exact lt_of_le_of_lt (Nat.sub_le _ _) (by decide)
  obtain ⟨hlow, hhigh⟩ := alignSp_le argv.length (by omega) h64
  intro b hb x hx
  refine idx_of_lt ?_
  rcases List.mem_append.mp hb with hb | hb
  · exact hstrings b hb x hx
  · exact pushPointers_lt (by rw [haddrs]; omega) (by omega) b hb x hx

theorem argsOf_length (path : List Byte) (argv : List (List Byte)) :
    (argsOf path argv).length ≤ 64 := by
  unfold argsOf
  split
  · simp
  · simp

/-! ## All or nothing -/

/-- What a failed call must leave behind. -/
structure Untouched (pid : ℕ) (w w' : World) : Prop where
  ram : Mem.Unchanged w.mem.toRam w'.mem.toRam
  usedFrames : w'.mem.pmm.usedFrames = w.mem.pmm.usedFrames
  space : w'.mem.space = w.mem.space
  pages : ∀ root va, w.mem.space pid = some root → Mem.idx 3 va < 256 →
    w'.mem.pageOf root va = w.mem.pageOf root va
  brk : w'.mem.brk = w.mem.brk
  name : w'.name = w.name
  priority : w'.priority = w.priority
  sigs : w'.sigs = w.sigs
  fds : SameFds w.fs w'.fs

/-- What a call that succeeds must leave behind: every page is in a frame that was free, the break
is that of a new process, and the handlers entered from now on are handlers installed from now
on. -/
structure Replaced (pid : ℕ) (w w' : World) : Prop where
  pages : ∃ root, w'.mem.space pid = some root ∧ w.mem.pmm.used root = false ∧
    ∀ va f, Mem.idx 3 va < 256 → w'.mem.pageOf root va = some f → w.mem.pmm.used f = false
  brk : pid < Mem.brkSlots → w'.mem.brk pid = 0
  handlers : ∀ ls t m f retval sig a, Run Signal.Step (fun _ _ => True) w'.sigs ls t →
    Signal.handlerEntered t pid m f retval = some (sig, a) →
    ∃ mask, Signal.Label.sigaction pid sig (some (a, mask)) ∈ ls
  fds : SameFds w.fs w'.fs

/-- What a file must be like: its segments are in the user half and its arguments fit below the
top of the stack. -/
structure UserImage (w : World) (path file : List Byte) (argv : List (List Byte)) (beyond : Bytes) :
    Prop where
  segments : ∀ x, x ∈ (parseElf file beyond).segments → x.InUser w.mem.pmm.total
  args : argBytes (argsOf path argv) + 4096 ≤ userStackTop

theorem UserImage.inUser (h : UserImage w path file argv beyond) (sigreturn : BitVec 32) :
    (program path file argv beyond sigreturn).InUser w.mem.pmm.total :=
  ⟨h.segments, argBlocks_inUser (argsOf_length path argv) h.args⟩

section Call

variable (w : World) (pid : ℕ) (path : Option (List Byte)) (argv : List (List Byte))
  (room : Bool) (beyond : Bytes) (sigreturn : BitVec 32)

/-- **The dispositions are not reset.** -/
theorem sysExec_sigs : (sysExec w pid path argv room beyond sigreturn).2.sigs = w.sigs := by
  unfold sysExec
  split
  · rfl
  split
  · rfl
  split
  · rfl
  dsimp only
  split <;> rfl

theorem sysExec_fds : SameFds w.fs (sysExec w pid path argv room beyond sigreturn).2.fs := by
  unfold sysExec
  split
  · exact SameFds.refl _
  next p =>
  have hread := readImage_fds w.fs pid p room
  split
  · exact SameFds.refl _
  split
  · next heq =>
    rw [heq] at hread
    exact hread
  next heq =>
  rw [heq] at hread
  dsimp only
  split
  · exact hread
  · exact hread

/-- The ends of the call: before the file is read, and after `proc_exec` has failed or
succeeded. -/
theorem sysExec_cases : ∃ r, sysExec w pid path argv room beyond sigreturn = r ∧
    (r.1 = failed ∧ r.2.name = w.name ∧ r.2.priority = w.priority ∧
        (path = none ∧ r.2.mem = w.mem ∨ path ≠ none ∧ r.2.mem = w.mem.brkReset pid) ∨
      ∃ p found file, path = some p ∧ (readImage w.fs pid p room).1 = some (found, file) ∧
        r.2.mem = (Mem.exec w.mem pid (program found file argv beyond sigreturn)).2 ∧
        (r.1 = 0 ∧ (Mem.exec w.mem pid (program found file argv beyond sigreturn)).1 = 0 ∨
          r.1 = failed ∧ (Mem.exec w.mem pid (program found file argv beyond sigreturn)).1 ≠ 0 ∧
            r.2.name = w.name ∧ r.2.priority = w.priority)) := by
  refine ⟨_, rfl, ?_⟩
  unfold sysExec
  split
  · exact .inl ⟨rfl, rfl, rfl, .inl ⟨rfl, rfl⟩⟩
  next p =>
  have hpath : some p ≠ none := Option.some_ne_none p
  split
  · exact .inl ⟨rfl, rfl, rfl, .inr ⟨hpath, rfl⟩⟩
  split
  · exact .inl ⟨rfl, rfl, rfl, .inr ⟨hpath, rfl⟩⟩
  next found file fs heq =>
  refine .inr ⟨p, found, file, rfl, by rw [heq], ?_⟩
  dsimp only
  split
  · next h0 => exact ⟨rfl, .inl ⟨rfl, h0⟩⟩
  · next h0 => exact ⟨rfl, .inr ⟨rfl, h0, rfl, rfl⟩⟩

variable {w pid path argv room beyond sigreturn} {R : Set ℕ}

/-- Unchanged memory, and nothing else touched. -/
theorem untouched_of_ram (h : Mem.Good R w.mem) (hbal : Mem.Balanced w.mem.pmm)
    (hmem : w'.mem = w.mem.setRam m) (hm : Mem.Unchanged w.mem.toRam m)
    (hsound : Mem.Sound R w.mem.roots m) (hname : w'.name = w.name)
    (hprio : w'.priority = w.priority) (hsigs : w'.sigs = w.sigs) (hfds : SameFds w.fs w'.fs) :
    Untouched pid w w' where
  ram := by rw [hmem]; exact hm
  usedFrames := by rw [hmem]; exact hm.usedFrames hbal
  space := by rw [hmem]; rfl
  pages root va hroot hu := by
    rw [hmem]
    exact hm.pageOf h.sound hsound (Mem.Sys.mem_roots hroot) hu
  brk := by rw [hmem]; rfl
  name := hname
  priority := hprio
  sigs := hsigs
  fds := hfds

/-- A process whose break is as it was after the reset had no heap. -/
theorem brk_of_reset (h : (w.mem.brkReset pid).brk = w.mem.brk) :
    pid < Mem.brkSlots → w.mem.brk pid = 0 := by
  intro hpid
  rw [← h]
  simp [Mem.Sys.brkReset, hpid]

end Call

/-! ## A small machine -/

/-- The header of a program without segments. -/
def tinyElf : List Byte :=
  [0x7f#8, 0x45#8, 0x4c#8, 0x46#8, 2#8, 1#8, 1#8] ++ List.replicate 9 0#8 ++
    [2#8, 0#8, 62#8, 0#8] ++ List.replicate 34 0#8 ++ [56#8] ++ List.replicate 9 0#8

/-- One process, which has made `calls`, and a disk with the file `/f`. -/
def tinyWorld (calls : List (ℕ × Mem.Call)) : World where
  mem := Mem.callAll Mem.smallMachine ((0, .spawn Mem.emptyProgram true) :: calls)
  fs := Xfs.execs (Xfs.freshDisk 8)
    [.open 1 [slash, 0x66#8] 6, .write 1 0 tinyElf, .close 0]
  name _ := []
  priority _ := 1
  sigs := { procs := fun _ => none, log := [] }

theorem tinyWorld_mem : (tinyWorld []).mem =
    Mem.callAll Mem.smallMachine [(0, .spawn Mem.emptyProgram true)] := by
  unfold tinyWorld
  with_reducible rfl

theorem tinyWorld_good : Mem.Good {f | f < 256} (tinyWorld []).mem := by
  have hrun : Run Mem.Step (Mem.Allowed {f | f < 256}) Mem.smallMachine
      [(0, .spawn Mem.emptyProgram true)]
      (Mem.callAll Mem.smallMachine [(0, .spawn Mem.emptyProgram true)]) :=
    .cons (Mem.inUser_emptyProgram _) rfl .nil
  have hgood := Mem.smallMachine_good.run hrun
  rw [tinyWorld_mem]
  exact hgood.1

theorem readImage_tinyWorld : (readImage (tinyWorld []).fs 1 [slash, 0x66#8] true).1 =
    some ([slash, 0x66#8], tinyElf) := by
  decide +kernel

theorem readImage_missing : (readImage (tinyWorld []).fs 1 [slash, 0x67#8] true).1 = none := by
  decide +kernel

theorem tinyElf_segments : (parseElf tinyElf fun _ => 0#8).segments = [] := by
  have hcount : phnum (fun k => if h : k < tinyElf.length then tinyElf[k] else 0#8) = 0 := by
    decide +kernel
  unfold parseElf
  dsimp only
  rw [hcount]
  rfl

theorem tinyElf_user : UserImage (tinyWorld []) [slash, 0x66#8] tinyElf [] (fun _ => 0#8) where
  segments := by
    rw [tinyElf_segments]
    nofun
  args := by decide +kernel

end Xos.Exec
