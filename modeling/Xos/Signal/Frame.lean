import Xos.Lib.Bytes

/-!
# Signal frames and the system-call return path

`signal_on_syscall_return` and `sys_sigreturn_impl` of `kernel/proc/signal.c`, between the
entry and the exit of `syscall_entry.S`.  A handler is entered by rewriting the three words
`syscall_entry` keeps for `sysretq` (`syscall_ret_frame_t`), after the interrupted context
has been stored on the user stack; `SYS_SIGRETURN` reads that context back from wherever the
user stack pointer then points.

Memory is one array of bytes over all virtual addresses, with a log of the stores that go
through a pointer user code supplied.  The kernel's own stack and `proc_t` are not in it:
they are the other arguments.  An access that would fault is performed here, where on the
machine it ends the system call.
-/

namespace Xos.Signal

open Xos.Lib

/-- `uint64_t`. -/
abbrev Word := BitVec 64

/-! ## Memory -/

/-- Virtual memory, and the address and length of every store so far. -/
structure Memory where
  bytes : Bytes
  stores : List (ℕ × ℕ)

/-- `*(uint64_t *)a`. -/
def Memory.load (m : Memory) (a : Word) : Word := BitVec.ofNat 64 (readLE m.bytes a.toNat 8)

/-- `*(uint64_t *)a = v`. -/
def Memory.store (m : Memory) (a v : Word) : Memory :=
  ⟨writeLE m.bytes a.toNat 8 v.toNat, m.stores ++ [(a.toNat, 8)]⟩

/-- `memset(a, 0, n)`. -/
def Memory.clear (m : Memory) (a : Word) (n : ℕ) : Memory :=
  ⟨zeroFill m.bytes a.toNat n, m.stores ++ [(a.toNat, n)]⟩

/-- Memory with nothing stored yet. -/
def Memory.ofBytes (b : Bytes) : Memory := ⟨b, []⟩

variable {m : Memory} {a b v : Word} {n : ℕ}

@[simp] theorem Memory.stores_store : (m.store a v).stores = m.stores ++ [(a.toNat, 8)] := rfl

@[simp] theorem Memory.stores_clear : (m.clear a n).stores = m.stores ++ [(a.toNat, n)] := rfl

@[simp] theorem Memory.stores_ofBytes : (Memory.ofBytes c).stores = [] := rfl

/-- A word reads back as it was stored. -/
theorem Memory.load_store : (m.store a v).load a = v := by
  unfold Memory.load Memory.store
  rw [readLE_writeLE]
  apply BitVec.eq_of_toNat_eq
  norm_num
  omega

theorem Memory.load_store_of_disjoint (h : b.toNat + 8 ≤ a.toNat ∨ a.toNat + 8 ≤ b.toNat) :
    (m.store a v).load b = m.load b := by
  unfold Memory.load Memory.store
  rw [readLE_writeLE_of_disjoint h]

/-! ## Processes and frames -/

/-- `XOS_NSIG`. -/
def nsig : ℕ := 32

/-- `XOS_SIGBIT(sig)`. -/
def sigBit (sig : ℕ) : Word := 1#64 <<< sig

/-- `XOS_SIG_DFL`. -/
def sigDfl : Word := 0

/-- `XOS_SIG_IGN`. -/
def sigIgn : Word := 1

/-- `USER_SIGRETURN_ADDR`. -/
def userSigreturnAddr : Word := 0x00007FFFF0000000

/-- The fields of `proc_t` the signal code reads. -/
structure SigProc where
  ring3 : Bool
  dead : Bool
  sigPending : Word
  sigBlocked : Word
  sigHandler : ℕ → Word
  sigMask : ℕ → Word

/-- `syscall_ret_frame_t`: what `syscall_entry` keeps on the kernel stack for `sysretq`. -/
structure RetFrame where
  rflags : Word
  rip : Word
  userRsp : Word
  deriving DecidableEq

/-- The user registers the return path can change; `rip` is the address of the instruction
after `syscall`. -/
structure Regs where
  rip : Word
  rflags : Word
  rsp : Word
  rax : Word
  rdi : Word
  r15 : Word

/-- `sizeof(struct xos_sigframe)`: `saved_r15`, `ret_to_tramp` and the seven words of
`struct xos_sigctx`. -/
def sigframeSize : ℕ := 72

/-! ## Delivery -/

/-- `pick_signal`: the lowest signal that is pending and not blocked. -/
def pickSignal (p : SigProc) : Option ℕ :=
  (List.range' 1 (nsig - 1)).find? fun sig =>
    (p.sigPending &&& ~~~p.sigBlocked) &&& sigBit sig != 0

/-- The stores of `signal_on_syscall_return` into the frame at `sf`. -/
def storeFrame (m : Memory) (sf : Word) (f : RetFrame) (realRsp retval savedR15 mask sig : Word) :
    Memory :=
  let m := m.clear sf sigframeSize
  let m := m.store (sf + 16#64) f.rip
  let m := m.store (sf + 24#64) f.rflags
  let m := m.store (sf + 32#64) realRsp
  let m := m.store (sf + 40#64) retval
  let m := m.store (sf + 48#64) savedR15
  let m := m.store (sf + 56#64) mask
  let m := m.store (sf + 64#64) sig
  let m := m.store sf savedR15
  m.store (sf + 8#64) userSigreturnAddr

/-- Where the frame goes on a user stack at `ursp`. -/
def frameAddr (ursp : Word) : Word := (ursp - BitVec.ofNat 64 sigframeSize) &&& ~~~15#64

/-- `signal_on_syscall_return(frame, retval)`: the frame to return through and the signal
number for `rdi`, or nothing when the code halts on a bad stack pointer. -/
def signalOnSyscallReturn (p : SigProc) (m : Memory) (f : RetFrame) (retval : Word) :
    SigProc × Memory × Option (RetFrame × Word) :=
  if !p.ring3 || p.dead then (p, m, some (f, 0#64))
  else
    match pickSignal p with
    | none => (p, m, some (f, 0#64))
    | some sig =>
      let handler := p.sigHandler sig
      if handler = sigDfl ∨ handler = sigIgn then
        ({ p with sigPending := p.sigPending &&& ~~~sigBit sig }, m, some (f, 0#64))
      else if 0xffff800000000000#64 ≤ f.userRsp ∨ f.userRsp < 0x1000#64 then (p, m, none)
      else
        let sf := frameAddr f.userRsp
        if f.userRsp ≤ sf then (p, m, some (f, 0#64))
        else
          let savedR15 := m.load f.userRsp
          let m := storeFrame m sf f (f.userRsp + 8#64) retval savedR15 p.sigBlocked
            (BitVec.ofNat 64 sig)
          let p := { p with
            sigPending := p.sigPending &&& ~~~sigBit sig
            sigBlocked := p.sigBlocked ||| (p.sigMask sig ||| sigBit sig) }
          (p, m, some ({ f with rip := handler, userRsp := sf }, BitVec.ofNat 64 sig))

/-! ## Return from a handler -/

/-- `sys_sigreturn_impl`, with the value it returns.  The context is at `ursp + 8`, and its
`rip`, `rflags` and `rax` are read after the store of `r15`. -/
def sysSigreturn (p : SigProc) (m : Memory) (f : RetFrame) : SigProc × Memory × RetFrame × Word :=
  let ctx := f.userRsp + 8#64
  let p := { p with sigBlocked := m.load (ctx + 40#64) }
  let resumeRsp := m.load (ctx + 16#64)
  if resumeRsp < 8#64 then (p, m, f, BitVec.allOnes 64)
  else
    let m := m.store (resumeRsp - 8#64) (m.load (ctx + 32#64))
    let f : RetFrame :=
      { rflags := m.load (ctx + 8#64) ||| 0x200#64, rip := m.load ctx, userRsp := resumeRsp - 8#64 }
    (p, m, f, m.load (ctx + 24#64))

/-! ## Entry and exit of a system call -/

/-- The first instructions of `syscall_entry`: `r15` goes to the user stack, and `rflags`,
`rip` and `rsp` are kept for the return. -/
def syscallEnter (m : Memory) (u : Regs) : Memory × RetFrame :=
  (m.store (u.rsp - 8#64) u.r15, { rflags := u.rflags, rip := u.rip, userRsp := u.rsp - 8#64 })

/-- `sysretq` loads `RFLAGS` from `r11`: RF, VM and the reserved bits are cleared and bit 1
is set. -/
def sysretFlags (r11 : Word) : Word := (r11 &&& 0x3C7FD7#64) ||| 2#64

/-- The last instructions of `syscall_entry`, from the frame and the signal number. -/
def syscallLeave (m : Memory) (u : Regs) (f : RetFrame) (rax signo : Word) : Regs where
  rip := f.rip
  rflags := sysretFlags f.rflags
  rsp := f.userRsp + 8#64
  rax := rax
  rdi := if signo = 0 then u.rdi else signo
  r15 := m.load f.userRsp

/-- A `SYS_SIGRETURN` system call, from the `syscall` instruction to the `sysretq`: the
registers user code resumes with, if it resumes. -/
def syscallSigreturn (p : SigProc) (m : Memory) (u : Regs) : SigProc × Memory × Option Regs :=
  let (m, f) := syscallEnter m u
  let (p, m, f, rax) := sysSigreturn p m f
  let (p, m, r) := signalOnSyscallReturn p m f rax
  (p, m, r.map fun (f, signo) => syscallLeave m u f rax signo)

end Xos.Signal
