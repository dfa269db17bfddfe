import Xos.Signal.Pending

/-!
# Signals and the code they interrupt

What interrupted code finds when the handlers are done.  A system call returns through a frame; on
the way a signal may be delivered, whose handler makes system calls of its own, at whose returns
other signals may be delivered, and so on; when the handler has returned to the trampoline,
`SYS_SIGRETURN` is one more system call, at whose return the next signal may be delivered.  `Returns`
is such a return with everything that comes in between, and `Runs` a handler.

Handlers are any code that keeps to the calling convention: nothing at or above the handler's own
return address changes but the address itself, and the handler leaves with its stack pointer just
above it.

* **The interrupted code does not notice** — `signals_transparent`: the registers, the mask and the
  stack are those of the return without signals, if every handler also leaves with the argument
  registers that the interrupted code had.
* It has to, because the frame does not hold them, and it cannot in general, because `rdi` is
  overwritten on the way in — `rdi_lost`.
-/

namespace Xos.Signal

open Xos.Lib

/-! ## The model -/

/-- The user registers that `syscall_entry` saves and restores. -/
structure Ctx extends Regs where
  rsi : Word
  rdx : Word
  r10 : Word
  r8 : Word
  r9 : Word

/-- The exit of `syscall_entry`: the argument registers come from its spill area. -/
def Ctx.leave (u : Ctx) (m : Memory) (f : RetFrame) (rax signo : Word) : Ctx :=
  { u with toRegs := syscallLeave m u.toRegs f rax signo }

/-- A process in user mode. -/
structure User where
  p : SigProc
  m : Memory
  c : Ctx

/-- The same bytes from `base` on. -/
def Agree (base : ℕ) (m m' : Memory) : Prop := ∀ j, base ≤ j → m'.bytes j = m.bytes j

/-- `SYS_SIGRETURN` from the `syscall` instruction to the end of `sys_sigreturn_impl`. -/
def sigreturnCall (x : User) : SigProc × Memory × RetFrame × Word :=
  sysSigreturn x.p (syscallEnter x.m x.c.toRegs).1 (syscallEnter x.m x.c.toRegs).2

/-- The address after the `syscall` of the trampoline (`mov eax, imm32` and `syscall`). -/
def trampolineEnd : Word := userSigreturnAddr + 7#64

mutual

/-- `Returns ok p m f retval u x`: a system call, made with the registers `u`, returns through `f`,
and the code it returns to goes on in the state `x`.  `ok` relates the registers of the interrupted
code to those a handler leaves with. -/
inductive Returns (ok : Ctx → Ctx → Prop) :
    SigProc → Memory → RetFrame → Word → Ctx → User → Prop
  /-- No signal is delivered. -/
  | plain {p p' : SigProc} {m m' : Memory} {f f' : RetFrame} {retval : Word} {u : Ctx}
      (h : signalOnSyscallReturn p m f retval = (p', m', some (f', 0#64))) :
      Returns ok p m f retval u ⟨p', m', u.leave m' f' retval 0#64⟩
  /-- A signal is delivered, its handler runs, and returns to the trampoline. -/
  | signal {p p₁ : SigProc} {m m₁ : Memory} {f f₁ : RetFrame} {retval signo : Word} {u : Ctx}
      {y x : User} (h : signalOnSyscallReturn p m f retval = (p₁, m₁, some (f₁, signo)))
      (hsig : signo ≠ 0)
      (hrun : Runs ok (f₁.userRsp.toNat + 16) ⟨p₁, m₁, u.leave m₁ f₁ retval signo⟩ y)
      (hrip : y.c.rip = trampolineEnd) (hrsp : y.c.rsp = f₁.userRsp + 16#64) (hok : ok u y.c)
      (hret : Returns ok (sigreturnCall y).1 (sigreturnCall y).2.1 (sigreturnCall y).2.2.1
        (sigreturnCall y).2.2.2 y.c x) :
      Returns ok p m f retval u x

/-- `Runs ok base x y`: code that leaves memory from `base` on alone goes from `x` to `y`. -/
inductive Runs (ok : Ctx → Ctx → Prop) : ℕ → User → User → Prop
  | refl {base : ℕ} {x : User} : Runs ok base x x
  /-- User code; in between, signals may be sent, and dispositions and masks changed. -/
  | user {base : ℕ} {x y z : User} (hrun : Runs ok base x y) (hm : Agree base y.m z.m) :
      Runs ok base x z
  /-- A system call on the stack of the handler, whose body does as user code does. -/
  | syscall {base : ℕ} {x y z : User} {p : SigProc} {m : Memory} {retval : Word}
      (hrun : Runs ok base x y) (hlow : 8 ≤ y.c.rsp.toNat) (hrsp : y.c.rsp.toNat ≤ base)
      (hm : Agree base (syscallEnter y.m y.c.toRegs).1 m)
      (hret : Returns ok p m (syscallEnter y.m y.c.toRegs).2 retval y.c z) :
      Runs ok base x z

end

/-! ## Memory -/

theorem Agree.refl (base : ℕ) (m : Memory) : Agree base m m := fun _ _ => rfl

variable {base : ℕ} {a retval : Word} {p : SigProc}

theorem Agree.trans (h : Agree base m₁ m₂) (h' : Agree base m₂ m₃) :
    Agree base m₁ m₃ := fun j hj => (h' j hj).trans (h j hj)

theorem Agree.mono (h : Agree base m m') (hle : base ≤ base') :
    Agree base' m m' := fun j hj => h j (hle.trans hj)

theorem Agree.load (h : Agree base m m') (ha : base ≤ a.toNat) : m'.load a = m.load a := by
  unfold Memory.load
  rw [readLE_congr fun j hj _ => h j (ha.trans hj)]

theorem agree_store (m : Memory) (v : Word) (h : a.toNat + 8 ≤ base) : Agree base m (m.store a v) :=
  fun _ hj => writeLE_of_not_mem (.inr (h.trans hj))

theorem agree_clear (m : Memory) (h : a.toNat + n ≤ base) : Agree base m (m.clear a n) :=
  fun _ hj => zeroFill_of_not_mem (.inr (h.trans hj))

/-- A frame is stored within its size. -/
theorem agree_storeFrame (m : Memory) (f : RetFrame) (sf realRsp retval savedR15 mask sig : Word)
    (hsf : sf.toNat + sigframeSize < 2 ^ 64) :
    Agree (sf.toNat + sigframeSize) m (storeFrame m sf f realRsp retval savedR15 mask sig) := by
  have hk : ∀ (m : Memory) (k : ℕ) (v : Word), k + 8 ≤ sigframeSize →
      Agree (sf.toNat + sigframeSize) m (m.store (sf + BitVec.ofNat 64 k) v) := by
    intro m k v hk
    apply agree_store
    rw [toNat_add_small (by omega)]
    omega
  have hzero : ∀ (m : Memory) (v : Word), Agree (sf.toNat + sigframeSize) m (m.store sf v) := by
    intro m v
    apply agree_store
    unfold sigframeSize
    omega
  unfold storeFrame
  dsimp only
  refine (agree_clear m le_rfl).trans <| (hk _ 16 _ ?_).trans <| (hk _ 24 _ ?_).trans <|
    (hk _ 32 _ ?_).trans <| (hk _ 40 _ ?_).trans <| (hk _ 48 _ ?_).trans <| (hk _ 56 _ ?_).trans <|
    (hk _ 64 _ ?_).trans <| (hzero _ _).trans (hk _ 8 _ ?_)
  all_goals decide

/-! ## A delivery -/

/-- What `signal_on_syscall_return` has done when it delivers. -/
structure Delivery (p : SigProc) (m : Memory) (f : RetFrame) (retval : Word) (m₁ : Memory)
    (f₁ : RetFrame) : Prop where
  frame : f₁.userRsp = frameAddr f.userRsp
  low : 0x1000 ≤ f.userRsp.toNat
  high : f.userRsp.toNat < 0xffff800000000000
  stored : ∃ sig, m₁ = storeFrame m (frameAddr f.userRsp) f (f.userRsp + 8#64) retval
    (m.load f.userRsp) p.sigBlocked sig

/-- A return delivers a signal, or leaves the mask, the memory and the frame. -/
theorem signalOnSyscallReturn_cases
    (h : signalOnSyscallReturn p m f retval = (p₁, m₁, some (f₁, signo))) :
    (signo = 0 ∧ p₁.sigBlocked = p.sigBlocked ∧ m₁ = m ∧ f₁ = f) ∨
      (signo ≠ 0 ∧ Delivery p m f retval m₁ f₁) := by
  unfold signalOnSyscallReturn at h
  cases hpick : pickSignal p with
  | none =>
    rw [hpick] at h
    left
    split_ifs at h <;> cases h <;> exact ⟨rfl, rfl, rfl, rfl⟩
  | some =>
    rw [hpick] at h
    dsimp only at h
    split_ifs at h with hidle hdfl hbad hwrap
    · cases h
      exact .inl ⟨rfl, rfl, rfl, rfl⟩
    · cases h
      exact .inl ⟨rfl, rfl, rfl, rfl⟩
    · simp at h
    · cases h
      exact .inl ⟨rfl, rfl, rfl, rfl⟩
    · cases h
      rw [not_or] at hbad
      obtain ⟨hhigh, hlow⟩ := hbad
      obtain ⟨_, hpos, hlt, _⟩ := pickSignal_eq_some.mp hpick
      exact .inr ⟨signo_ne_zero hpos hlt, rfl, by bv_omega, by bv_omega, _, rfl⟩

theorem Delivery.fits (h : Delivery p m f retval m₁ f₁) :
    f₁.userRsp.toNat + 72 ≤ f.userRsp.toNat := by
  rw [h.frame]
  exact frameAddr_add_le h.low

/-- The frame of a delivery lies below the stack of the interrupted code. -/
theorem Delivery.agree (h : Delivery p m f retval m₁ f₁) : Agree f.userRsp.toNat m m₁ := by
  obtain ⟨sig, rfl⟩ := h.stored
  have hfits := h.fits
  rw [h.frame] at hfits
  have hhigh := h.high
  exact (agree_storeFrame _ _ _ _ _ _ _ _ (by unfold sigframeSize; omega)).mono hfits

/-- What `SYS_SIGRETURN` finds: the words of the context, as long as nobody has touched them. -/
theorem Delivery.context (h : Delivery p m f retval m₁ f₁)
    (hm : Agree (f₁.userRsp.toNat + 16) m₁ m₂) :
    m₂.load (f₁.userRsp + 16#64) = f.rip ∧ m₂.load (f₁.userRsp + 24#64) = f.rflags ∧
      m₂.load (f₁.userRsp + 32#64) = f.userRsp + 8#64 ∧
      m₂.load (f₁.userRsp + 40#64) = retval ∧
      m₂.load (f₁.userRsp + 48#64) = m.load f.userRsp ∧
      m₂.load (f₁.userRsp + 56#64) = p.sigBlocked := by
  have hfits := h.fits
  have hhigh := h.high
  have hload : ∀ k : ℕ, 16 ≤ k → k ≤ 64 →
      m₂.load (f₁.userRsp + BitVec.ofNat 64 k) = m₁.load (f₁.userRsp + BitVec.ofNat 64 k) := by
    intro k hk hk'
    apply hm.load
    rw [toNat_add_small (by omega)]
    omega
  obtain ⟨sig, hstored⟩ := h.stored
  obtain ⟨hrip, hflags, hrsp, hrax, hr15, hmask⟩ := storeFrame_context m f (frameAddr f.userRsp)
    (f.userRsp + 8#64) retval (m.load f.userRsp) p.sigBlocked sig (by
      rw [← h.frame]
      unfold sigframeSize
      omega)
  rw [← hstored, ← h.frame] at hrip hflags hrsp hrax hr15 hmask
  exact ⟨(hload 16 (by omega) (by omega)).trans hrip, (hload 24 (by omega) (by omega)).trans hflags,
    (hload 32 (by omega) (by omega)).trans hrsp, (hload 40 (by omega) (by omega)).trans hrax,
    (hload 48 (by omega) (by omega)).trans hr15, (hload 56 (by omega) (by omega)).trans hmask⟩

/-- **The matching `SYS_SIGRETURN`.**  It goes back to the return that was interrupted. -/
theorem Delivery.sigreturn (h : Delivery p m f retval m₁ f₁)
    (hm : Agree (f₁.userRsp.toNat + 16) m₁ y.m) (hrsp : y.c.rsp = f₁.userRsp + 16#64) :
    ∃ p' m', sigreturnCall y = (p', m', ⟨f.rflags ||| 0x200#64, f.rip, f.userRsp⟩, retval) ∧
      p'.sigBlocked = p.sigBlocked ∧ Agree (f.userRsp + 8#64).toNat m m' ∧
      m'.load f.userRsp = m.load f.userRsp := by
  have hfits := h.fits
  have hlow := h.low
  have hhigh := h.high
  -- `syscall_entry` pushes `r15` just below the context
  have hpush : y.c.rsp - 8#64 = f₁.userRsp + 8#64 := by
    rw [hrsp]
    bv_omega
  have hslot : (f₁.userRsp + 8#64).toNat = f₁.userRsp.toNat + 8 := toNat_add_small (by omega)
  have hm₂ : Agree (f₁.userRsp.toNat + 16) m₁ (y.m.store (f₁.userRsp + 8#64) y.c.r15) :=
    hm.trans (agree_store _ _ (by omega))
  obtain ⟨hrip, hflags, hres, hrax, hr15, hmask⟩ := h.context hm₂
  have hres' : (f.userRsp + 8#64).toNat = f.userRsp.toNat + 8 := toNat_add_small (by omega)
  have hback : f.userRsp + 8#64 - 8#64 = f.userRsp := by bv_omega
  have hoff : ∀ a : Word, f₁.userRsp + 8#64 + 8#64 + a = f₁.userRsp + (16#64 + a) := by
    intro a
    bv_omega
  have hctx : f₁.userRsp + 8#64 + 8#64 = f₁.userRsp + 16#64 := by bv_omega
  have hbig : ¬f.userRsp + 8#64 < 8#64 := by bv_omega
  -- the slot of `r15` is above the frame, so storing it leaves the context
  have happart : ∀ (m : Memory) (v : Word) (k : ℕ), k ≤ 64 →
      (m.store f.userRsp v).load (f₁.userRsp + BitVec.ofNat 64 k) =
        m.load (f₁.userRsp + BitVec.ofNat 64 k) := by
    intro m v k hk
    apply Memory.load_store_of_disjoint
    rw [toNat_add_small (by omega)]
    omega
  unfold sigreturnCall syscallEnter sysSigreturn
  dsimp only
  rw [hpush, hoff 40#64, hoff 16#64, hoff 32#64, hoff 8#64, hoff 24#64, hctx]
  simp only [BitVec.reduceAdd]
  rw [hres, if_neg hbig, hback, hr15, happart _ _ 16 (by omega), happart _ _ 24 (by omega),
    happart _ _ 40 (by omega), hrip, hflags, hrax, hmask]
  refine ⟨_, _, rfl, rfl, ?_, Memory.load_store⟩
  have hbelow : Agree (f.userRsp + 8#64).toNat m (y.m.store (f₁.userRsp + 8#64) y.c.r15) :=
    (h.agree.mono (by omega)).trans (hm₂.mono (by omega))
  exact hbelow.trans (agree_store _ _ hres'.ge)

/-! ## Transparency -/

/-- A handler that leaves with the argument registers of the code it interrupted. -/
structure KeepsArgs (u c : Ctx) : Prop where
  rdi : c.rdi = u.rdi
  rsi : c.rsi = u.rsi
  rdx : c.rdx = u.rdx
  r10 : c.r10 = u.r10
  r8 : c.r8 = u.r8
  r9 : c.r9 = u.r9

/-- The state that a return without signals leads to, as far as the interrupted code can tell. -/
structure Resumed (p : SigProc) (m : Memory) (f : RetFrame) (retval : Word) (u : Ctx) (x : User) :
    Prop where
  ctx : f.rflags &&& 0x200#64 = 0x200#64 → x.c = u.leave m f retval 0#64
  mask : x.p.sigBlocked = p.sigBlocked
  stack : Agree (f.userRsp + 8#64).toNat m x.m

/-- The interrupt flag is set in user mode, so that setting it changes nothing. -/
theorem or_interruptFlag {w : Word} (h : w &&& 0x200#64 = 0x200#64) : w ||| 0x200#64 = w := by
  rw [← h]
  ext i
  simp
  grind

theorem Ctx.leave_keepsArgs (h : KeepsArgs u c) (m : Memory) (f : RetFrame) (retval : Word) :
    c.leave m f retval 0#64 = u.leave m f retval 0#64 := by
  unfold Ctx.leave syscallLeave
  simp [h.rdi, h.rsi, h.rdx, h.r10, h.r8, h.r9]

theorem Ctx.leave_congr (u : Ctx) (retval : Word) (h : m'.load f.userRsp = m.load f.userRsp) :
    u.leave m' f retval 0#64 = u.leave m f retval 0#64 := by
  unfold Ctx.leave syscallLeave
  rw [h]

/-- After the handler and its `SYS_SIGRETURN`, it is the interrupted return that goes on. -/
theorem Delivery.resumed (h : Delivery p m f retval m₁ f₁)
    (hm : Agree (f₁.userRsp.toNat + 16) m₁ y.m) (hrsp : y.c.rsp = f₁.userRsp + 16#64)
    (hargs : KeepsArgs u y.c)
    (hx : Resumed (sigreturnCall y).1 (sigreturnCall y).2.1 (sigreturnCall y).2.2.1
      (sigreturnCall y).2.2.2 y.c x) : Resumed p m f retval u x := by
  obtain ⟨p', m', hcall, hmask, hagree, hr15⟩ := h.sigreturn hm hrsp
  rw [hcall] at hx
  refine ⟨?_, hx.mask.trans hmask, hagree.trans hx.stack⟩
  intro hif
  have hflags := or_interruptFlag hif
  have hctx := hx.ctx (by rw [hflags]; exact hif)
  rw [hctx]
  dsimp only
  rw [hflags, Ctx.leave_keepsArgs hargs]
  exact Ctx.leave_congr u retval hr15

mutual

theorem Returns.resumed {p : SigProc} {retval : Word} :
    Returns KeepsArgs p m f retval u x → Resumed p m f retval u x
  | .plain h => by
      rcases signalOnSyscallReturn_cases h with ⟨_, hmask, rfl, rfl⟩ | ⟨hne, _⟩
      · exact ⟨fun _ => rfl, hmask, Agree.refl _ _⟩
      · exact absurd rfl hne
  | .signal h hsig hrun _ hrsp hok hret => by
      rcases signalOnSyscallReturn_cases h with ⟨hzero, _⟩ | ⟨_, hd⟩
      · exact absurd hzero hsig
      · exact hd.resumed hrun.agree hrsp hok hret.resumed

theorem Runs.agree {base : ℕ} : Runs KeepsArgs base x y → Agree base x.m y.m
  | .refl => Agree.refl _ _
  | .user hrun hm => hrun.agree.trans hm
  | .syscall (y := y) hrun hlow hrsp hm hret => by
      -- the nested return leaves everything above the stack pointer of the handler
      have htop : (y.c.rsp - 8#64).toNat + 8 = y.c.rsp.toNat := by bv_omega
      have hpush : Agree base y.m (syscallEnter y.m y.c.toRegs).1 :=
        agree_store _ _ (by rw [htop]; exact hrsp)
      have hstack := hret.resumed.stack
      dsimp only [syscallEnter] at hstack
      rw [BitVec.sub_add_cancel] at hstack
      exact hrun.agree.trans <| hpush.trans <| hm.trans <| hstack.mono hrsp

end

/-- **Signal transparency.**  Whatever signals are delivered at the return of a system call and
during their handlers, if every handler keeps to the calling convention, returns to the trampoline
and leaves with the argument registers of the code it interrupted, then the code that made the
system call goes on with the registers and the mask of a return without signals, and nothing on its
stack at or above its `rsp` has changed. -/
theorem signals_transparent {p : SigProc} {m : Memory} {f : RetFrame} {retval : Word} {u : Ctx}
    {x : User} (hret : Returns KeepsArgs p m f retval u x)
    (hif : f.rflags &&& 0x200#64 = 0x200#64) :
    x.c = u.leave m f retval 0#64 ∧ x.p.sigBlocked = p.sigBlocked ∧
      ∀ j, x.c.rsp.toNat ≤ j → x.m.bytes j = m.bytes j := by
  obtain ⟨hctx, hmask, hstack⟩ := hret.resumed
  refine ⟨hctx hif, hmask, ?_⟩
  rw [hctx hif]
  exact hstack

/-! ## A handler that only returns -/

/-- A process with a handler for `SIGTERM`, which is pending. -/
def termPending : SigProc where
  ring3 := true
  dead := false
  sigPending := sigBit 15
  sigBlocked := 0
  sigHandler := fun _ => 0x400000
  sigMask := fun _ => 0

/-- A system call that is about to return, made at `rsp = 0x8000` with the argument `rdi`. -/
def beforeReturn : RetFrame := ⟨0x202, 0x400100, 0x7ff8⟩

def caller (rdi : Word) : Ctx where
  rip := 0x400100
  rflags := 0x202
  rsp := 0x8000
  rax := 0
  rdi := rdi
  r15 := 0
  rsi := 0
  rdx := 0
  r10 := 0
  r8 := 0
  r9 := 0

/-- The delivery of `SIGTERM`. -/
def termDelivery : SigProc × Memory × Option (RetFrame × Word) :=
  signalOnSyscallReturn termPending zeroMemory beforeReturn 0

/-- The handler's frame. -/
def handlerFrame : RetFrame := ⟨0x202, 0x400000, 0x7fb0⟩

/-- The state at the `syscall` of the trampoline, if the handler is a single `ret`. -/
def handlerDone : User where
  p := termDelivery.1
  m := termDelivery.2.1
  c := { caller 15 with rip := trampolineEnd, rsp := 0x7fc0, rax := 95 }

/-- The return from `SYS_SIGRETURN`. -/
def sigreturnReturn : SigProc × Memory × Option (RetFrame × Word) :=
  signalOnSyscallReturn (sigreturnCall handlerDone).1 (sigreturnCall handlerDone).2.1
    (sigreturnCall handlerDone).2.2.1 (sigreturnCall handlerDone).2.2.2

theorem termDelivery_eq :
    termDelivery = (termDelivery.1, termDelivery.2.1, some (handlerFrame, 15#64)) := by
  have hsome : termDelivery.2.2 = some (handlerFrame, 15#64) := by decide +kernel
  rw [← hsome]

theorem sigreturnReturn_eq :
    sigreturnReturn = (sigreturnReturn.1, sigreturnReturn.2.1, some (beforeReturn, 0#64)) := by
  have hsome : sigreturnReturn.2.2 = some (beforeReturn, 0#64) := by decide +kernel
  rw [← hsome]

/-- The interrupted code goes on with the `rdi` of the handler. -/
theorem returns_with_signo (ok : Ctx → Ctx → Prop) (rdi : Word)
    (hok : ok (caller rdi) handlerDone.c) :
    ∃ x, Returns ok termPending zeroMemory beforeReturn 0 (caller rdi) x ∧ x.c.rdi = 15 := by
  have hrun : Runs ok (handlerFrame.userRsp.toNat + 16)
      ⟨termDelivery.1, termDelivery.2.1, (caller rdi).leave termDelivery.2.1 handlerFrame 0 15#64⟩
      handlerDone := .user .refl (Agree.refl _ _)
  have hret : Returns ok (sigreturnCall handlerDone).1 (sigreturnCall handlerDone).2.1
      (sigreturnCall handlerDone).2.2.1 (sigreturnCall handlerDone).2.2.2 handlerDone.c _ :=
    .plain sigreturnReturn_eq
  have hrsp : handlerDone.c.rsp = handlerFrame.userRsp + 16#64 := by decide
  exact ⟨_, .signal termDelivery_eq (by decide) hrun rfl hrsp hok hret, rfl⟩

/-- `SIGTERM` is delivered to code that happens to have its number in `rdi`, and the handler returns
at once: nothing has changed. -/
theorem handler_unnoticed :
    ∃ x, Returns KeepsArgs termPending zeroMemory beforeReturn 0 (caller 15) x ∧
      x.c = (caller 15).leave zeroMemory beforeReturn 0 0#64 ∧
      x.p.sigBlocked = termPending.sigBlocked ∧
      ∀ j, x.c.rsp.toNat ≤ j → x.m.bytes j = zeroMemory.bytes j := by
  have hargs : KeepsArgs (caller 15) handlerDone.c := ⟨rfl, rfl, rfl, rfl, rfl, rfl⟩
  obtain ⟨x, hx, _⟩ := returns_with_signo KeepsArgs 15 hargs
  exact ⟨x, hx, signals_transparent hx (by decide)⟩

/-- **`rdi` is lost.**  A system call made with `rdi = 1` returns with `SIGTERM` pending; the
handler returns at once, and the code goes on with `rdi = 15`. -/
theorem rdi_lost :
    ∃ x, Returns (fun _ _ => True) termPending zeroMemory beforeReturn 0 (caller 1) x ∧
      ((caller 1).leave zeroMemory beforeReturn 0 0).rdi = 1 ∧ x.c.rdi = 15 := by
  obtain ⟨x, hx, hrdi⟩ := returns_with_signo (fun _ _ => True) 1 trivial
  exact ⟨x, hx, rfl, hrdi⟩

end Xos.Signal
