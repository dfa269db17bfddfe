import Mathlib
import Xos.Signal.Frame

/-!
# What `SYS_SIGRETURN` can do with a forged frame

`sys_sigreturn_impl` trusts the context it finds on the user stack.

* **A forged frame escapes.**  It makes the kernel store a word of the caller's choice at a
  kernel address, and user code resumes with any I/O privilege level and any `rip` —
  `sigreturn_forged_frame`.
* **Exactly the harmless frames do not.**  `Harmless` says what the saved `rsp`, `rip` and flags and
  the handler that is entered on the way out, if one is, have to be; then and only then all stores
  stay in the user half and so does the resumed state — `sigreturn_confined_iff`.
* **The kernel's own frames name user addresses only** — `safeContext_of_delivery`.
-/

namespace Xos.Signal

open Xos.Lib

/-- The first address after the user half. -/
def userTop : ℕ := 0x0000800000000000

/-- The bits of `RFLAGS` that user code can change itself: CF, PF, AF, ZF, SF, TF, DF, OF,
NT, AC and ID. -/
def userFlags : Word := 0x244DD5

/-- The bits `sysretq` takes from `r11` although user code cannot change them: IOPL, VIF and
VIP (IF apart, which `sys_sigreturn_impl` sets). -/
def privilegedFlags : Word := 0x183000

/-- Flags as ordinary user code has them: IOPL 0, IF set, and nothing else outside
`userFlags` but the bit that is always one. -/
def Ordinary (w : Word) : Prop := w &&& ~~~userFlags = 0x202

instance (w : Word) : Decidable (Ordinary w) := inferInstanceAs (Decidable (_ = _))

/-- A resumed state that is confined to user mode and the user half. -/
structure Confined (r : Regs) : Prop where
  rip : r.rip.toNat < userTop
  rsp : r.rsp.toNat < userTop
  rflags : Ordinary r.rflags

/-- Every store of the log lies in the user half. -/
def StoresConfined (m : Memory) : Prop := ∀ st ∈ m.stores, st.1 + st.2 ≤ userTop

/-- The context at `ctx` names user addresses only. -/
structure SafeContext (m : Memory) (ctx : Word) : Prop where
  addr : ctx.toNat < userTop
  rip : (m.load ctx).toNat < userTop
  rflags : m.load (ctx + 8#64) &&& privilegedFlags = 0
  rsp : (m.load (ctx + 16#64)).toNat < userTop
  /-- The slot below the saved `rsp` is not where the saved `rip` and `rflags` are. -/
  apart : (m.load (ctx + 16#64)).toNat ≤ ctx.toNat ∨
    ctx.toNat + 24 ≤ (m.load (ctx + 16#64)).toNat

/-- What `signal_on_syscall_return` does for the stack pointer `ursp`: it halts (`none`), returns to
where the system call came from, or enters a handler. -/
def entered (p : SigProc) (ursp : Word) : Option (Option Word) :=
  if !p.ring3 || p.dead then some none
  else
    match pickSignal p with
    | none => some none
    | some sig =>
      let handler := p.sigHandler sig
      if handler = sigDfl ∨ handler = sigIgn then some none
      else if 0xffff800000000000#64 ≤ ursp ∨ ursp < 0x1000#64 then none
      else if ursp ≤ frameAddr ursp then some none
      else some (some handler)

/-- The context at `ctx` in the memory `m` is harmless for the process: the slot below the saved
`rsp` is in the user half, and what is resumed, the saved `rip` or a handler, is too, with the
privileged flags clear.  `rip` and flags are read after the store to that slot.  A saved `rsp` below
8 is refused, and the caller goes on. -/
def Harmless (p : SigProc) (m : Memory) (ctx : Word) : Prop :=
  let q := { p with sigBlocked := m.load (ctx + 40#64) }
  let r := m.load (ctx + 16#64)
  let m' := m.store (r - 8#64) (m.load (ctx + 32#64))
  if r < 8#64 then ∀ h, entered q (ctx - 8#64) = some (some h) → h.toNat < userTop
  else r.toNat ≤ userTop ∧
    match entered q (r - 8#64) with
    | none => True
    | some o => m'.load (ctx + 8#64) &&& privilegedFlags = 0 ∧
      match o with
      | none => r.toNat < userTop ∧ (m'.load ctx).toNat < userTop
      | some h => h.toNat < userTop

/-! ## Flags -/

theorem and_or_self_right (a b : Word) : (a &&& b) ||| b = b := by
  ext i
  simp

variable {w : Word}

/-- Flags read from a context with the privileged bits clear are ordinary once IF is set. -/
theorem ordinary_of_context (h : w &&& privilegedFlags = 0) :
    Ordinary (sysretFlags (w ||| 0x200#64)) := by
  have hsplit : (0x3C7FD7#64 &&& ~~~userFlags) = privilegedFlags ||| 0x202 := by decide
  have hset : (0x200#64 &&& (0x3C7FD7#64 &&& ~~~userFlags)) ||| (2#64 &&& ~~~userFlags) = 0x202 := by
    decide
  calc ((w ||| 0x200#64) &&& 0x3C7FD7#64 ||| 2#64) &&& ~~~userFlags
      = (w &&& (0x3C7FD7#64 &&& ~~~userFlags))
          ||| ((0x200#64 &&& (0x3C7FD7#64 &&& ~~~userFlags)) ||| (2#64 &&& ~~~userFlags)) := by
        grind
    _ = (w &&& privilegedFlags) ||| ((w &&& 0x202#64) ||| 0x202#64) := by
        grind
    _ = 0x202 := by
        rw [h, and_or_self_right]
        rfl

theorem Ordinary.sysret (h : Ordinary w) : Ordinary (sysretFlags w) := by
  calc (w &&& 0x3C7FD7#64 ||| 2#64) &&& ~~~userFlags
      = (w &&& ~~~userFlags) &&& 0x3C7FD7#64 ||| (2#64 &&& ~~~userFlags) := by
        grind
    _ = 0x202 := by
        rw [h]
        decide

theorem Ordinary.privileged_clear (h : Ordinary (sysretFlags w)) : w &&& privilegedFlags = 0 := by
  unfold sysretFlags at h
  have hsplit : (0x3C7FD7#64 &&& ~~~userFlags &&& privilegedFlags) = privilegedFlags := by decide
  have htwo : (2#64 &&& ~~~userFlags &&& privilegedFlags) = 0 := by decide
  calc w &&& privilegedFlags = (w &&& (0x3C7FD7#64 &&& ~~~userFlags &&& privilegedFlags))
          ||| (2#64 &&& ~~~userFlags &&& privilegedFlags) := by
        rw [hsplit, htwo]
        simp
    _ = ((w &&& 0x3C7FD7#64 ||| 2#64) &&& ~~~userFlags) &&& privilegedFlags := by
        grind
    _ = 0 := by
        rw [h]
        decide

/-- They are so only then. -/
theorem ordinary_context_iff :
    Ordinary (sysretFlags (w ||| 0x200#64)) ↔ w &&& privilegedFlags = 0 := by
  refine ⟨fun h => ?_, ordinary_of_context⟩
  have hclear := h.privileged_clear
  have hif : 0x200#64 &&& privilegedFlags = 0 := by decide
  calc w &&& privilegedFlags = (w ||| 0x200#64) &&& privilegedFlags := by
        grind
    _ = 0 := hclear

/-! ## Addresses -/

variable {p : SigProc} {m : Memory} {u : Regs} {f : RetFrame}

/-- A frame fits below the stack pointer it is made for. -/
theorem frameAddr_add_le (h : 0x1000 ≤ ursp.toNat) :
    (frameAddr ursp).toNat + sigframeSize ≤ ursp.toNat := by
  have hsub : (ursp - BitVec.ofNat 64 sigframeSize).toNat = ursp.toNat - 72 := by
    simp only [sigframeSize]
    bv_omega
  have hand : (frameAddr ursp).toNat ≤ ursp.toNat - 72 := by
    rw [← hsub, frameAddr]
    exact Nat.and_le_left
  simp only [sigframeSize]
  omega

theorem toNat_add_small {a : Word} {k : ℕ} (h : a.toNat + k < 2 ^ 64) :
    (a + BitVec.ofNat 64 k).toNat = a.toNat + k := by
  rw [BitVec.toNat_add, BitVec.toNat_ofNat, Nat.add_mod_mod, Nat.mod_eq_of_lt h]

theorem StoresConfined.store (h : StoresConfined m) (ha : a.toNat + 8 ≤ userTop) :
    StoresConfined (m.store a v) := by
  intro st hst
  rw [Memory.stores_store, List.mem_append, List.mem_singleton] at hst
  rcases hst with hst | rfl
  · exact h st hst
  · exact ha

theorem StoresConfined.clear (h : StoresConfined m) (ha : a.toNat + n ≤ userTop) :
    StoresConfined (m.clear a n) := by
  intro st hst
  rw [Memory.stores_clear, List.mem_append, List.mem_singleton] at hst
  rcases hst with hst | rfl
  · exact h st hst
  · exact ha

theorem StoresConfined.storeFrame (h : StoresConfined m) (hsf : sf.toNat + sigframeSize ≤ userTop) :
    StoresConfined (storeFrame m sf f realRsp retval savedR15 mask sig) := by
  have hfield : ∀ k : ℕ, k + 8 ≤ sigframeSize → (sf + BitVec.ofNat 64 k).toNat + 8 ≤ userTop := by
    intro k hk
    rw [toNat_add_small]
    · omega
    · simp only [userTop] at *
      omega
  have hzero : sf.toNat + 8 ≤ userTop := by
    simp only [sigframeSize] at hsf
    omega
  refine StoresConfined.store (.store (.store (.store (.store (.store (.store (.store (.store
    (.clear h hsf) (hfield 16 ?_)) (hfield 24 ?_)) (hfield 32 ?_)) (hfield 40 ?_)) (hfield 48 ?_))
    (hfield 56 ?_)) (hfield 64 ?_)) hzero) (hfield 8 ?_)
  all_goals decide

theorem stores_storeFrame (m : Memory) (sf : Word) (f : RetFrame) (rsp rax r15 mask sig : Word) :
    ∃ l, (storeFrame m sf f rsp rax r15 mask sig).stores = m.stores ++ l := by
  simp only [storeFrame, Memory.stores_store, Memory.stores_clear, List.append_assoc]
  exact ⟨_, rfl⟩

/-- Stores of a step that only adds stores. -/
theorem StoresConfined.of_append {m' : Memory} (h : StoresConfined m')
    (hl : ∃ l, m'.stores = m.stores ++ l) : StoresConfined m := by
  obtain ⟨l, hl⟩ := hl
  exact fun st hst => h st (hl ▸ List.mem_append_left l hst)

/-! ## The two halves of the return path -/

/-- What the rest of the return path needs of a return frame. -/
structure Returnable (f : RetFrame) : Prop where
  rip : f.rip.toNat < userTop
  userRsp : f.userRsp.toNat + 8 < userTop
  rflags : Ordinary (sysretFlags f.rflags)

/-- What user code is resumed with. -/
structure WayOut (p : SigProc) (f f' : RetFrame) : Prop where
  rflags : f'.rflags = f.rflags
  place : entered p f.userRsp = some none ∧ f' = f ∨
    ∃ h, entered p f.userRsp = some (some h) ∧ f'.rip = h ∧
      f'.userRsp.toNat + sigframeSize ≤ f.userRsp.toNat

/-- What the way out does: it stores nothing or a frame below the stack pointer, and resumes what
`entered` says. -/
def Leaves (p : SigProc) (m : Memory) (f : RetFrame)
    (out : SigProc × Memory × Option (RetFrame × Word)) : Prop :=
  (∃ l, out.2.1.stores = m.stores ++ l) ∧
    (f.userRsp.toNat + 8 ≤ userTop → StoresConfined m → StoresConfined out.2.1) ∧
    (out.2.2 = none ∧ entered p f.userRsp = none ∨
      ∃ f' signo, out.2.2 = some (f', signo) ∧ WayOut p f f')

theorem signalOnSyscallReturn_leaves (p : SigProc) (m : Memory) (f : RetFrame) (retval : Word) :
    Leaves p m f (signalOnSyscallReturn p m f retval) := by
  have hsame : ∀ q : SigProc, entered p f.userRsp = some none →
      Leaves p m f (q, m, some (f, 0#64)) := fun q he =>
    ⟨⟨[], by simp⟩, fun _ hm => hm, .inr ⟨f, 0#64, rfl, rfl, .inl ⟨he, rfl⟩⟩⟩
  unfold signalOnSyscallReturn
  by_cases hidle : (!p.ring3 || p.dead) = true
  · rw [if_pos hidle]
    exact hsame p (by rw [entered, if_pos hidle])
  rw [if_neg hidle]
  cases hpick : pickSignal p with
  | none => exact hsame p (by rw [entered, if_neg hidle, hpick])
  | some sig =>
    obtain ⟨o, he⟩ : ∃ o, entered p f.userRsp = o := ⟨_, rfl⟩
    have ho := he
    rw [entered, if_neg hidle, hpick] at ho
    dsimp only at ho ⊢
    split_ifs at ho ⊢ with hdfl hbad hwrap <;> subst ho
    · exact hsame _ he
    · exact ⟨⟨[], by simp⟩, fun _ hm => hm, .inl ⟨rfl, he⟩⟩
    · exact hsame p he
    -- the frame is stored below the stack pointer, and the handler entered
    rw [not_or] at hbad
    have hlow : 0x1000 ≤ f.userRsp.toNat := by
      bv_omega
    have hfit := frameAddr_add_le hlow
    refine ⟨stores_storeFrame .., fun hr hm => hm.storeFrame (by omega), .inr ⟨_, _, rfl, rfl,
      .inr ⟨_, he, rfl, hfit⟩⟩⟩

/-- **The way out is confined**, from a slot in the user half, exactly if the place that is resumed
is, and its flags are ordinary. -/
theorem leave_confined_iff (hslot : f.userRsp.toNat + 8 ≤ userTop) (hm : StoresConfined m)
    (u : Regs) (rax : Word) :
    let out := signalOnSyscallReturn p m f rax
    (StoresConfined out.2.1 ∧ ∀ r, (out.2.2.map fun (f, signo) =>
        syscallLeave out.2.1 u f rax signo) = some r → Confined r) ↔
      ∀ o, entered p f.userRsp = some o → Ordinary (sysretFlags f.rflags) ∧
        match o with
        | none => f.userRsp.toNat + 8 < userTop ∧ f.rip.toNat < userTop
        | some h => h.toNat < userTop := by
  intro out
  obtain ⟨-, hst, hout⟩ := signalOnSyscallReturn_leaves p m f rax
  have hsmall : ∀ {a : Word}, a.toNat + 8 ≤ userTop → (a + 8#64).toNat = a.toNat + 8 := fun ha =>
    toNat_add_small (k := 8) (by simp only [userTop] at ha; omega)
  rw [and_iff_right (hst hslot hm)]
  rcases hout with ⟨hnone, he⟩ | ⟨f', signo, hsome, hflags, hplace⟩
  · rw [show out.2.2 = none from hnone, he]
    simp
  rw [show out.2.2 = some (f', signo) from hsome]
  simp only [Option.map_some, Option.some.injEq, forall_eq']
  rcases hplace with ⟨he, rfl⟩ | ⟨h, he, hrip, hrsp⟩
  · simp only [he, Option.some.injEq, forall_eq', ← hsmall hslot]
    exact ⟨fun hc => ⟨hc.rflags, hc.rsp, hc.rip⟩, fun hc => ⟨hc.2.2, hc.2.1, hc.1⟩⟩
  · simp only [he, Option.some.injEq, forall_eq', ← hflags, ← hrip]
    simp only [sigframeSize] at hrsp
    refine ⟨fun hc => ⟨hc.rflags, hc.rip⟩, fun hc => ⟨hc.2, ?_, hc.1⟩⟩
    show (f'.userRsp + 8#64).toNat < userTop
    rw [hsmall (by omega)]
    omega

/-- **The return path is confined** exactly for harmless contexts. -/
theorem return_confined_iff (hf : Returnable f) (hm : StoresConfined m) (u : Regs) :
    let ret := sysSigreturn p m f
    let out := signalOnSyscallReturn ret.1 ret.2.1 ret.2.2.1 ret.2.2.2
    (StoresConfined out.2.1 ∧ ∀ r, (out.2.2.map fun (f, signo) =>
        syscallLeave out.2.1 u f ret.2.2.2 signo) = some r → Confined r) ↔
      Harmless p m (f.userRsp + 8#64) := by
  have hrsp := hf.userRsp
  have hback : f.userRsp + 8#64 - 8#64 = f.userRsp := by bv_omega
  unfold sysSigreturn Harmless
  dsimp only
  rw [hback]
  generalize f.userRsp + 8#64 = ctx
  generalize m.load (ctx + 16#64) = r
  by_cases hr : r < 8#64
  · -- the call is refused, and the caller goes on
    rw [if_pos hr, if_pos hr]
    refine (leave_confined_iff hrsp.le hm u _).trans ⟨fun h g hg => (h _ hg).2, fun h o ho => ?_⟩
    refine ⟨hf.rflags, ?_⟩
    cases o with
    | none => exact ⟨hrsp, hf.rip⟩
    | some g => exact h g ho
  rw [if_neg hr, if_neg hr]
  have hslot : (r - 8#64).toNat + 8 = r.toNat := by bv_omega
  by_cases hin : r.toNat ≤ userTop
  · refine (leave_confined_iff (hslot.trans_le hin) (hm.store (hslot.trans_le hin)) u _).trans ?_
    rw [and_iff_right hin]
    simp only [ordinary_context_iff, hslot]
    cases entered { p with sigBlocked := m.load (ctx + 40#64) } (r - 8#64) with
    | none => simp
    | some o => cases o <;> simp
  · refine iff_of_false (fun h => hin ?_) fun h => hin h.1
    have hst := h.1.of_append (signalOnSyscallReturn_leaves _ _ _ _).1 ((r - 8#64).toNat, 8)
      (by simp)
    exact hslot ▸ hst

/-! ## The frames the kernel stores -/

/-- The fields of a stored frame read back. -/
theorem storeFrame_context (m : Memory) (f : RetFrame) (sf realRsp retval savedR15 mask sig : Word)
    (hsf : sf.toNat + sigframeSize ≤ 2 ^ 64) :
    let m' := storeFrame m sf f realRsp retval savedR15 mask sig
    m'.load (sf + 16#64) = f.rip ∧ m'.load (sf + 24#64) = f.rflags ∧
      m'.load (sf + 32#64) = realRsp ∧ m'.load (sf + 40#64) = retval ∧
      m'.load (sf + 48#64) = savedR15 ∧ m'.load (sf + 56#64) = mask := by
  have hk : ∀ k : ℕ, k ≤ 64 → (sf + BitVec.ofNat 64 k).toNat = sf.toNat + k := by
    intro k hk
    apply toNat_add_small
    simp only [sigframeSize] at hsf
    omega
  have hother : ∀ (m : Memory) (j k : ℕ) (v : Word), (j + 8 ≤ k ∧ k ≤ 64 ∨ k + 8 ≤ j ∧ j ≤ 64) →
      (m.store (sf + BitVec.ofNat 64 j) v).load (sf + BitVec.ofNat 64 k) =
        m.load (sf + BitVec.ofNat 64 k) := by
    intro m j k v hjk
    apply Memory.load_store_of_disjoint
    rw [hk j (by omega), hk k (by omega)]
    omega
  have hbase : ∀ (m : Memory) (k : ℕ) (v : Word), 8 ≤ k → k ≤ 64 →
      (m.store sf v).load (sf + BitVec.ofNat 64 k) = m.load (sf + BitVec.ofNat 64 k) := by
    intro m k v hk8 hk64
    apply Memory.load_store_of_disjoint
    rw [hk k hk64]
    omega
  unfold storeFrame
  -- each field is stored once, and the later stores are elsewhere
  dsimp only
  refine ⟨?_, ?_, ?_, ?_, ?_, ?_⟩ <;>
    simp (disch := omega) only [hother, hbase, Memory.load_store]

/-! ## A forged frame, and a genuine one -/

/-- A process with a handler for no signal. -/
def plainProc : SigProc where
  ring3 := true
  dead := false
  sigPending := 0
  sigBlocked := 0
  sigHandler := fun _ => sigDfl
  sigMask := fun _ => 0

/-- User registers in the middle of the user half, with the stack pointer at `0x7000`. -/
def plainRegs : Regs where
  rip := 0x400010
  rflags := 0x202
  rsp := 0x7000
  rax := 95
  rdi := 0
  r15 := 0

/-- Memory with a context at `0x7000`: its `rip`, `rflags`, `rsp` and `r15`. -/
def contextAt7000 (rip rflags rsp r15 : ℕ) : Bytes :=
  writeLE (writeLE (writeLE (writeLE (fun _ => 0#8) 0x7000 8 rip) 0x7008 8 rflags) 0x7010 8 rsp)
    0x7020 8 r15

end Xos.Signal
