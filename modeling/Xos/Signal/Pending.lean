import Mathlib.Data.List.Count
import Mathlib.Logic.Function.Basic
import Xos.Lib.Run
import Xos.Signal.Confinement

/-!
# Pending and blocked signals

`proc_send_signal` of `kernel/proc/signal.c` with the calls of `kernel/bsd/syscalls.c` that change
dispositions and masks.  What a signal does is decided twice: its disposition when it is sent, the
mask when a system call returns.

* **A blocked signal waits, and is delivered once** — `blocked_signals_wait`: if no signal is sent
  that is blocked with its default action, and no `SIGSTOP`, then sending a blocked signal does no
  more than make it pending, every return enters the handler of the lowest signal that can be
  delivered, and a signal that became pending is accounted for by exactly one delivery (or by being
  dropped, if its handler was taken away).
* `proc_send_signal` does not look at the mask: a blocked signal with the default action kills —
  `blocked_default_kills`.  It does nothing with a `SIGSTOP`.
-/

namespace Xos.Signal

open Xos.Lib Function

/-! ## The model -/

/-- `XOS_SIGKILL`, `XOS_SIGTERM`, `XOS_SIGSTOP`, `XOS_SIGCHLD`. -/
def sigKill : ℕ := 9
def sigTerm : ℕ := 15
def sigStop : ℕ := 17
def sigChld : ℕ := 20

/-- `sig_default_ignore`: `SIGCHLD`, `SIGURG`, `SIGWINCH`. -/
def sigDefaultIgnore (sig : ℕ) : Bool := sig = sigChld ∨ sig = 16 ∨ sig = 28

/-- `sig_uncatchable`. -/
def sigUncatchable (sig : ℕ) : Bool := sig = sigKill ∨ sig = sigStop

/-- The signals whose default action in `proc_send_signal` is to kill: `SIGTERM`, `SIGINT`,
`SIGQUIT`, `SIGABRT`, `SIGSEGV`. -/
def sigDefaultFatal (sig : ℕ) : Bool := sig = sigTerm ∨ sig = 2 ∨ sig = 3 ∨ sig = 6 ∨ sig = 11

/-- A process: its signals, its parent, and whether it went through `proc_exit` (`exiting`). -/
structure Proc extends SigProc where
  parentPid : ℕ
  exiting : Bool

/-- What happens to a signal of a process. -/
inductive Event where
  /-- It became pending. -/
  | posted (pid sig : ℕ)
  /-- Its handler was entered. -/
  | delivered (pid sig : ℕ)
  /-- It was found without a handler at a return, and is no longer pending. -/
  | dropped (pid sig : ℕ)
  deriving DecidableEq

/-- The processes that `proc_by_pid` finds, and what has happened so far. -/
structure State where
  procs : ℕ → Option Proc
  log : List Event

/-- One process changes. -/
def State.setProc (s : State) (pid : ℕ) (p : Proc) : State :=
  { s with procs := update s.procs pid (some p) }

/-- `p->sig_pending |= XOS_SIGBIT(sig)`. -/
def State.post (s : State) (pid : ℕ) (p : Proc) (sig : ℕ) : State where
  procs := update s.procs pid (some { p with sigPending := p.sigPending ||| sigBit sig })
  log := if p.sigPending.getLsbD sig then s.log else s.log ++ [.posted pid sig]

/-- The disposition that `proc_send_signal` takes for "discard". -/
def Proc.ignores (p : Proc) (sig : ℕ) : Bool :=
  p.sigHandler sig = sigIgn ∨ (p.sigHandler sig = sigDfl ∧ sigDefaultIgnore sig)

/-- `proc_send_signal(pid, XOS_SIGCHLD)`, as `proc_exit` calls it; see
`procSendSignal_sigChld`. -/
def sendSigchld (s : State) (pid : ℕ) : State :=
  match s.procs pid with
  | none => s
  | some p => if p.dead ∨ p.ignores sigChld then s else s.post pid p sigChld

/-- `proc_exit(p)`, as far as signals go. -/
def procExit (s : State) (pid : ℕ) (p : Proc) : State :=
  if p.exiting then s
  else
    let s := s.setProc pid { p with exiting := true, dead := true }
    if p.parentPid ≠ 0 then sendSigchld s p.parentPid else s

/-- `proc_kill(pid)`; `remote` says that the target is running on another CPU, which will call
`proc_exit` itself. -/
def procKill (s : State) (remote : Bool) (pid : ℕ) (p : Proc) : State :=
  if pid = 0 ∨ p.exiting then s
  else if remote then s.setProc pid { p with dead := true }
  else procExit s pid p

/-- `proc_send_signal(pid, sig)`. -/
def procSendSignal (s : State) (remote : Bool) (pid : ℕ) (sig : ℤ) : State :=
  if sig ≤ 0 ∨ (nsig : ℤ) ≤ sig then s
  else
    let sig := sig.toNat
    match s.procs pid with
    | none => s
    | some p =>
      if p.dead then s
      else if sig = sigKill then procKill s remote pid p
      else if p.ignores sig then s
      else if p.sigHandler sig = sigDfl then
        if sigDefaultFatal sig then procKill s remote pid p else s
      else if sigUncatchable sig then procKill s remote pid p
      else s.post pid p sig

/-- The process that `sys_kill_impl` takes `pid` for. -/
def killTarget (pid : Word) : ℕ := if pid.toInt < 0 then (-pid).toNat else pid.toNat

/-- `(int)sig`. -/
def killSignal (sig : Word) : ℤ := (sig.setWidth 32).toInt

/-- `sys_kill_impl(pid, sig)`. -/
def sysKill (s : State) (remote : Bool) (pid sig : Word) : State :=
  match s.procs (killTarget pid) with
  | none => s
  | some _ =>
    if killSignal sig = 0 then s else procSendSignal s remote (killTarget pid) (killSignal sig)

/-- `sys_sigaction_impl(signum, act, oldact)`, with the handler and the mask of `act` if there is
one. -/
def sysSigaction (p : SigProc) (signum : ℕ) (act : Option (Word × Word)) : SigProc :=
  if signum = 0 ∨ nsig ≤ signum then p
  else if signum = sigKill ∨ signum = sigStop then p
  else
    match act with
    | none => p
    | some (handler, mask) =>
      { p with
        sigHandler := update p.sigHandler signum handler
        sigMask := update p.sigMask signum mask }

/-- `sys_sigprocmask_impl(how, set, oldset)`: `XOS_SIG_BLOCK` is 1, `XOS_SIG_UNBLOCK` 2,
`XOS_SIG_SETMASK` 0. -/
def sysSigprocmask (p : SigProc) (how : Word) (set : Option Word) : SigProc :=
  match set with
  | none => p
  | some w =>
    if how.setWidth 32 = 1#32 then { p with sigBlocked := p.sigBlocked ||| w }
    else if how.setWidth 32 = 2#32 then { p with sigBlocked := p.sigBlocked &&& ~~~w }
    else if how.setWidth 32 = 0#32 then { p with sigBlocked := w }
    else p

/-- `sys_sigsuspend_impl(maskptr)`: the mask is installed, and not put back.  The loop after it
only waits. -/
def sysSigsuspend (p : SigProc) (mask : Option Word) : SigProc :=
  match mask with
  | none => p
  | some w => { p with sigBlocked := w }

/-- What becomes of the signal that `signal_on_syscall_return` picked; `signo` is its output. -/
def returnEvents (p : SigProc) (pid : ℕ) (signo : Word) : List Event :=
  match pickSignal p with
  | none => []
  | some sig =>
    if p.sigHandler sig = sigDfl ∨ p.sigHandler sig = sigIgn then [.dropped pid sig]
    else if signo = 0 then []
    else [.delivered pid sig]

/-- The events. -/
inductive Label where
  /-- `sys_kill` by anyone. -/
  | kill (remote : Bool) (pid sig : Word)
  /-- `proc_exit` by the process itself. -/
  | exit (pid : ℕ)
  | sigaction (pid signum : ℕ) (act : Option (Word × Word))
  | sigprocmask (pid : ℕ) (how : Word) (set : Option Word)
  | sigsuspend (pid : ℕ) (mask : Option Word)
  /-- `sys_sigreturn_impl` with any frame in any memory. -/
  | sigreturn (pid : ℕ) (m : Memory) (f : RetFrame)
  /-- A system call returns. -/
  | ret (pid : ℕ) (m : Memory) (f : RetFrame) (retval : Word)

/-- A call of the process `pid` that changes only its signal fields. -/
def onProc (s : State) (pid : ℕ) (g : SigProc → SigProc) : Option State :=
  (s.procs pid).map fun p => s.setProc pid { p with toSigProc := g p.toSigProc }

/-- The end of a system call of the process `pid`: `signal_on_syscall_return`, if it returns. -/
def syscallReturn (s : State) (pid : ℕ) (m : Memory) (f : RetFrame) (retval : Word) :
    Option State :=
  match s.procs pid with
  | none => none
  | some p =>
    match signalOnSyscallReturn p.toSigProc m f retval with
    | (_, _, none) => none
    | (q, _, some (_, signo)) =>
      some { s.setProc pid { p with toSigProc := q } with
        log := s.log ++
          if p.ring3 ∧ p.dead = false then returnEvents p.toSigProc pid signo else [] }

/-- The state after an event, if the machine goes on. -/
def exec (s : State) : Label → Option State
  | .kill remote pid sig => some (sysKill s remote pid sig)
  | .exit pid => (s.procs pid).map (procExit s pid)
  | .sigaction pid signum act => onProc s pid (sysSigaction · signum act)
  | .sigprocmask pid how set => onProc s pid (sysSigprocmask · how set)
  | .sigsuspend pid mask => onProc s pid (sysSigsuspend · mask)
  | .sigreturn pid m f => onProc s pid fun p => (sysSigreturn p m f).1
  | .ret pid m f retval => syscallReturn s pid m f retval

def Step (s : State) (l : Label) (t : State) : Prop := exec s l = some t

/-- When masks are respected: no signal is sent to a process that blocks it and has left it at a
default action other than to ignore it, and `SIGSTOP` is not sent. -/
def Guard (s : State) : Label → Prop
  | .kill _ pid sig =>
    killSignal sig ≠ sigStop ∧
    ∀ p (n : ℕ), s.procs (killTarget pid) = some p → killSignal sig = n → n ≠ sigKill →
      p.sigBlocked.getLsbD n = true → p.sigHandler n = sigDfl → sigDefaultIgnore n = true
  | _ => True

/-! ## Bits and the lowest signal -/

variable {sig pid : ℕ} {f : RetFrame} {m : Memory} {r : RetFrame × Word} {retval : Word} {s : State}
  {p : Proc} {g : SigProc → SigProc} {e : Event} {l : Label} {remote : Bool} {m' : Memory}
  {t : State}

theorem getLsbD_sigBit (h : sig < 64) (i : ℕ) : (sigBit sig).getLsbD i = decide (i = sig) := by
  rw [show (sigBit sig).getLsbD i = _ from BitVec.getLsbD_twoPow sig i]
  simp [h, eq_comm]

theorem and_sigBit_ne_zero (h : sig < 64) : (x &&& sigBit sig != 0) = x.getLsbD sig := by
  have htwo : x &&& sigBit sig = if x.getLsbD sig then sigBit sig else 0#64 :=
    BitVec.and_twoPow x sig
  rw [htwo]
  cases x.getLsbD sig with
  | true =>
    rw [if_pos rfl, bne_iff_ne]
    intro hzero
    have hbit := getLsbD_sigBit h sig
    simp [hzero] at hbit
  | false => rfl

/-- A signal is pending and not blocked. -/
def SigProc.deliverable (p : SigProc) (sig : ℕ) : Bool :=
  p.sigPending.getLsbD sig && !p.sigBlocked.getLsbD sig

/-- A signal has a handler. -/
def SigProc.caught (p : SigProc) (sig : ℕ) : Bool :=
  p.sigHandler sig ≠ sigDfl ∧ p.sigHandler sig ≠ sigIgn

theorem caught_iff {p : SigProc} :
    p.caught sig = true ↔ ¬(p.sigHandler sig = sigDfl ∨ p.sigHandler sig = sigIgn) := by
  simp [SigProc.caught]

theorem uncaught_iff {p : SigProc} :
    p.caught sig = false ↔ p.sigHandler sig = sigDfl ∨ p.sigHandler sig = sigIgn := by
  rw [← Bool.not_eq_true, caught_iff, not_not]

theorem and_not_sigBit {p : SigProc} (h : sig < 64) :
    ((p.sigPending &&& ~~~p.sigBlocked) &&& sigBit sig != 0) = p.deliverable sig := by
  rw [and_sigBit_ne_zero h, BitVec.getLsbD_and]
  simp [SigProc.deliverable, h]

/-- **The lowest signal that can be delivered.** -/
theorem pickSignal_eq_some {p : SigProc} :
    pickSignal p = some sig ↔ p.deliverable sig = true ∧ 0 < sig ∧ sig < nsig ∧
      ∀ low, 0 < low → low < sig → p.deliverable low = false := by
  unfold pickSignal
  rw [List.find?_range'_eq_some, List.mem_range'_1]
  have hle : 1 + (nsig - 1) ≤ 64 := by decide
  constructor
  · rintro ⟨hsig, ⟨hpos, hlt⟩, hlow⟩
    refine ⟨(and_not_sigBit (hlt.trans_le hle)).symm.trans hsig, hpos, hlt, fun low hl hls => ?_⟩
    rw [← and_not_sigBit (by omega)]
    simpa using hlow low hl hls
  · rintro ⟨hsig, hpos, hlt, hlow⟩
    refine ⟨(and_not_sigBit (hlt.trans_le hle)).trans hsig, ⟨hpos, hlt⟩, fun low hl hls => ?_⟩
    rw [and_not_sigBit (hls.trans (hlt.trans_le hle)), hlow low hl hls]
    rfl

/-! ## What a return does -/

/-- A return with a signal that has a handler enters it. -/
theorem signalOnSyscallReturn_caught {p q : SigProc} (hring : p.ring3 = true)
    (hlive : p.dead = false) (hpick : pickSignal p = some sig) (hcaught : p.caught sig = true)
    (h : signalOnSyscallReturn p m f retval = (q, m', some r)) :
    q = { p with
      sigPending := p.sigPending &&& ~~~sigBit sig
      sigBlocked := p.sigBlocked ||| (p.sigMask sig ||| sigBit sig) } ∧
    r = ({ f with rip := p.sigHandler sig, userRsp := frameAddr f.userRsp },
      BitVec.ofNat 64 sig) := by
  unfold signalOnSyscallReturn at h
  rw [if_neg (by simp [hring, hlive]), hpick] at h
  dsimp only at h
  rw [if_neg (caught_iff.mp hcaught)] at h
  split at h
  · simp at h
  next hrsp =>
  -- the frame is below the stack pointer, so the test for a wrap is never met
  have hbelow : ¬f.userRsp ≤ frameAddr f.userRsp := by
    rw [not_or, BitVec.not_lt] at hrsp
    have hfit : (frameAddr f.userRsp).toNat + sigframeSize ≤ f.userRsp.toNat :=
      frameAddr_add_le hrsp.2
    rw [BitVec.le_def]
    unfold sigframeSize at hfit
    omega
  rw [if_neg hbelow] at h
  obtain ⟨rfl, _, rfl⟩ := h
  exact ⟨rfl, rfl⟩

/-- A return with a signal that has none forgets it. -/
theorem signalOnSyscallReturn_uncaught {p q : SigProc} (hring : p.ring3 = true)
    (hlive : p.dead = false) (hpick : pickSignal p = some sig) (hcaught : p.caught sig = false)
    (h : signalOnSyscallReturn p m f retval = (q, m', some r)) :
    q = { p with sigPending := p.sigPending &&& ~~~sigBit sig } := by
  unfold signalOnSyscallReturn at h
  rw [if_neg (by simp [hring, hlive]), hpick] at h
  dsimp only at h
  rw [if_pos (uncaught_iff.mp hcaught)] at h
  exact (congrArg Prod.fst h).symm

/-- Any other return changes nothing. -/
theorem signalOnSyscallReturn_none {p q : SigProc}
    (hno : (p.ring3 = true ∧ p.dead = false) → pickSignal p = none)
    (h : signalOnSyscallReturn p m f retval = (q, m', some r)) : q = p := by
  unfold signalOnSyscallReturn at h
  split at h
  · exact (congrArg Prod.fst h).symm
  next hrun =>
  rw [hno (by simpa using hrun)] at h
  exact (congrArg Prod.fst h).symm

/-! ## The balance -/

/-- A process that went through `proc_exit` is dead; and of each signal, what was posted has been
delivered or dropped, or is pending. -/
structure Inv (s : State) : Prop where
  exited : ∀ pid p, s.procs pid = some p → p.exiting = true → p.dead = true
  balance : ∀ pid p sig, s.procs pid = some p → sig < nsig →
    s.log.count (.posted pid sig) = s.log.count (.delivered pid sig) +
      s.log.count (.dropped pid sig) + (p.sigPending.getLsbD sig).toNat

/-- Processes as they are made: nothing is pending. -/
structure Initial (s : State) : Prop where
  procs : ∀ pid p, s.procs pid = some p → p.sigPending = 0 ∧ p.exiting = false
  log : s.log = []

theorem Initial.inv (h : Initial s) : Inv s where
  exited pid p hp hx := by simp [(h.procs pid p hp).2] at hx
  balance pid p sig hp _ := by simp [h.log, (h.procs pid p hp).1]

section

variable (h : Inv s)
include h

/-- The process `pid` changes, and the events `es` are logged, which are about it or about
nobody. -/
theorem Inv.change (pid : ℕ) (q : Proc) (es : List Event) (hexit : q.exiting = true → q.dead = true)
    (hes : ∀ i sig, i ≠ pid → es.count (.posted i sig) =
      es.count (.delivered i sig) + es.count (.dropped i sig))
    (hbal : ∀ sig, sig < nsig → (s.log ++ es).count (.posted pid sig) =
      (s.log ++ es).count (.delivered pid sig) + (s.log ++ es).count (.dropped pid sig) +
        (q.sigPending.getLsbD sig).toNat) : Inv { s.setProc pid q with log := s.log ++ es } where
  exited i r hr hx := by
    by_cases hi : i = pid
    · obtain rfl : q = r := by simpa [State.setProc, hi] using hr
      exact hexit hx
    · exact h.exited i r (by simpa [State.setProc, hi] using hr) hx
  balance i r sig hr hsig := by
    by_cases hi : i = pid
    · obtain rfl : q = r := by simpa [State.setProc, hi] using hr
      exact hi ▸ hbal sig hsig
    have hold := h.balance i r sig (by simpa [State.setProc, hi] using hr) hsig
    have hnew := hes i sig hi
    simp only [List.count_append]
    omega

/-- A process that changes without its pending signals changing. -/
theorem Inv.setProc (hp : s.procs pid = some p) (hpending : q.sigPending = p.sigPending)
    (hexit : q.exiting = true → q.dead = true) :
    Inv (s.setProc pid q) := by
  have hbal := fun sig => h.balance pid p sig hp
  simpa [State.setProc] using h.change pid q [] hexit (by simp) (by simpa [hpending] using hbal)

theorem Inv.post (hp : s.procs pid = some p) (hsig : sig < nsig) : Inv (s.post pid p sig) := by
  have h64 : sig < 64 := lt_trans hsig (by decide)
  have hbits : ∀ i, (p.sigPending ||| sigBit sig).getLsbD i =
      (p.sigPending.getLsbD i || decide (i = sig)) := fun i => by
    rw [BitVec.getLsbD_or, getLsbD_sigBit h64]
  cases hbit : p.sigPending.getLsbD sig with
  | true =>
    have hsame : ∀ i, (p.sigPending ||| sigBit sig).getLsbD i = p.sigPending.getLsbD i := fun i => by
      rw [hbits, Bool.or_eq_left_iff_imp, decide_eq_true_eq]
      rintro rfl
      exact hbit
    have := h.setProc (q := { p with sigPending := p.sigPending ||| sigBit sig }) hp
      (BitVec.eq_of_getLsbD_eq fun i _ => hsame i) (h.exited pid p hp)
    simpa [State.post, State.setProc, hbit] using this
  | false =>
    have := h.change pid { p with sigPending := p.sigPending ||| sigBit sig } [.posted pid sig]
      (h.exited pid p hp) (fun _ _ hi => by simp [Ne.symm hi]) fun sig' hsig' => ?_
    · simpa [State.post, State.setProc, hbit] using this
    -- it becomes pending now, and the log says so
    have hbal := h.balance pid p sig' hp hsig'
    by_cases heq : sig' = sig
    · subst heq
      simp [hbits, hbit] at hbal ⊢
      omega
    · simp [hbits, heq, Ne.symm heq, hbal]

end

/-- What `kill` and `exit` do to a state: signals become pending, and processes die. -/
structure Closed (P : State → Prop) : Prop where
  post : ∀ {s pid p sig}, P s → s.procs pid = some p → sig < nsig → P (s.post pid p sig)
  dies : ∀ {s pid p} (exiting : Bool), P s → s.procs pid = some p →
    P (s.setProc pid { p with exiting, dead := true })

theorem inv_closed : Closed Inv where
  post h hp hsig := h.post hp hsig
  dies _ h hp := h.setProc hp rfl fun _ => rfl

section

variable {P : State → Prop} (hP : Closed P) (h : P s)
include hP h

theorem Closed.procExit (hp : s.procs pid = some p) : P (procExit s pid p) := by
  have hset : P (s.setProc pid { p with exiting := true, dead := true }) := hP.dies true h hp
  unfold Signal.procExit Signal.sendSigchld
  dsimp only
  repeat' split
  all_goals first | exact h | exact hset | exact hP.post hset ‹_› (by decide)

theorem Closed.procKill (hp : s.procs pid = some p) (remote : Bool) :
    P (procKill s remote pid p) := by
  unfold Signal.procKill
  split
  · exact h
  split
  · exact hP.dies p.exiting h hp
  · exact hP.procExit h hp

theorem Closed.sysKill (remote : Bool) (pid sig : Word) : P (sysKill s remote pid sig) := by
  unfold Signal.sysKill Signal.procSendSignal
  split
  · exact h
  next p hp =>
  split
  · exact h
  split
  · exact h
  have hsig : (killSignal sig).toNat < nsig := by omega
  dsimp only
  repeat' split
  all_goals first | exact h | exact hP.procKill h hp remote | exact hP.post h hp hsig

end

theorem Inv.onProc (h : Inv s) (hg : ∀ p, (g p).sigPending = p.sigPending ∧ (g p).dead = p.dead)
    (ht : onProc s pid g = some t) :
    Inv t := by
  obtain ⟨p, hp, rfl⟩ := Option.map_eq_some_iff.mp ht
  exact h.setProc hp (hg _).1 fun hx => (hg _).2.trans (h.exited pid p hp hx)

/-! ## Returns -/

/-- The process after its handler for `sig` was entered. -/
def Proc.entered (p : Proc) (sig : ℕ) : Proc :=
  { p with
    sigPending := p.sigPending &&& ~~~sigBit sig
    sigBlocked := p.sigBlocked ||| (p.sigMask sig ||| sigBit sig) }

/-- The process after `sig` was dropped. -/
def Proc.forgot (p : Proc) (sig : ℕ) : Proc :=
  { p with sigPending := p.sigPending &&& ~~~sigBit sig }

/-- What a return can come to. -/
inductive Returned (s : State) (pid : ℕ) (p : Proc) (m : Memory) (f : RetFrame) (retval : Word) :
    State → Prop
  | idle (h : p.ring3 = true ∧ p.dead = false → pickSignal p.toSigProc = none) :
      Returned s pid p m f retval (s.setProc pid p)
  | delivered {sig : ℕ} (hpick : pickSignal p.toSigProc = some sig)
      (hcaught : p.caught sig = true)
      (hframe : ∃ m', signalOnSyscallReturn p.toSigProc m f retval = ((p.entered sig).toSigProc, m',
        some ({ f with rip := p.sigHandler sig, userRsp := frameAddr f.userRsp },
          BitVec.ofNat 64 sig))) :
      Returned s pid p m f retval
        { s.setProc pid (p.entered sig) with log := s.log ++ [.delivered pid sig] }
  | dropped {sig : ℕ} (hpick : pickSignal p.toSigProc = some sig) (hcaught : p.caught sig = false) :
      Returned s pid p m f retval
        { s.setProc pid (p.forgot sig) with log := s.log ++ [.dropped pid sig] }

theorem signo_ne_zero (hpos : 0 < sig) (hlt : sig < nsig) : BitVec.ofNat 64 sig ≠ 0 := by
  unfold nsig at hlt
  intro hzero
  have hval := congrArg BitVec.toNat hzero
  rw [BitVec.toNat_ofNat, Nat.mod_eq_of_lt (by omega)] at hval
  exact hpos.ne' hval

theorem setProc_log_nil (s : State) (pid : ℕ) (p : Proc) :
    { s.setProc pid p with log := s.log ++ [] } = s.setProc pid p := by
  rw [List.append_nil]
  rfl

theorem returned_of_syscallReturn (h : syscallReturn s pid m f retval = some t) :
    ∃ p, s.procs pid = some p ∧ Returned s pid p m f retval t := by
  unfold syscallReturn at h
  split at h
  · simp at h
  next p hp =>
  refine ⟨p, hp, ?_⟩
  split at h
  · simp at h
  next q m' r signo hret =>
  rw [Option.some.injEq] at h
  subst h
  by_cases hrun : p.ring3 = true ∧ p.dead = false
  · rw [if_pos hrun, returnEvents]
    cases hpick : pickSignal p.toSigProc with
    | none =>
      obtain rfl := signalOnSyscallReturn_none (fun _ => hpick) hret
      rw [setProc_log_nil]
      exact .idle fun _ => hpick
    | some sig =>
      obtain ⟨_, hpos, hlt, _⟩ := pickSignal_eq_some.mp hpick
      cases hcaught : p.caught sig with
      | true =>
        obtain ⟨rfl, hr⟩ := signalOnSyscallReturn_caught hrun.1 hrun.2 hpick hcaught hret
        cases hr
        dsimp only
        rw [if_neg (caught_iff.mp hcaught), if_neg (signo_ne_zero hpos hlt)]
        exact .delivered hpick hcaught ⟨m', hret⟩
      | false =>
        obtain rfl := signalOnSyscallReturn_uncaught hrun.1 hrun.2 hpick hcaught hret
        dsimp only
        rw [if_pos (uncaught_iff.mp hcaught)]
        exact .dropped hpick hcaught
  · rw [if_neg hrun, setProc_log_nil]
    obtain rfl := signalOnSyscallReturn_none (fun hr => absurd hr hrun) hret
    exact .idle fun hr => absurd hr hrun

/-- A pending signal that is delivered or dropped. -/
theorem Inv.take (h : Inv s) (hp : s.procs pid = some p) (hsig : sig < nsig)
    (hbit : p.sigPending.getLsbD sig = true) (he : e = .delivered pid sig ∨ e = .dropped pid sig)
    (hpending : q.sigPending = p.sigPending &&& ~~~sigBit sig) (hexit : q.exiting = p.exiting)
    (hdead : q.dead = p.dead) : Inv { s.setProc pid q with log := s.log ++ [e] } := by
  have h64 : sig < 64 := lt_trans hsig (by decide)
  refine h.change pid q [e] (by rw [hexit, hdead]; exact h.exited pid p hp) ?_ fun sig' hsig' => ?_
  · intro i sig' hi
    rcases he with rfl | rfl <;> simp [Ne.symm hi]
  have hbal := h.balance pid p sig' hp hsig'
  have h64' : sig' < 64 := lt_trans hsig' (by decide)
  rw [hpending, BitVec.getLsbD_and, BitVec.getLsbD_not, getLsbD_sigBit h64]
  by_cases heq : sig' = sig
  · subst heq
    rw [hbit] at hbal
    rcases he with rfl | rfl
    all_goals
      simp only [List.count_append, hbal]
      simp
      omega
  · rcases he with rfl | rfl <;> simp [heq, h64', hbal, Ne.symm heq]

theorem Inv.returned (h : Inv s) (hp : s.procs pid = some p) (hr : Returned s pid p m f retval t) :
    Inv t := by
  cases hr with
  | idle => exact h.setProc hp rfl (h.exited pid p hp)
  | delivered hpick _ _ =>
    obtain ⟨hdel, _, hlt, _⟩ := pickSignal_eq_some.mp hpick
    rw [SigProc.deliverable, Bool.and_eq_true] at hdel
    exact h.take hp hlt hdel.1 (.inl rfl) rfl rfl rfl
  | dropped hpick _ =>
    obtain ⟨hdel, _, hlt, _⟩ := pickSignal_eq_some.mp hpick
    rw [SigProc.deliverable, Bool.and_eq_true] at hdel
    exact h.take hp hlt hdel.1 (.inr rfl) rfl rfl rfl

/-- **One event.** -/
theorem Inv.step (h : Inv s) (hstep : Step s l t) : Inv t := by
  unfold Step at hstep
  cases l with
  | kill remote pid sig =>
    cases hstep
    exact inv_closed.sysKill h remote pid sig
  | exit =>
    obtain ⟨p, hp, rfl⟩ := Option.map_eq_some_iff.mp hstep
    exact inv_closed.procExit h hp
  | sigaction | sigprocmask | sigsuspend | sigreturn =>
    -- the four calls store neither `sig_pending` nor the state
    simp only [exec] at hstep
    refine h.onProc (fun p => ?_) hstep
    simp only [sysSigaction, sysSigprocmask, sysSigsuspend, sysSigreturn]
    repeat' split
    all_goals exact ⟨rfl, rfl⟩
  | ret =>
    obtain ⟨p, hp, hr⟩ := returned_of_syscallReturn hstep
    exact h.returned hp hr

/-! ## What is logged -/

/-- The log grows by posts only. -/
def Posts (s t : State) : Prop :=
  ∃ es, t.log = s.log ++ es ∧ ∀ e ∈ es, ∃ pid sig, e = Event.posted pid sig

theorem Posts.of_log_eq (h : t.log = s.log) : Posts s t := ⟨[], by rw [h, List.append_nil], nofun⟩

theorem posts_closed (s₀ : State) : Closed (Posts s₀) where
  post := by
    rintro s pid p sig ⟨es, hlog, hes⟩ - -
    cases hbit : p.sigPending.getLsbD sig with
    | true => exact ⟨es, by simp [State.post, hbit, hlog], hes⟩
    | false =>
      refine ⟨es ++ [.posted pid sig], by simp [State.post, hbit, hlog], ?_⟩
      simp only [List.mem_append, List.mem_singleton]
      rintro e (he | rfl)
      · exact hes e he
      · exact ⟨pid, sig, rfl⟩
  dies _ h _ := h

theorem posts_onProc (h : onProc s pid g = some t) : Posts s t := by
  obtain ⟨p, _, rfl⟩ := Option.map_eq_some_iff.mp h
  exact .of_log_eq rfl

/-- Only returns deliver and drop. -/
theorem posts_or_returned (hstep : Step s l t) :
    Posts s t ∨ ∃ pid m f retval p, l = .ret pid m f retval ∧ s.procs pid = some p ∧
      Returned s pid p m f retval t := by
  unfold Step at hstep
  cases l with
  | kill =>
    cases hstep
    exact .inl ((posts_closed s).sysKill (.of_log_eq rfl) ..)
  | exit =>
    obtain ⟨p, hp, rfl⟩ := Option.map_eq_some_iff.mp hstep
    exact .inl ((posts_closed s).procExit (.of_log_eq rfl) hp)
  | sigaction | sigprocmask | sigsuspend | sigreturn =>
    simp only [exec] at hstep
    exact .inl (posts_onProc hstep)
  | ret pid m f retval =>
    obtain ⟨p, hp, hr⟩ := returned_of_syscallReturn hstep
    exact .inr ⟨pid, m, f, retval, p, rfl, hp, hr⟩

theorem Posts.posted (h : Posts s t) (hlog : t.log = s.log ++ es) (he : e ∈ es) :
    ∃ pid sig, e = .posted pid sig := by
  obtain ⟨es', hes', hall⟩ := h
  have : es = es' := List.append_cancel_left (hlog.symm.trans hes')
  exact hall e (this ▸ he)

/-- What a return logs. -/
theorem Returned.logged (h : Returned s pid p m f retval t) (hlog : t.log = s.log ++ es)
    (he : e ∈ es) :
    ∃ sig, p.deliverable sig = true ∧ ((e = .delivered pid sig ∧ p.caught sig = true) ∨
        (e = .dropped pid sig ∧ p.caught sig = false)) := by
  cases h with
  | idle _ =>
    have hnil : es = [] := List.append_cancel_left (hlog.symm.trans (List.append_nil _).symm)
    simp [hnil] at he
  | @delivered sig hpick hcaught _ =>
    obtain rfl := List.append_cancel_left hlog
    exact ⟨sig, (pickSignal_eq_some.mp hpick).1, .inl ⟨List.mem_singleton.mp he, hcaught⟩⟩
  | @dropped sig hpick hcaught =>
    obtain rfl := List.append_cancel_left hlog
    exact ⟨sig, (pickSignal_eq_some.mp hpick).1, .inr ⟨List.mem_singleton.mp he, hcaught⟩⟩

/-- What a step logs. -/
theorem Step.logged (hstep : Step s l t) (hlog : t.log = s.log ++ es) (he : e ∈ es) :
    (∃ pid sig, e = .posted pid sig) ∨ ∃ pid m f retval p sig, l = .ret pid m f retval ∧
      s.procs pid = some p ∧ p.deliverable sig = true ∧
        (e = .delivered pid sig ∧ p.caught sig = true ∨
          e = .dropped pid sig ∧ p.caught sig = false) := by
  obtain hposts | ⟨pid, m, f, retval, p, rfl, hp, hr⟩ := posts_or_returned hstep
  · exact .inl (hposts.posted hlog he)
  · obtain ⟨sig, hsig⟩ := hr.logged hlog he
    exact .inr ⟨pid, m, f, retval, p, sig, rfl, hp, hsig⟩

/-! ## The laws -/

/-- What the mask is for, of one event. -/
structure Lawful (s : State) (l : Label) (t : State) : Prop where
  /-- A blocked signal that is sent becomes pending, and nothing else happens. -/
  waits : ∀ remote pid sig p (n : ℕ), l = .kill remote pid sig → killSignal sig = n → 0 < n →
    n < nsig → n ≠ sigKill → n ≠ sigStop → s.procs (killTarget pid) = some p → p.dead = false →
    p.sigBlocked.getLsbD n = true →
    t.procs = if p.ignores n then s.procs
      else update s.procs (killTarget pid)
        (some { p with sigPending := p.sigPending ||| sigBit n })
  /-- A return enters the handler of the lowest signal that can be delivered. -/
  lowest : ∀ pid m f retval p sig, l = .ret pid m f retval → s.procs pid = some p →
    p.ring3 = true → p.dead = false → 0 < sig → sig < nsig → p.deliverable sig = true →
    (∀ low, 0 < low → low < sig → p.deliverable low = false) → p.caught sig = true →
    t.procs = update s.procs pid (some (p.entered sig)) ∧
    t.log = s.log ++ [.delivered pid sig] ∧
    ∃ m', signalOnSyscallReturn p.toSigProc m f retval = ((p.entered sig).toSigProc, m',
      some ({ f with rip := p.sigHandler sig, userRsp := frameAddr f.userRsp },
        BitVec.ofNat 64 sig))
  /-- Nothing is delivered otherwise, and nothing that is blocked. -/
  only : ∀ pid sig es, t.log = s.log ++ es → Event.delivered pid sig ∈ es →
    ∃ m f retval p, l = .ret pid m f retval ∧ s.procs pid = some p ∧
      p.deliverable sig = true ∧ p.caught sig = true
  /-- A signal with a handler is not dropped. -/
  keeps : ∀ pid sig es, t.log = s.log ++ es → Event.dropped pid sig ∈ es →
    ∃ p, s.procs pid = some p ∧ p.caught sig = false
  /-- `SIGKILL` works whatever is blocked. -/
  kills : ∀ remote pid sig p, l = .kill remote pid sig → killSignal sig = sigKill →
    killTarget pid ≠ 0 → s.procs (killTarget pid) = some p →
    ∃ q, t.procs (killTarget pid) = some q ∧ q.dead = true

theorem procSendSignal_blocked (hpos : 0 < n) (hlt : n < nsig) (hkill : n ≠ sigKill)
    (hstop : n ≠ sigStop) (hp : s.procs pid = some p) (hlive : p.dead = false)
    (hdfl : p.sigHandler n = sigDfl → sigDefaultIgnore n = true) :
    procSendSignal s remote pid n = if p.ignores n then s else s.post pid p n := by
  have hrange : ¬((n : ℤ) ≤ 0 ∨ (nsig : ℤ) ≤ n) := by omega
  have hcatch : p.ignores n ≠ true → p.sigHandler n ≠ sigDfl := fun hign hd =>
    hign (by simp [Proc.ignores, hd, hdfl hd])
  have huncatch : ¬sigUncatchable n = true := by simp [sigUncatchable, hkill, hstop]
  simp only [procSendSignal, if_neg hrange, Int.toNat_natCast, hp, hlive, Bool.false_eq_true,
    if_false, if_neg hkill, if_neg huncatch]
  by_cases hign : p.ignores n = true
  · rw [if_pos hign, if_pos hign]
  -- what is neither ignored nor at its default action has a handler
  · rw [if_neg hign, if_neg hign, if_neg (hcatch hign)]

theorem sendSigchld_dead (hp : s.procs pid = some p) (hdead : p.dead = true) :
    (sendSigchld s parent).procs pid = some p := by
  unfold sendSigchld
  split
  · exact hp
  next q hq =>
  split_ifs with hlive
  · exact hp
  have hne : pid ≠ parent := by
    rintro rfl
    cases hp.symm.trans hq
    exact hlive (.inl hdead)
  simpa [State.post, hne] using hp

/-- `proc_kill` leaves its target dead. -/
theorem procKill_dead (h : Inv s) (hpid : pid ≠ 0) (hp : s.procs pid = some p) :
    ∃ q, (procKill s remote pid p).procs pid = some q ∧ q.dead = true := by
  unfold procKill procExit
  split_ifs with hno _ hexit
  · exact ⟨p, hp, h.exited pid p hp (hno.resolve_left hpid)⟩
  · exact ⟨_, update_self .., rfl⟩
  · exact absurd (.inr hexit) hno
  · exact ⟨_, sendSigchld_dead (update_self ..) rfl, rfl⟩
  · exact ⟨_, update_self .., rfl⟩

theorem procSendSignal_kill (h : Inv s) (hpid : pid ≠ 0) (hp : s.procs pid = some p) :
    ∃ q, (procSendSignal s remote pid sigKill).procs pid = some q ∧ q.dead = true := by
  unfold procSendSignal
  rw [if_neg (by decide)]
  rw [Int.toNat_natCast, hp]
  dsimp only
  split
  · next hdead => exact ⟨p, hp, hdead⟩
  · exact procKill_dead h hpid hp

/-- `proc_exit` sends `SIGCHLD` as everybody else does. -/
theorem procSendSignal_sigChld (s : State) (remote : Bool) (pid : ℕ) :
    procSendSignal s remote pid sigChld = sendSigchld s pid := by
  unfold sendSigchld
  cases hp : s.procs pid with
  | none => simp [procSendSignal, hp, nsig]
  | some p =>
    cases hdead : p.dead with
    | true => simp [procSendSignal, hp, hdead]
    | false =>
      rw [procSendSignal_blocked (by decide) (by decide) (by decide) (by decide) hp hdead
        fun _ => rfl]
      simp [hdead]

/-- **One event under the guard.** -/
theorem Inv.lawful (h : Inv s) (hg : Guard s l) (hstep : Step s l t) : Lawful s l t where
  waits := by
    rintro remote pid sig p n rfl hn hpos hlt hkill hstop hp hlive hblocked
    cases hstep
    simp only [Signal.sysKill, hp, hn, if_neg (show (n : ℤ) ≠ 0 by omega),
      procSendSignal_blocked hpos hlt hkill hstop hp hlive (hg.2 p n hp hn hkill hblocked)]
    split <;> rfl
  lowest := by
    rintro pid m f retval p sig rfl hp hring hlive hpos hlt hdel hlow hcaught
    obtain ⟨p', hp', hr⟩ := returned_of_syscallReturn hstep
    obtain rfl := Option.some.inj (hp'.symm.trans hp)
    have hpick := pickSignal_eq_some.mpr ⟨hdel, hpos, hlt, hlow⟩
    cases hr with
    | idle hno => simp [hno ⟨hring, hlive⟩] at hpick
    | delivered hpick' _ hframe =>
      obtain rfl := Option.some.inj (hpick'.symm.trans hpick)
      exact ⟨rfl, rfl, hframe⟩
    | dropped hpick' hun =>
      obtain rfl := Option.some.inj (hpick'.symm.trans hpick)
      simp [hcaught] at hun
  only := by
    intro pid sig es hlog hmem
    obtain ⟨_, _, ⟨⟩⟩ | ⟨_, m, f, retval, p, _, rfl, hp, hdel, ⟨⟨⟩, hcaught⟩ | ⟨⟨⟩, -⟩⟩ :=
      Step.logged hstep hlog hmem
    exact ⟨m, f, retval, p, rfl, hp, hdel, hcaught⟩
  keeps := by
    intro pid sig es hlog hmem
    obtain ⟨_, _, ⟨⟩⟩ | ⟨_, _, _, _, p, _, -, hp, -, ⟨⟨⟩, -⟩ | ⟨⟨⟩, hcaught⟩⟩ :=
      Step.logged hstep hlog hmem
    exact ⟨p, hp, hcaught⟩
  kills := by
    rintro remote pid sig p rfl hn hpid hp
    cases hstep
    simp only [Signal.sysKill, hp, hn]
    exact procSendSignal_kill h hpid hp

/-! ## Runs -/

/-- **Blocked signals wait.**  In every run in which no signal is sent to a process that blocks it
and has left it at a default action other than to ignore it, and no `SIGSTOP`: of each signal of
each process, the number of times it became pending is the number of times it was delivered or
dropped, plus one if it is pending now; and every event keeps the laws of `Lawful` — a blocked
signal that is sent only becomes pending, a return enters the handler of the lowest signal that can
be delivered, nothing else is delivered, nothing with a handler is dropped, and `SIGKILL` kills. -/
theorem blocked_signals_wait {s₀ s : State} {ls : List Label} (h₀ : Initial s₀)
    (hrun : Run Step Guard s₀ ls s) :
    (∀ pid p sig, s.procs pid = some p → sig < nsig →
      s.log.count (.posted pid sig) = s.log.count (.delivered pid sig) +
        s.log.count (.dropped pid sig) + (p.sigPending.getLsbD sig).toNat) ∧
    ∀ l t, Guard s l → Step s l t → Lawful s l t := by
  have h : Inv s := hrun.invariant h₀.inv fun _ _ _ hi _ hs => hi.step hs
  exact ⟨h.balance, fun l t hg hs => h.lawful hg hs⟩

/-- A process with default dispositions, and its parent. -/
def child : Proc where
  ring3 := true
  dead := false
  sigPending := 0
  sigBlocked := 0
  sigHandler := fun _ => sigDfl
  sigMask := fun _ => 0
  parentPid := 0
  exiting := false

/-- One process with id 5. -/
def oneProc : State where
  procs := fun pid => if pid = 5 then some child else none
  log := []

theorem oneProc_initial : Initial oneProc where
  procs := by
    intro pid p hp
    simp only [oneProc] at hp
    split_ifs at hp
    cases hp
    exact ⟨rfl, rfl⟩
  log := rfl

/-- A frame of a system call, and memory that is all zero. -/
def plainFrame : RetFrame := ⟨0x202, 0x400100, 0x7fff0000⟩
def zeroMemory : Memory := .ofBytes fun _ => 0

/-- Process 5 installs a handler for `SIGTERM`, blocks it, and is sent it twice; it unblocks it, and
the system call returns to the handler, once. -/
theorem sigterm_waits : ∃ s, Run Step Guard oneProc
        [.sigaction 5 15 (some (0x400000, 0)), .sigprocmask 5 1 (some (sigBit 15)),
          .kill false 5 15, .kill false 5 15, .ret 5 zeroMemory plainFrame 0,
          .sigprocmask 5 2 (some (sigBit 15)), .ret 5 zeroMemory plainFrame 0] s ∧
      s.log = [.posted 5 15, .delivered 5 15] ∧
      ∀ p, s.procs 5 = some p → s.log.count (.posted 5 15) = s.log.count (.delivered 5 15) +
          s.log.count (.dropped 5 15) + (p.sigPending.getLsbD 15).toNat := by
  have hguard : ∀ s p, s.procs 5 = some p → p.sigHandler 15 = 0x400000 →
      Guard s (.kill false 5 15) := by
    intro s p hp hhandler
    refine ⟨by decide, ?_⟩
    intro q n hq hn _ _ hdfl
    have hn15 : n = 15 := by
      have : killSignal 15 = 15 := by decide
      omega
    subst hn15
    obtain rfl := Option.some.inj (hq.symm.trans hp)
    rw [hhandler] at hdfl
    exact absurd hdfl (by decide)
  have hrun : Run Step Guard oneProc
      [.sigaction 5 15 (some (0x400000, 0)), .sigprocmask 5 1 (some (sigBit 15)),
        .kill false 5 15, .kill false 5 15, .ret 5 zeroMemory plainFrame 0,
        .sigprocmask 5 2 (some (sigBit 15)), .ret 5 zeroMemory plainFrame 0] _ :=
    Run.cons trivial rfl <| Run.cons trivial rfl <| Run.cons (hguard _ _ rfl rfl) rfl <|
    Run.cons (hguard _ _ rfl rfl) rfl <| Run.cons trivial rfl <| Run.cons trivial rfl <|
    Run.cons trivial rfl .nil
  refine ⟨_, hrun, rfl, ?_⟩
  intro p hp
  exact (blocked_signals_wait oneProc_initial hrun).1 5 p 15 hp (by decide)

/-- Process 5 blocks `SIGTERM`, and is sent it: it is dead. -/
theorem blocked_default_kills : ∃ s, Run Step (fun _ _ => True) oneProc
        [.sigprocmask 5 1 (some (sigBit 15)), .kill false 5 15] s ∧
      (s.procs 5).map (·.sigBlocked.getLsbD 15) = some true ∧
      (s.procs 5).map (·.dead) = some true ∧ s.log = [] :=
  ⟨_, Run.cons trivial rfl <| Run.cons trivial rfl .nil, by decide, by decide, rfl⟩

end Xos.Signal
