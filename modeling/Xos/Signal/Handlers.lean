import Xos.Signal.Pending

/-!
# Where handlers come from

A handler is entered when a system call returns, at the address that `sigaction` left in the
process.  No other call touches that address, so along a run it can be traced back:

* **One event** — `Step.handlers`: only a `sigaction` of the process itself changes a disposition,
  and only that of its own signal;
* **A run** — `entered_installed`: from a state in which a process catches nothing, every handler
  that it enters was installed on the way.
-/

namespace Xos.Signal

open Xos.Lib Function

variable {s t : State} {pid : ℕ} {p q : Proc} {f : RetFrame} {m : Memory} {retval : Word}

/-! ## Calls that leave the dispositions alone -/

/-- Every process of `t` has the handlers that it had in `s`. -/
def SameHandlers (s t : State) : Prop :=
  ∀ pid q, t.procs pid = some q → ∃ p, s.procs pid = some p ∧ q.sigHandler = p.sigHandler

theorem SameHandlers.refl (s : State) : SameHandlers s s := fun _ q hq => ⟨q, hq, rfl⟩

theorem SameHandlers.trans (h : SameHandlers s t) (h' : SameHandlers t u) : SameHandlers s u := by
  intro pid r hr
  obtain ⟨q, hq, hrq⟩ := h' pid r hr
  obtain ⟨p, hp, hqp⟩ := h pid q hq
  exact ⟨p, hp, hrq.trans hqp⟩

theorem SameHandlers.update (hp : s.procs pid = some p)
    (ht : t.procs = update s.procs pid (some q)) (hq : q.sigHandler = p.sigHandler) :
    SameHandlers s t := by
  intro i r hr
  rw [ht] at hr
  by_cases hi : i = pid
  · subst hi
    rw [update_self] at hr
    cases hr
    exact ⟨p, hp, hq⟩
  · rw [update_of_ne hi] at hr
    exact ⟨r, hr, rfl⟩

theorem sameHandlers_closed (s₀ : State) : Closed (SameHandlers s₀) where
  post h hp _ := h.trans (.update hp rfl rfl)
  dies _ h hp := h.trans (.update hp rfl rfl)

theorem sameHandlers_onProc (hg : ∀ p, (g p).sigHandler = p.sigHandler)
    (ht : onProc s pid g = some t) : SameHandlers s t := by
  obtain ⟨p, hp, rfl⟩ := Option.map_eq_some_iff.mp ht
  exact .update hp rfl (hg _)

theorem Returned.sameHandlers (hp : s.procs pid = some p) (h : Returned s pid p m f retval t) :
    SameHandlers s t := by
  cases h with
  | idle | delivered | dropped => exact .update hp rfl rfl

theorem sysSigaction_handler (p : SigProc) (signum : ℕ) (act : Option (Word × Word)) (sig : ℕ) :
    (sysSigaction p signum act).sigHandler sig = p.sigHandler sig ∨
      sig = signum ∧ ∃ mask, act = some ((sysSigaction p signum act).sigHandler sig, mask) := by
  unfold sysSigaction
  split
  · exact .inl rfl
  split
  · exact .inl rfl
  cases act with
  | none => exact .inl rfl
  | some a =>
    by_cases hs : sig = signum
    · subst hs
      exact .inr ⟨rfl, a.2, by simp⟩
    · exact .inl (update_of_ne hs _ _)

/-- **One event.**  A disposition is what it was, or what the process asked for. -/
theorem Step.handlers (hstep : Step s l t) (hq : t.procs pid = some q) (sig : ℕ) :
    ∃ p, s.procs pid = some p ∧ (q.sigHandler sig = p.sigHandler sig ∨
      ∃ mask, l = .sigaction pid sig (some (q.sigHandler sig, mask))) := by
  have hsame : SameHandlers s t → ∃ p, s.procs pid = some p ∧ (q.sigHandler sig = p.sigHandler sig ∨
        ∃ mask, l = .sigaction pid sig (some (q.sigHandler sig, mask))) := by
    intro h
    obtain ⟨p, hp, hpq⟩ := h pid q hq
    exact ⟨p, hp, .inl (congrFun hpq sig)⟩
  unfold Step at hstep
  cases l with
  | kill remote target signo =>
    cases hstep
    exact hsame ((sameHandlers_closed s).sysKill (.refl s) remote target signo)
  | exit =>
    obtain ⟨p, hp, rfl⟩ := Option.map_eq_some_iff.mp hstep
    exact hsame ((sameHandlers_closed s).procExit (.refl s) hp)
  | sigaction i signum act =>
    obtain ⟨p, hp, rfl⟩ := Option.map_eq_some_iff.mp hstep
    by_cases hi : pid = i
    · subst hi
      simp only [State.setProc, update_self, Option.some.injEq] at hq
      subst hq
      refine ⟨p, hp, ?_⟩
      rcases sysSigaction_handler p.toSigProc signum act sig with heq | ⟨rfl, mask, hact⟩
      · exact .inl heq
      · exact .inr ⟨mask, by rw [← hact]⟩
    · refine ⟨q, ?_, .inl rfl⟩
      simpa [State.setProc, hi] using hq
  | sigprocmask | sigsuspend | sigreturn =>
    simp only [exec] at hstep
    refine hsame (sameHandlers_onProc (fun p => ?_) hstep)
    simp only [sysSigprocmask, sysSigsuspend, sysSigreturn]
    repeat' split
    all_goals rfl
  | ret =>
    obtain ⟨p, hp, hr⟩ := returned_of_syscallReturn hstep
    exact hsame (hr.sameHandlers hp)

/-! ## Runs -/

/-- The process has no handlers. -/
def CatchesNone (s : State) (pid : ℕ) : Prop :=
  ∀ p sig, s.procs pid = some p → p.sigHandler sig = sigDfl ∨ p.sigHandler sig = sigIgn

/-- The signal and the address of the handler that a return of the process enters. -/
def handlerEntered (s : State) (pid : ℕ) (m : Memory) (f : RetFrame) (retval : Word) :
    Option (ℕ × Word) :=
  match s.procs pid with
  | none => none
  | some p =>
    match (signalOnSyscallReturn p.toSigProc m f retval).2.2 with
    | none => none
    | some (r, signo) => if signo = 0 then none else some (signo.toNat, r.rip)

theorem handlerEntered_caught (h : handlerEntered s pid m f retval = some (sig, a)) :
    ∃ p, s.procs pid = some p ∧ p.caught sig = true ∧ a = p.sigHandler sig := by
  unfold handlerEntered at h
  split at h
  · cases h
  next p hp =>
  refine ⟨p, hp, ?_⟩
  split at h
  · cases h
  next r signo hret =>
  split at h
  · cases h
  next hsigno =>
  unfold signalOnSyscallReturn at hret
  split at hret
  · cases hret
    exact absurd rfl hsigno
  split at hret
  · cases hret
    exact absurd rfl hsigno
  next n hpick =>
  dsimp only at hret
  split at hret
  · cases hret
    exact absurd rfl hsigno
  next hcaught =>
  split at hret
  · cases hret
  split at hret
  · cases hret
    exact absurd rfl hsigno
  obtain ⟨-, -, hlt, -⟩ := pickSignal_eq_some.mp hpick
  have hval : (BitVec.ofNat 64 n).toNat = n := by
    rw [BitVec.toNat_ofNat, Nat.mod_eq_of_lt (lt_trans hlt (by decide))]
  cases hret
  rw [hval] at h
  cases h
  exact ⟨caught_iff.mpr hcaught, rfl⟩

/-- A handler that a process has was there at the start, or it was installed since. -/
theorem handler_origin (hrun : Run Step (fun _ _ => True) s ls t) (hq : t.procs pid = some q)
    (sig : ℕ) :
    (∃ p, s.procs pid = some p ∧ q.sigHandler sig = p.sigHandler sig) ∨
      ∃ mask, Label.sigaction pid sig (some (q.sigHandler sig, mask)) ∈ ls := by
  induction hrun generalizing q with
  | nil => exact .inl ⟨q, hq, rfl⟩
  | snoc _ _ hstep ih =>
    obtain ⟨p, hp, heq | ⟨mask, rfl⟩⟩ := Step.handlers hstep hq sig
    · rw [heq]
      rcases ih hp with hold | ⟨mask, hmem⟩
      · exact .inl hold
      · exact .inr ⟨mask, List.mem_append_left _ hmem⟩
    · exact .inr ⟨mask, List.mem_append_right _ (List.mem_singleton.mpr rfl)⟩

/-- **Every handler was installed.** -/
theorem entered_installed (h : CatchesNone s pid) (hrun : Run Step (fun _ _ => True) s ls t)
    (henter : handlerEntered t pid m f retval = some (sig, a)) :
    ∃ mask, Label.sigaction pid sig (some (a, mask)) ∈ ls := by
  obtain ⟨q, hq, hcaught, rfl⟩ := handlerEntered_caught henter
  rcases handler_origin hrun hq sig with ⟨p, hp, heq⟩ | hmem
  · have hnone := h p sig hp
    rw [← heq] at hnone
    exact absurd hnone (caught_iff.mp hcaught)
  · exact hmem

end Xos.Signal
