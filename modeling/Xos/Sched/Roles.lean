import Xos.Sched.Steps

/-!
# The role of a process

The scheduler has no record of what a process is being used for; it is spread over
the process's `state`, the ready queues, every CPU's `current_proc` and what the
CPUs are in the middle of.  `view` collects what the machine holds about one
process, and `Fits` lists the few combinations that make sense, one constructor per
role.  `Inv` says that every process has a role.

All of a role's conditions are about one process, so a step only has to account for
the processes it touches: `view_congr` carries the others over.

* `Fits` — the roles, `Inv` — the invariant;
* `Fits.single`, `Fits.of_linked`, `Fits.of_waits` — what the roles exclude;
* `Inv.booted` — it holds after boot.
-/

namespace Xos.Sched

open Xos.Lib

variable {n : ℕ} {a : Act} {p : ProcId} {k : After} {L : Prio → List ProcId} {s : Machine n}
  {c : Fin n}

/-- `READY` or `BLOCKED`. -/
def ProcState.waits (st : ProcState) : Prop := st = .ready ∨ st = .blocked

/-- What a CPU is in the middle of with a process. -/
inductive Hold where
  | saving
  | enterExit (k : After)
  | inExit (stage : ExitStage) (k : After)
  | creating
  deriving DecidableEq, Repr

/-- What an activity has to do with `p`. -/
def Act.on (p : ProcId) : Act → Option Hold
  | .saving x => if x = p then some .saving else none
  | .enterExit x k => if x = p then some (.enterExit k) else none
  | .inExit x st k => if x = p then some (.inExit st k) else none
  | .creating x => if x = p then some .creating else none
  | .run | .mustYield | .mustPick => none

/-- Everything the machine holds about one process. -/
@[ext] structure View (n : ℕ) where
  proc : Proc
  linked : Prio → Prop
  current : Fin n → Prop
  idle : Fin n → Prop
  hold : Fin n → Option Hold

/-- The view of `p`, with `L` for the contents of the queues. -/
def view (s : Machine n) (L : Prio → List ProcId) (p : ProcId) : View n where
  proc := s.procs p
  linked q := p ∈ L q
  current c := s.current c = some p
  idle c := s.idle c = some p
  hold c := (s.act c).on p

/-- Current on no CPU, in no queue, and no CPU's idle process. -/
structure View.Aside (v : View n) : Prop where
  off : ∀ c, ¬ v.current c
  unlinked : ∀ q, ¬ v.linked q
  user : ∀ c, ¬ v.idle c

theorem View.Aside.keep {v : View n} (h : v.Aside) {proc : Proc} {hold : Fin n → Option Hold} :
    View.Aside ⟨proc, v.linked, v.current, v.idle, hold⟩ := ⟨h.off, h.unlinked, h.user⟩

/-- The only CPU in the middle of something with the process is `o`, which saves
its context. -/
structure View.SavedBy (v : View n) (o : Option (Fin n)) : Prop where
  flag : v.proc.switching = o.isSome
  hold : ∀ c, v.hold c = if o = some c then some .saving else none

/-- The roles.  `lock` is the CPU that is inside a scheduling section, if one is. -/
inductive Fits (lock : Option (Fin n)) (v : View n) : Prop
  /-- A slot that `proc_create` may hand out. -/
  | free (aside : v.Aside) (state : v.proc.state = .dead) (reaped : v.proc.reaped = true)
      (saved : v.SavedBy none)
  /-- Between `proc_create` and `proc_make_ready`, on CPU `c`. -/
  | fresh (c : Fin n) (aside : v.Aside) (state : v.proc.state = .dead)
      (reaped : v.proc.reaped = false) (exiting : v.proc.exiting = false)
      (pid : v.proc.pid ≠ 0) (switching : v.proc.switching = false)
      (hold : ∀ c', v.hold c' = if c' = c then some .creating else none)
  /-- Linked in the queue of its priority. -/
  | queued (o : Option (Fin n)) (off : ∀ c, ¬ v.current c) (user : ∀ c, ¬ v.idle c)
      (state : v.proc.state.waits) (exiting : v.proc.exiting = false) (pid : v.proc.pid ≠ 0)
      (linked : ∀ q, v.linked q ↔ q = queueOf v.proc.priority) (saved : v.SavedBy o)
  /-- Linked, but still current on the CPU `c` that is giving it up. -/
  | yielding (c : Fin n) (locked : lock = some c) (current : ∀ c', v.current c' ↔ c' = c)
      (user : ∀ c, ¬ v.idle c) (state : v.proc.state.waits) (exiting : v.proc.exiting = false)
      (pid : v.proc.pid ≠ 0) (linked : ∀ q, v.linked q ↔ q = queueOf v.proc.priority)
      (saved : v.SavedBy none)
  /-- A user process on CPU `c`; `DEAD` once another CPU killed it or it exits. -/
  | running (c : Fin n) (current : ∀ c', v.current c' ↔ c' = c) (user : ∀ c, ¬ v.idle c)
      (unlinked : ∀ q, ¬ v.linked q) (pid : v.proc.pid ≠ 0)
      (state : v.proc.state = .running ∧ v.proc.exiting = false ∨
        v.proc.state = .dead ∧ v.proc.reaped = false)
      (switching : v.proc.switching = false) (others : ∀ c', c' ≠ c → v.hold c' = none)
      (hold : v.hold c = none ∨ (∃ k, k ≠ .ret ∧ v.hold c = some (.enterExit k)) ∨
        v.proc.exiting = true ∧ ∃ st k, v.hold c = some (.inExit st k))
  /-- The idle process of CPU `c`, running or not. -/
  | idling (c : Fin n) (idle : ∀ c', v.idle c' ↔ c' = c) (current : ∀ c', v.current c' → c' = c)
      (unlinked : ∀ q, ¬ v.linked q) (pid : v.proc.pid = 0) (state : v.proc.state = .running)
      (exiting : v.proc.exiting = false) (o : Option (Fin n)) (mine : ∀ c', o = some c' → c' = c)
      (away : v.current c → o = none) (saved : v.SavedBy o)
  /-- Unlinked by a `proc_kill` that has not yet called `proc_exit`. -/
  | doomed (aside : v.Aside) (state : v.proc.state.waits) (exiting : v.proc.exiting = false)
      (pid : v.proc.pid ≠ 0) (switching : v.proc.switching = false)
      (killer : ∃ c, v.hold c = some (.enterExit .ret))
      (hold : ∀ c, v.hold c = none ∨ v.hold c = some (.enterExit .ret))
  /-- In the `proc_exit` that CPU `c` runs on another's process. -/
  | dying (c : Fin n) (aside : v.Aside) (state : v.proc.state = .dead)
      (exiting : v.proc.exiting = true) (reaped : v.proc.reaped = false) (pid : v.proc.pid ≠ 0)
      (switching : v.proc.switching = false) (hold : ∃ st k, v.hold c = some (.inExit st k))
      (others : ∀ c', c' ≠ c → v.hold c' = none ∨ v.hold c' = some (.enterExit .ret))
  /-- Dead and off every CPU, waiting for its parent. -/
  | gone (o : Option (Fin n)) (aside : v.Aside) (state : v.proc.state = .dead)
      (reaped : v.proc.reaped = false) (pid : v.proc.pid ≠ 0)
      (flag : v.proc.switching = o.isSome)
      (hold : ∀ c, if o = some c then v.hold c = some .saving else
        v.hold c = none ∨ v.hold c = some (.enterExit .ret) ∧ v.proc.exiting = true)

/-- **The scheduler's invariant**: the words are three lists, every process has a
role, and a slot under construction names the process that constructs it. -/
structure Inv (lock : Option (Fin n)) (s : Machine n) (L : Prio → List ProcId) : Prop where
  queues : Queues s.links L
  fits : ∀ p, Fits lock (view s L p)
  prio : ∀ p, (s.procs p).priority < 3
  pids : ∀ p, (s.procs p).pid = 0 ∨ (s.procs p).pid = p
  current : ∀ c, ∃ p, s.current c = some p
  idle : ∀ c, ∃ i, s.idle c = some i
  parent : ∀ c p, s.act c = .creating p → (s.procs p).parentPid = 0 ∨
    ∃ cur, s.current c = some cur ∧ (s.procs p).parentPid = (s.procs cur).pid

/-! ## Views that a step does not touch -/

section

variable (x p : ProcId)

@[simp] theorem Act.on_saving : (Act.saving x).on p = if x = p then some .saving else none := rfl
@[simp] theorem Act.on_enterExit (k : After) :
    (Act.enterExit x k).on p = if x = p then some (.enterExit k) else none := rfl
@[simp] theorem Act.on_inExit (st : ExitStage) (k : After) :
    (Act.inExit x st k).on p = if x = p then some (.inExit st k) else none := rfl
@[simp] theorem Act.on_creating :
    (Act.creating x).on p = if x = p then some .creating else none := rfl
@[simp] theorem Act.on_run : Act.run.on p = none := rfl
@[simp] theorem Act.on_mustYield : Act.mustYield.on p = none := rfl
@[simp] theorem Act.on_mustPick : Act.mustPick.on p = none := rfl

end

theorem Act.on_eq_saving : a.on p = some .saving ↔ a = .saving p := by
  cases a <;> simp

theorem Act.on_eq_enterExit : a.on p = some (.enterExit k) ↔ a = .enterExit p k := by
  cases a <;> simp

theorem Act.on_eq_inExit : a.on p = some (.inExit st k) ↔ a = .inExit p st k := by
  cases a <;> simp

theorem Act.on_eq_creating : a.on p = some .creating ↔ a = .creating p := by
  cases a <;> simp

/-- The view of `p` only depends on what the machine holds about `p`. -/
theorem view_congr (hproc : s'.procs p = s.procs p) (hL : ∀ q, p ∈ L' q ↔ p ∈ L q)
    (hcur : ∀ c, s'.current c = some p ↔ s.current c = some p) (hidle : s'.idle = s.idle)
    (hhold : ∀ c, (s'.act c).on p = (s.act c).on p) :
    view s' L' p = view s L p := by
  all_goals simp [view, hproc, hL, hcur, hidle, hhold]

theorem view_setProc_self (s : Machine n) (L : Prio → List ProcId) (p : ProcId) (v : Proc) :
    view (s.setProc p v) L p = { view s L p with proc := v } := by
  simp [view]

theorem view_setProc_of_ne (h : p ≠ x) : view (s.setProc x v) L p = view s L p := by
  simp [view, h]

/-- Changing what CPU `c` does is seen by the processes it was and is busy with. -/
theorem view_setAct_of_ne (h : a.on p = (s.act c).on p) : view (s.setAct c a) L p = view s L p := by
  refine view_congr rfl (fun _ => Iff.rfl) (fun _ => Iff.rfl) rfl (fun c' => ?_)
  by_cases hc : c' = c
  · subst hc; simp [h]
  · simp [hc]

theorem view_setAct_self (s : Machine n) (L : Prio → List ProcId) (p : ProcId) (c : Fin n)
    (a : Act) : view (s.setAct c a) L p =
      { view s L p with hold := Function.update (view s L p).hold c (a.on p) } := by
  ext c'
  all_goals try rfl
  by_cases hc : c' = c
  · subst hc; simp [view]
  · simp [view, hc]

/-! ## What the roles exclude -/

section Exclude

variable {lock : Option (Fin n)} {v : View n}

/-- A role depends on the section only while its CPU gives the process up. -/
theorem Fits.relock (h : Fits lock v) (hl : ∀ c, lock = some c → v.current c → lock' = some c) :
    Fits lock' v := by
  cases h with
  | free h₁ h₂ h₃ h₄ => exact .free h₁ h₂ h₃ h₄
  | fresh c h₁ h₂ h₃ h₄ h₅ h₆ h₇ => exact .fresh c h₁ h₂ h₃ h₄ h₅ h₆ h₇
  | queued o h₁ h₂ h₃ h₄ h₅ h₆ h₇ => exact .queued o h₁ h₂ h₃ h₄ h₅ h₆ h₇
  | yielding c h₁ h₂ h₃ h₄ h₅ h₆ h₇ h₈ =>
    exact .yielding c (hl c h₁ ((h₂ c).2 rfl)) h₂ h₃ h₄ h₅ h₆ h₇ h₈
  | running c h₁ h₂ h₃ h₄ h₅ h₆ h₇ h₈ => exact .running c h₁ h₂ h₃ h₄ h₅ h₆ h₇ h₈
  | idling c h₁ h₂ h₃ h₄ h₅ h₆ o h₇ h₈ h₉ => exact .idling c h₁ h₂ h₃ h₄ h₅ h₆ o h₇ h₈ h₉
  | doomed h₁ h₂ h₃ h₄ h₅ h₆ h₇ => exact .doomed h₁ h₂ h₃ h₄ h₅ h₆ h₇
  | dying c h₁ h₂ h₃ h₄ h₅ h₆ h₇ h₈ => exact .dying c h₁ h₂ h₃ h₄ h₅ h₆ h₇ h₈
  | gone o h₁ h₂ h₃ h₄ h₅ h₆ => exact .gone o h₁ h₂ h₃ h₄ h₅ h₆

/-- A role outside a section is one inside it too. -/
theorem Fits.inSection (h : Fits none v) : Fits lock v := h.relock nofun

/-- Only the current process of the CPU in its section can be yielding. -/
theorem Fits.outOfSection (h : Fits (some c) v) (hc : ¬ v.current c) : Fits none v := by
  refine h.relock fun c' hc' hcur => ?_
  cases hc'
  exact absurd hcur hc

/-- What a CPU is in the middle of with a process whose context is saved. -/
theorem View.SavedBy.of_hold (h : v.SavedBy o) (hc : v.hold c = some x) :
    x = .saving ∧ o = some c := by
  rw [h.hold c] at hc
  split at hc
  · next ho => exact ⟨(Option.some.inj hc).symm, ho⟩
  · cases hc

/-- A process is current on at most one CPU. -/
theorem Fits.single (h : Fits lock v) (hc : v.current c) (hc' : v.current c') : c = c' := by
  cases h with
  | free aside | fresh _ aside | doomed aside | dying _ aside | gone _ aside =>
    exact absurd hc (aside.off c)
  | queued _ off => exact absurd hc (off c)
  | yielding _ _ cur | running _ cur => rw [(cur c).1 hc, (cur c').1 hc']
  | idling _ _ cur => rw [cur c hc, cur c' hc']

/-- A linked process waits, only in the queue of its priority, and is at most current
on the CPU that is giving it up. -/
theorem Fits.of_linked (h : Fits lock v) (hq : v.linked q) :
    v.proc.state.waits ∧ v.proc.pid ≠ 0 ∧ v.proc.exiting = false ∧
      (∀ q', v.linked q' ↔ q' = queueOf v.proc.priority) ∧ ∀ c, v.current c → lock = some c := by
  cases h with
  | free aside | fresh _ aside | doomed aside | dying _ aside | gone _ aside =>
    exact absurd hq (aside.unlinked q)
  | queued _ off _ state exiting pid linked =>
    exact ⟨state, pid, exiting, linked, fun c hc => absurd hc (off c)⟩
  | yielding c locked current _ state exiting pid linked =>
    exact ⟨state, pid, exiting, linked, fun c' hc' => by rw [locked, (current c').1 hc']⟩
  | running _ _ _ unlinked | idling _ _ _ unlinked => exact absurd hq (unlinked q)

/-- At most a context switch is under way for a linked process. -/
theorem Fits.hold_of_linked (h : Fits lock v) (hq : v.linked q) (c : Fin n) :
    v.hold c = none ∨ v.hold c = some .saving := by
  cases h with
  | queued o _ _ _ _ _ _ saved =>
    rw [saved.hold c]
    split
    · exact .inr rfl
    · exact .inl rfl
  | yielding _ _ _ _ _ _ _ _ saved => exact .inl (by simpa using saved.hold c)
  | free aside | fresh _ aside | doomed aside | dying _ aside | gone _ aside =>
    exact absurd hq (aside.unlinked q)
  | running _ _ _ unlinked | idling _ _ _ unlinked => exact absurd hq (unlinked q)

/-- A waiting process is linked in the queue of its priority, or in the hands of a
`proc_kill`. -/
theorem Fits.of_waits (h : Fits lock v) (hw : v.proc.state.waits) :
    (∀ q, v.linked q ↔ q = queueOf v.proc.priority) ∨ ∃ c, v.hold c = some (.enterExit .ret) := by
  cases h with
  | queued _ _ _ _ _ _ linked | yielding _ _ _ _ _ _ _ linked => exact .inl linked
  | doomed _ _ _ _ _ killer => exact .inr killer
  | running _ _ _ _ _ state =>
    rcases hw with hw | hw <;> rcases state with ⟨h, -⟩ | ⟨h, -⟩ <;> rw [hw] at h <;> cases h
  | free _ state | fresh _ _ state | idling _ _ _ _ _ state | dying _ _ state
  | gone _ _ state => rcases hw with hw | hw <;> rw [hw] at state <;> cases state

/-- Outside a section, what is current does not wait. -/
theorem Fits.of_current (h : Fits none v) (hc : v.current c) :
    v.proc.state = .running ∨ v.proc.state = .dead := by
  cases h with
  | free aside | fresh _ aside | doomed aside | dying _ aside | gone _ aside =>
    exact absurd hc (aside.off c)
  | queued _ off => exact absurd hc (off c)
  | yielding _ h => cases h
  | running _ _ _ _ _ state => exact state.imp And.left And.left
  | idling _ _ _ _ _ state => exact .inl state

/-- A process whose exit is claimed is dead. -/
theorem Fits.dead_of_exiting (h : Fits lock v) (he : v.proc.exiting = true) :
    v.proc.state = .dead := by
  cases h with
  | free _ state | dying _ _ state | gone _ _ state => exact state
  | running _ _ _ _ _ state =>
    rcases state with ⟨-, h⟩ | ⟨h, -⟩
    · rw [he] at h; cases h
    · exact h
  | fresh _ _ _ _ exiting | queued _ _ _ _ exiting | yielding _ _ _ _ _ exiting
  | idling _ _ _ _ _ _ exiting | doomed _ _ exiting => rw [he] at exiting; cases exiting

/-- An idle process always runs and is in no queue. -/
theorem Fits.of_idle (h : Fits lock v) (hi : v.idle c) :
    v.proc.state = .running ∧ v.proc.pid = 0 ∧ ∀ q, ¬ v.linked q := by
  cases h with
  | idling _ _ _ unlinked pid state => exact ⟨state, pid, unlinked⟩
  | free aside | fresh _ aside | doomed aside | dying _ aside | gone _ aside =>
    exact absurd hi (aside.user c)
  | queued _ _ user | yielding _ _ _ user | running _ _ user => exact absurd hi (user c)

/-- What is current inside a section can go on, or is a user process that cannot. -/
theorem Fits.current_cases (h : Fits lock v) (hc : v.current c) :
    v.proc.state = .running ∧ Fits none v ∨ v.proc.pid ≠ 0 ∧ v.proc.state ≠ .running ∧
        (v.proc.state = .ready → (∃ q, v.linked q) ∧ v.proc.switching = false) := by
  cases h with
  | yielding _ _ _ _ state _ pid linked saved =>
    refine .inr ⟨pid, fun hr => ?_, fun _ => ⟨⟨_, (linked _).2 rfl⟩, saved.flag⟩⟩
    rcases state with h | h <;> rw [hr] at h <;> cases h
  | running c₀ current user unlinked pid state switching others hold =>
    rcases state with ⟨hs, hexit⟩ | ⟨hs, -⟩
    · exact .inl ⟨hs, .running c₀ current user unlinked pid (.inl ⟨hs, hexit⟩) switching others
        hold⟩
    · exact .inr ⟨pid, by rw [hs]; decide, by rw [hs]; exact nofun⟩
  | idling c₀ idle current unlinked pid state exiting o mine away saved =>
    exact .inl ⟨state, .idling c₀ idle current unlinked pid state exiting o mine away saved⟩
  | free aside | fresh _ aside | doomed aside | dying _ aside | gone _ aside =>
    exact absurd hc (aside.off c)
  | queued _ off => exact absurd hc (off c)

end Exclude

namespace Inv

variable {lock : Option (Fin n)} {s : Machine n} {L : Prio → List ProcId}

theorem inSection (h : Inv none s L) : Inv lock s L :=
  { h with fits := fun p => (h.fits p).inSection }

/-- `READY` and `BLOCKED` processes outside a `proc_kill` are linked. -/
theorem linked_of_waits (h : Inv lock s L) (hw : (s.procs p).state.waits)
    (hk : ∀ c, s.act c ≠ .enterExit p .ret) : p ∈ L (queueOf (s.procs p).priority) := by
  rcases (h.fits p).of_waits hw with hl | ⟨c, hc⟩
  · exact (hl _).2 rfl
  · exact absurd (Act.on_eq_enterExit.1 hc) (hk c)

/-- No CPU is about to run `proc_exit` on a linked process. -/
theorem not_linked_of_enterExit (h : Inv lock s L) (hc : s.act c = .enterExit p k) (q : Prio) :
    p ∉ L q := by
  intro hq
  have hhold : (view s L p).hold c = some (.enterExit k) := Act.on_eq_enterExit.2 hc
  rcases (h.fits p).hold_of_linked hq c with h' | h' <;> rw [hhold] at h' <;> cases h'

end Inv

/-! ## After boot -/

/-- **Boot.**  The state the kernel starts its CPUs in meets the invariant, with
empty queues. -/
theorem Inv.booted (h : Booted s) : Inv none s (fun _ => []) where
  queues := by
    refine ⟨fun q => ?_, fun _ => List.nodup_nil, fun _ _ _ hp => by simp at hp⟩
    exact h.empty _
  fits p := by
    have hz := h.zeroed p
    have hsaved : (view s (fun _ => []) p).SavedBy none :=
      ⟨hz.2.2.1, fun c => by simp [view, h.act c]⟩
    by_cases hp : ∃ c, s.idle c = some p
    · obtain ⟨c, hc⟩ := hp
      obtain ⟨i, hi, hcur, hpid, hst⟩ := h.idle c
      obtain rfl : i = p := Option.some.inj (hi.symm.trans hc)
      refine .idling c (fun c' => ⟨fun hc' => h.distinct c' c i hc' hi, ?_⟩) ?_ (by simp [view])
        hpid hst hz.2.1 none (by simp) (fun _ => rfl) hsaved
      · rintro rfl; exact hi
      · intro c' hc'
        obtain ⟨j, hj, hjcur, -⟩ := h.idle c'
        obtain rfl : j = i := Option.some.inj (hjcur.symm.trans hc')
        exact h.distinct c' c j hj hi
    · push Not at hp
      obtain ⟨hdead, hreaped⟩ := h.free p hp
      refine .free ⟨fun c hc => ?_, by simp [view], hp⟩ hdead hreaped hsaved
      obtain ⟨i, hi, hcur, -⟩ := h.idle c
      exact hp c (hi.trans (hcur.symm.trans hc))
  prio p := by rw [(h.zeroed p).2.2.2]; decide
  pids p := .inl (h.zeroed p).1
  current c := by
    obtain ⟨i, -, hi, -⟩ := h.idle c
    exact ⟨i, hi⟩
  idle c := by
    obtain ⟨i, hi, -⟩ := h.idle c
    exact ⟨i, hi⟩
  parent c p hc := by rw [h.act c] at hc; cases hc

end Xos.Sched
