import Xos.Sched.Turns
import Xos.Sched.SharedSpace

/-!
# The start of a process

`proc_fork`, `proc_clone` and `sys_proc_spawn` from the slot they are given to the first
instruction of the new process.  The creator leaves an entry point in `rip`, a user stack pointer in
`sleep_until` and `ring3_trampoline` in `saved_ret`; the CPU that picks the process comes out of
`context_switch` in the trampoline, which enters user mode with what it finds in the two fields.
In between everything the scheduler does goes on.

* **A forked or cloned process starts, and starts once** — `creation_complete`: when the call
  returns it is `READY` and linked in the queue of its priority, or has been picked; and it enters
  user mode exactly once, with the entry point and stack pointer that were stored for it.
* `proc_spawn_ring3` leaves it to its caller to make the process ready, and `sys_proc_spawn` does
  not: `spawned_left_dead`.
* **Run-queue safety** — `runQueue_safe`: in the same runs the queues, the process table and the CPUs
  agree, and the recovery scan of `pick_next_ready` is not used.
* A thread's slot looks free while `proc_clone` fills it: it is `DEAD` and `reaped`, another CPU's
  `proc_create` may hand it out again, and then two CPUs run one process (`thread_on_two_cpus`).  Both
  theorems ask that no CPU creates a process in that moment.
-/

namespace Xos.Sched

open Xos.Lib Function

variable {n : ℕ} {l : Label n} {m' : Machine n} {g : ProcId → Kin} {p : ProcId}

/-! ## The model -/

/-- Where `context_switch` continues when it comes to a process: at the trampoline, or after its own
last switch. -/
inductive SavedRet where
  | trampoline
  | resume
  deriving DecidableEq, Repr

/-- The machine with the fields a process is started from.  `given` is what the creator of a process
meant it to start with, and `entries` what it entered user mode with so far; the kernel keeps
neither. -/
structure Launch (n : ℕ) where
  machine : Machine n
  rip : ProcId → ℕ
  savedRet : ProcId → SavedRet
  given : ProcId → Option (ℕ × ℕ)
  entries : ProcId → List (ℕ × ℕ)

/-- The steps: those of the scheduler, and the parts of the three calls. -/
inductive Op (n : ℕ) where
  | sched (l : Label n)
  /-- `proc_clone` with `CLONE_VM` takes a reference to the address space, or drops it again. -/
  | shareTables (c : Fin n) (d : ℤ)
  | procCreate (c : Fin n) (entry pml4 kstack : ℕ)
  /-- The stores of `proc_fork`. -/
  | initFork (c : Fin n) (userRip userRsp : ℕ)
  /-- The stores of `proc_clone`; `thread` is `CLONE_THREAD`. -/
  | initClone (c : Fin n) (thread : Bool) (userRip userRsp : ℕ)
  /-- The stores of `proc_spawn_ring3`: the entry point was an argument of `proc_create`. -/
  | initSpawn (c : Fin n) (userRsp : ℕ)
  | procMakeReady (c : Fin n)
  /-- `sys_proc_spawn` returns the pid. -/
  | spawnReturn (c : Fin n)
  /-- The boot CPU adopts the first process and enters user mode with it. -/
  | adopt (c : Fin n)
  /-- `context_switch` stores the old process's return address `ret` and goes to the new one. -/
  | contextSwitch (c : Fin n) (ret : ℕ)

/-- When a CPU can take a step. -/
def Op.enabled (s : Launch n) : Op n → Prop
  | .sched l => l.Routine ∧ Sched.enabled s.machine l
  | .shareTables c _ => s.machine.act c = .run ∧ userCurrent s.machine c
  | .procCreate c _ pml4 kstack => Sched.enabled s.machine (.procCreate c pml4 kstack)
  | .initFork c _ _ | .initClone c _ _ _ =>
    (s.machine.act c).created.isSome ∧ userCurrent s.machine c
  | .initSpawn c _ | .procMakeReady c | .spawnReturn c => (s.machine.act c).created.isSome
  | .adopt c => Sched.enabled s.machine (.schedAdoptCurrent c)
  | .contextSwitch c _ => (s.machine.act c).saved.isSome

/-- The creator's stores into the slot `p`. -/
def Launch.store (s : Launch n) (m : Machine n) (p : ProcId) (userRip userRsp : ℕ) : Launch n :=
  { s with
    machine := m
    rip := update s.rip p userRip
    savedRet := update s.savedRet p .trampoline
    given := update s.given p (some (userRip, userRsp)) }

/-- `proc_create` hands out the slot `i`. -/
def Launch.reserve (s : Launch n) (m : Machine n) (i : ProcId) (entry : ℕ) : Launch n :=
  { s with
    machine := m
    rip := update s.rip i entry
    given := update s.given i none
    entries := update s.entries i [] }

/-- `enter_userspace` for `p`, with its `rip` and `sleep_until`. -/
def Launch.enter (s : Launch n) (p : ProcId) : Launch n :=
  { s with
    entries := update s.entries p
      (s.entries p ++ [(s.rip p, (s.machine.procs p).sleepUntil)]) }

/-- `context_switch(old, new)`, once it has saved `old`. -/
def Launch.switch (s : Launch n) (m : Machine n) (old new : ProcId) (ret : ℕ) : Launch n :=
  let s := { s with
    machine := m
    rip := update s.rip old ret
    savedRet := update s.savedRet old .resume }
  if s.savedRet new = .trampoline then s.enter new else s

/-- The effect of a step. -/
def Launch.exec (s : Launch n) : Op n → Option (Launch n)
  | .sched l => (Sched.exec s.machine l).map fun r => { s with machine := r.1 }
  | .shareTables c d =>
    (s.machine.current c).map fun cur => { s with machine := addRef s.machine cur d }
  | .procCreate c entry pml4 kstack =>
    (Sched.exec s.machine (.procCreate c pml4 kstack)).map fun r =>
      match freeSlot s.machine with
      | some i => s.reserve r.1 i entry
      | none => { s with machine := r.1 }
  | .initFork c userRip userRsp => do
      let p ← (s.machine.act c).created
      let parent ← s.machine.current c
      some (s.store (initChild s.machine p parent userRsp) p userRip userRsp)
  | .initClone c thread userRip userRsp => do
      let p ← (s.machine.act c).created
      let parent ← s.machine.current c
      some (s.store (initClone s.machine parent p thread userRsp) p userRip userRsp)
  | .initSpawn c userRsp => do
      let p ← (s.machine.act c).created
      some (s.store (s.machine.setProc p { s.machine.procs p with sleepUntil := userRsp }) p
        (s.rip p) userRsp)
  | .procMakeReady c =>
    (Sched.exec s.machine (.procMakeReady c)).map fun r => { s with machine := r.1 }
  | .spawnReturn c => some { s with machine := s.machine.setAct c .run }
  | .adopt c => do
      let p ← (s.machine.act c).created
      let r ← Sched.exec s.machine (.schedAdoptCurrent c)
      some (Launch.enter { s with machine := r.1 } p)
  | .contextSwitch c ret => do
      let old ← (s.machine.act c).saved
      let new ← s.machine.current c
      let r ← Sched.exec s.machine (.contextSaved c)
      some (s.switch r.1 old new ret)

/-- One step. -/
def Launch.Step (s : Launch n) (o : Op n) (s' : Launch n) : Prop :=
  o.enabled s ∧ s.exec o = some s'

/-- **The guard.**  `sys_proc_spawn` does not return before somebody makes its process ready; and
no process is created while another CPU is about to make a thread ready. -/
def Launch.Guard (s : Launch n) : Op n → Prop
  | .spawnReturn _ => False
  | .procCreate .. => ∀ c p, s.machine.act c = .creating p → (s.machine.procs p).reaped = false
  | _ => True

/-- Any machine in which nothing is being taken down, seen from here on. -/
structure Launch.Initial (s : Launch n) : Prop where
  undisturbed : Undisturbed s.machine
  given : ∀ p, s.given p = none
  entries : ∀ p, s.entries p = []

/-! ## The machine without the marks of threads -/

/-- The machine is `b`, up to the fields that no pick, wake or switch looks at; and a slot is free
in one where it is free in the other, unless it is under construction. -/
structure Shadow (m : Machine n) (g : ProcId → Kin) (b : Machine n) : Prop where
  eq : m = recast g b
  und : Undisturbed b
  free : ∀ q, (b.procs q).state = .dead → (∀ c, b.act c ≠ .creating q) →
    (g q).reaped = (b.procs q).reaped

section Shadows

variable {m : Machine n} {g : ProcId → Kin} {b : Machine n} {c : Fin n} {p : ProcId}

theorem Undisturbed.shadow (h : Undisturbed b) : Shadow b (fun p => (b.procs p).kin) b :=
  ⟨(recast_self b).symm, h, fun _ _ _ => rfl⟩

section

variable (h : Shadow m g b)
include h

theorem Shadow.creating (hc : m.act c = .creating p) :
    (∀ c', m.current c' ≠ some p) ∧ (∀ c', m.act c' ≠ .saving p) ∧ (m.procs p).pid ≠ 0 ∧
      (m.procs p).state = .dead := by
  obtain ⟨rfl, hund, -⟩ := h
  obtain ⟨h₁, h₂, h₃, h₄, -⟩ := hund.creating hc
  exact ⟨h₁, h₂, h₃, h₄⟩

theorem Shadow.current_saved (hc : m.current c = some p) (c' : Fin n) : m.act c' ≠ .saving p := by
  obtain ⟨rfl, hund, -⟩ := h
  exact hund.current_saved hc c'

theorem Shadow.single (hc : m.current c = some p) (hc' : m.current c' = some p) : c = c' := by
  obtain ⟨rfl, hund, -⟩ := h
  exact hund.single hc hc'

theorem Shadow.idle_pid (hi : m.idle c = some p) : (m.procs p).pid = 0 := by
  obtain ⟨rfl, hund, -⟩ := h
  exact hund.idle_pid hi

/-- A step that neither creates nor ends a process is one of the shadow too. -/
theorem Shadow.neutral (hl : l.Neutral) (hstep : Step m l m')
    (hact : ∀ q, (∀ c, m'.act c ≠ .creating q) →
      (m'.procs q).state = .dead → ∀ c, m.act c ≠ .creating q) : ∃ b', Shadow m' g b' := by
  obtain ⟨rfl, hund, hfree⟩ := h
  obtain ⟨b', hb, rfl⟩ := step_recast hl hstep
  refine ⟨b', rfl, hund.step hb hl.plain, fun q hd hc => ?_⟩
  rw [hfree q (hund.dead_before hl.plain hb hd) (hact q hc hd)]
  exact (congrArg Kin.reaped (hb.kin hl q)).symm

/-- The free slots are the same, if no slot under construction looks free. -/
theorem Shadow.freeSlot_eq (hmarks : ∀ c p, m.act c = .creating p → (m.procs p).reaped = false) :
    freeSlot m = freeSlot b := by
  obtain ⟨rfl, hund, hfree⟩ := h
  unfold freeSlot
  congr 1
  funext q
  by_cases hd : (b.procs q).state = .dead
  · by_cases hc : ∃ c, b.act c = .creating q
    · obtain ⟨c, hc⟩ := hc
      obtain ⟨-, -, -, -, hre⟩ := hund.creating hc
      have hre' : (g q).reaped = false := hmarks c q hc
      simp [hre, hre']
    · rw [recast_procs, Proc.withKin_state, Proc.withKin_reaped, hfree q hd fun c hc' => hc ⟨c, hc'⟩]
  · simp [beq_eq_false_iff_ne.mpr hd]

end

end Shadows

/-! ## The invariant -/

/-- `p` has not started: what it is to start with is where the trampoline will find it, and a CPU
that has it current is still in `context_switch`. -/
structure Launch.Waiting (s : Launch n) (p : ProcId) (e r : ℕ) : Prop where
  entries : s.entries p = []
  ret : s.savedRet p = .trampoline
  rip : s.rip p = e
  rsp : (s.machine.procs p).sleepUntil = r
  unsaved : ∀ c, s.machine.act c ≠ .saving p
  arriving : ∀ c, s.machine.current c = some p → (s.machine.act c).saved ≠ none
  awake : (s.machine.procs p).state ≠ .blocked
  alive : (s.machine.procs p).state = .dead → ∃ c, s.machine.act c = .creating p

/-- `p` has started, and no switch will take it through the trampoline again: it has been switched
away from, it runs, or it is being switched away from. -/
structure Launch.Entered (s : Launch n) (p : ProcId) (e r : ℕ) : Prop where
  entries : s.entries p = [(e, r)]
  once : s.savedRet p = .resume ∨
    (∃ c, s.machine.current c = some p ∧ (s.machine.act c).saved = none) ∨
    ∃ c, s.machine.act c = .saving p

/-- What every guarded step keeps. -/
structure Launch.Inv (s : Launch n) : Prop where
  shadow : ∃ g b, Shadow s.machine g b
  fresh : ∀ c p, s.machine.act c = .creating p → s.entries p = []
  given : ∀ p e r, s.given p = some (e, r) →
    (s.machine.procs p).pid ≠ 0 ∧ (s.Waiting p e r ∨ s.Entered p e r)

theorem Launch.Initial.inv {s : Launch n} (h : s.Initial) : s.Inv where
  shadow := ⟨_, _, h.undisturbed.shadow⟩
  fresh _ p _ := h.entries p
  given p e r hp := by simp [h.given p] at hp

section Steps

variable {s s' : Launch n} {c : Fin n} {p : ProcId} {e r : ℕ} {userRsp : ℕ} {q : ProcId}
  {st : ProcState} {ev : List Event} {userRip : ℕ}

/-- What a step of CPU `c` on another process leaves of `p`. -/
structure Beside (c : Fin n) (p : ProcId) (s s' : Launch n) : Prop where
  entries : s'.entries p = s.entries p
  savedRet : s'.savedRet p = s.savedRet p
  rip : s'.rip p = s.rip p
  sleep : (s'.machine.procs p).sleepUntil = (s.machine.procs p).sleepUntil
  state : (s'.machine.procs p).state = (s.machine.procs p).state
  act : ∀ c', c' ≠ c → s'.machine.act c' = s.machine.act c'
  current : ∀ c', c' ≠ c → s'.machine.current c' = s.machine.current c'
  busy : s.machine.act c ≠ .saving p ∧ s.machine.act c ≠ .creating p
  busy' : s'.machine.act c ≠ .saving p
  back : s'.machine.current c = some p →
    s.machine.current c = some p ∧ (s.machine.act c).saved = none
  forth : s.machine.current c = some p → (s.machine.act c).saved = none →
    s'.machine.current c = some p ∧ (s'.machine.act c).saved = none

theorem Beside.waiting (h : Beside c p s s') (hw : s.Waiting p e r) : s'.Waiting p e r where
  entries := h.entries.trans hw.entries
  ret := h.savedRet.trans hw.ret
  rip := h.rip.trans hw.rip
  rsp := h.sleep.trans hw.rsp
  unsaved c' := by
    obtain rfl | hc := eq_or_ne c' c
    · exact h.busy'
    · exact h.act c' hc ▸ hw.unsaved c'
  arriving c' hc' := by
    obtain rfl | hc := eq_or_ne c' c
    · obtain ⟨hcur, hsav⟩ := h.back hc'
      exact absurd hsav (hw.arriving c' hcur)
    · exact h.act c' hc ▸ hw.arriving c' (h.current c' hc ▸ hc')
  awake := h.state ▸ hw.awake
  alive hd := by
    obtain ⟨c', hc'⟩ := hw.alive (h.state ▸ hd)
    exact ⟨c', (h.act c' fun he => h.busy.2 (he ▸ hc')).trans hc'⟩

theorem Beside.entered (h : Beside c p s s') (he : s.Entered p e r) : s'.Entered p e r where
  entries := h.entries.trans he.entries
  once := by
    rcases he.once with hret | ⟨c', hcur, hsav⟩ | ⟨c', hc'⟩
    · exact .inl (h.savedRet.trans hret)
    · refine .inr (.inl ⟨c', ?_⟩)
      obtain rfl | hc := eq_or_ne c' c
      · exact h.forth hcur hsav
      · exact ⟨(h.current c' hc).trans hcur, h.act c' hc ▸ hsav⟩
    · exact .inr (.inr ⟨c', (h.act c' fun he => h.busy.1 (he ▸ hc')).trans hc'⟩)

theorem Beside.given (h : Beside c p s s')
    (hp : (s.machine.procs p).pid ≠ 0 ∧ (s.Waiting p e r ∨ s.Entered p e r))
    (hpid : (s'.machine.procs p).pid = (s.machine.procs p).pid) :
    (s'.machine.procs p).pid ≠ 0 ∧ (s'.Waiting p e r ∨ s'.Entered p e r) :=
  ⟨hpid ▸ hp.1, hp.2.imp h.waiting h.entered⟩

/-! ### The scheduler's steps -/

/-- What a routine step does, on a machine with a shadow.  A CPU keeps its process and what it does,
or gives the process up. -/
structure Routinely (l : Label n) (m m' : Machine n) : Prop where
  hands : ∀ c, (m'.current c = m.current c ∧ m'.act c = m.act c) ∨
    (c = l.cpu ∧ m.act c = .run ∧ ∃ cur, m.current c = some cur ∧ m'.act c = .saving cur)
  kept : ∀ p, (m.procs p).state ≠ .blocked →
    (m.current l.cpu = some p → m.act l.cpu ≠ .run) → Kept (m.procs p) (m'.procs p)
  dead : ∀ p, (m'.procs p).state = .dead → (m.procs p).state = .dead
  pid : ∀ p, (m'.procs p).pid = (m.procs p).pid

theorem Routinely.creating_iff (h : Routinely l m m') (c : Fin n) (p : ProcId) :
    m'.act c = .creating p ↔ m.act c = .creating p := by
  rcases h.hands c with ⟨-, hact⟩ | ⟨-, hrun, cur, -, hact⟩
  · rw [hact]
  · simp [hrun, hact]

/-- A turn, CPU by CPU. -/
theorem Turn.hands (h : Turn m c₀ m') (hrun : m.act c₀ = .run) (c : Fin n) :
    (m'.current c = m.current c ∧ m'.act c = m.act c) ∨
      (c = c₀ ∧ m.act c = .run ∧ ∃ cur, m.current c = some cur ∧ m'.act c = .saving cur) := by
  by_cases hc : c = c₀
  · subst hc
    cases h with
    | stay current act => exact .inl ⟨by rw [current], by simp [act, hrun]⟩
    | switch cur next hcur current act => exact .inr ⟨rfl, hrun, cur, hcur, by simp [act]⟩
  · cases h with
    | stay current act | switch cur next hcur current act => exact .inl (by simp [current, act, hc])

theorem Shadow.routine (h : Shadow m g b) (hl : l.Routine) (hstep : Sched.Step m l m') :
    Routinely l m m' ∧ ∃ b', Shadow m' g b' := by
  have hroutine : Routinely l m m' := by
    obtain ⟨rfl, hund, -⟩ := h
    obtain ⟨b', hb, rfl⟩ := step_recast hl.neutral hstep
    obtain ⟨hcpu, hproc⟩ := hund.routine hl hb
    refine ⟨fun c => ?_, fun p hblocked hoff => ?_, fun p hd => ?_, fun p => (hproc p).1⟩
    · rcases hcpu with hsame | ⟨hrun, hturn⟩
      · exact .inl ⟨congrFun hsame.current c, congrFun hsame.act c⟩
      · exact hturn.hands hrun c
    · exact { (hproc p).2 hblocked hoff with }
    · exact hund.dead_before hl.neutral.plain hb hd
  refine ⟨hroutine, h.neutral hl.neutral hstep fun q hc _ c hc' => ?_⟩
  exact hc c ((hroutine.creating_iff c q).mpr hc')

theorem Routinely.waiting (h : Routinely l s.machine m) (hw : s.Waiting p e r) :
    Launch.Waiting { s with machine := m } p e r := by
  -- `p` is not the process that the CPU of this step runs
  have hoff : ∀ c, s.machine.current c = some p → s.machine.act c ≠ .run := by
    intro c hcur hrun
    exact hw.arriving c hcur (by rw [hrun]; rfl)
  have hkept := h.kept p hw.awake (hoff l.cpu)
  refine ⟨hw.entries, hw.ret, hw.rip, hkept.sleep.trans hw.rsp, fun c => ?_, fun c hc => ?_,
    hkept.awake, fun hd => ?_⟩
  · obtain ⟨-, hact⟩ | ⟨-, hrun, cur, hcur, hact⟩ := h.hands c <;> rw [hact]
    · exact hw.unsaved c
    · rintro ⟨⟩
      exact hoff c hcur hrun
  · obtain ⟨hcur, hact⟩ | ⟨-, -, cur, -, hact⟩ := h.hands c <;> rw [hact]
    · exact hw.arriving c (hcur.symm.trans hc)
    · exact nofun
  · obtain ⟨c, hc⟩ := hw.alive (h.dead p hd)
    exact ⟨c, (h.creating_iff c p).mpr hc⟩

theorem Routinely.entered (h : Routinely l s.machine m) (he : s.Entered p e r) :
    Launch.Entered { s with machine := m } p e r := by
  refine ⟨he.entries, ?_⟩
  rcases he.once with hret | ⟨c, hcur, hsav⟩ | ⟨c, hc⟩
  · exact .inl hret
  · rcases h.hands c with ⟨hcur', hact⟩ | ⟨-, -, cur, hcur', hact⟩
    · exact .inr (.inl ⟨c, hcur'.trans hcur, hact ▸ hsav⟩)
    -- `p` is the one that gives up the CPU
    obtain rfl : p = cur := Option.some.inj (hcur.symm.trans hcur')
    exact .inr (.inr ⟨c, hact⟩)
  · rcases h.hands c with ⟨-, hact⟩ | ⟨-, hrun, -⟩
    · exact .inr (.inr ⟨c, hact.trans hc⟩)
    · cases hrun.symm.trans hc

theorem Launch.Inv.sched (h : s.Inv) (hen : (Op.sched l).enabled s)
    (hs : s.exec (.sched l) = some s') : s'.Inv := by
  obtain ⟨⟨m, ev⟩, hex, rfl⟩ := Option.map_eq_some_iff.mp hs
  obtain ⟨g, b, hshadow⟩ := h.shadow
  obtain ⟨hroutine, b', hshadow'⟩ := hshadow.routine hen.1 ⟨hen.2, ev, hex⟩
  refine ⟨⟨g, b', hshadow'⟩, fun c p hc => ?_, fun p e r hp => ?_⟩
  · exact h.fresh c p ((hroutine.creating_iff c p).mp hc)
  · obtain ⟨hpid, hcase⟩ := h.given p e r hp
    exact ⟨hroutine.pid p ▸ hpid, hcase.imp hroutine.waiting hroutine.entered⟩

/-! ### The parts of the calls -/

/-- A step that is `Beside` every process keeps the invariant. -/
theorem Launch.Inv.beside (h : s.Inv) (hshadow : ∃ g b, Shadow s'.machine g b)
    (hfresh : ∀ c p, s'.machine.act c = .creating p → s'.entries p = [])
    (hgiven : s'.given = s.given)
    (hpid : ∀ p, (s'.machine.procs p).pid = (s.machine.procs p).pid)
    (hbeside : ∀ p e r, s.given p = some (e, r) → Beside c p s s') : s'.Inv := by
  refine ⟨hshadow, hfresh, fun p e r hp => ?_⟩
  have hp := hgiven ▸ hp
  exact (hbeside p e r hp).given (h.given p e r hp) (hpid p)

theorem Shadow.addRef {m b : Machine n} (h : Shadow m g b) (p : ProcId) (d : ℤ) :
    ∃ g', Shadow (addRef m p d) g' b := by
  obtain ⟨rfl, hund, hfree⟩ := h
  refine ⟨update g p { g p with pml4Refcount := (g p).pml4Refcount + d }, ?_, hund,
    fun q hd hc => ?_⟩
  · have hself : b.setProc p (b.procs p) = b := by simp [Machine.setProc]
    conv_rhs => rw [← hself, recast_update]
    rfl
  · rw [← hfree q hd hc]
    by_cases hq : q = p <;> simp [hq]

theorem Launch.Inv.shareTables (h : s.Inv) (hen : (Op.shareTables c d).enabled s)
    (hs : s.exec (.shareTables c d) = some s') : s'.Inv := by
  obtain ⟨cur, hcur, rfl⟩ := Option.map_eq_some_iff.mp hs
  obtain ⟨g, b, hshadow⟩ := h.shadow
  obtain ⟨g', hshadow'⟩ := hshadow.addRef cur d
  have hrun : s.machine.act c = .run := hen.1
  refine h.beside (c := c) ⟨g', b, hshadow'⟩ h.fresh rfl (fun p => ?_) (fun p e r _ => ?_)
  · by_cases hp : p = cur <;> simp [Sched.addRef, hp]
  · by_cases hp : p = cur
    all_goals
      constructor
      all_goals simp +contextual [Sched.addRef, hp, hrun, Act.saved]

/-- Reserving a slot, on both sides. -/
theorem Shadow.procCreate (h : Shadow m g b) (hrun : m.act c = .run) (pml4 kstack : ℕ)
    (hmarks : ∀ c p, m.act c = .creating p → (m.procs p).reaped = false)
    (hslot : freeSlot m = some i) : ∃ g' b', Shadow
      ((m.setProc i (freshProc (m.procs i) i pml4 kstack)).setAct c (.creating i)) g' b' := by
  have hslot' := (h.freeSlot_eq hmarks).symm.trans hslot
  obtain ⟨rfl, hund, hfree⟩ := h
  let b' := (b.setProc i (freshProc (b.procs i) i pml4 kstack)).setAct c (.creating i)
  have hb : Step b (.procCreate c pml4 kstack) b' :=
    ⟨hrun, [.reuse i], by simp [Sched.exec, Sched.procCreate, hslot', b']⟩
  refine ⟨update g i (freshProc (b.procs i) i pml4 kstack).kin, b', ?_,
    hund.step hb trivial, fun q hd hc => ?_⟩
  · rw [recast_setAct, recast_update]
    rfl
  · have hq : q ≠ i := by
      rintro rfl
      exact hc c (by simp [b'])
    have hproc : b'.procs q = b.procs q := by simp [b', hq]
    have hc' : ∀ c', b.act c' ≠ .creating q := fun c' hc' => by
      by_cases hcc : c' = c
      · simp [hcc, show b.act c = .run from hrun] at hc'
      · exact hc c' (by simpa [b', hcc] using hc')
    rw [hproc] at hd ⊢
    rw [update_of_ne hq, hfree q hd hc']

theorem Launch.Inv.procCreate (h : s.Inv) (hrun : s.machine.act c = .run)
    (hmarks : ∀ c p, s.machine.act c = .creating p → (s.machine.procs p).reaped = false)
    (hs : s.exec (.procCreate c entry pml4 kstack) = some s') : s'.Inv := by
  obtain ⟨⟨m, ev⟩, hex, hs⟩ := Option.map_eq_some_iff.mp hs
  obtain ⟨g, b, hshadow⟩ := h.shadow
  cases hslot : freeSlot s.machine with
  | none =>
    simp only [Sched.exec, Sched.procCreate, hslot] at hex hs
    cases hex
    exact hs ▸ h
  | some i =>
    simp only [Sched.exec, Sched.procCreate, hslot] at hex hs
    cases hex
    subst hs
    have hact : ∀ {c' p}, p ≠ i → update s.machine.act c (.creating i) c' =
        .creating p → s.machine.act c' = .creating p := by
      intro c' p hp hc'
      rw [update_apply] at hc'
      split_ifs at hc'
      · cases hc'
        exact absurd rfl hp
      · exact hc'
    refine ⟨hshadow.procCreate hrun pml4 kstack hmarks hslot, fun c' p hc' => ?_,
      fun p e r hp => ?_⟩
    · obtain rfl | hp := eq_or_ne p i
      · simp [Launch.reserve]
      · simpa [Launch.reserve, hp] using h.fresh c' p (hact hp hc')
    · have hne : p ≠ i := by
        rintro rfl
        simp [Launch.reserve] at hp
      have hp' : s.given p = some (e, r) := by simpa [Launch.reserve, hne] using hp
      have hbeside : Beside c p s (s.reserve
          ((s.machine.setProc i (freshProc (s.machine.procs i) i pml4 kstack)).setAct c
            (.creating i)) i entry) := by
        constructor
        all_goals
          simp +contextual [Launch.reserve, hne, hrun, Act.saved]
      refine hbeside.given (h.given p e r hp') ?_
      simp [Launch.reserve, hne]

/-- The creator's stores, whatever else of the slot they set. -/
theorem Launch.Inv.store (h : s.Inv) (hc : s.machine.act c = .creating p)
    (hshadow : ∃ g b, Shadow m g b) (hact : m.act = s.machine.act)
    (hcur : m.current = s.machine.current) (hother : ∀ q, q ≠ p → m.procs q = s.machine.procs q)
    (hpid : (m.procs p).pid = (s.machine.procs p).pid)
    (hstate : (m.procs p).state = (s.machine.procs p).state)
    (hrsp : (m.procs p).sleepUntil = userRsp) : (s.store m p userRip userRsp).Inv := by
  obtain ⟨g, b, hbase⟩ := h.shadow
  obtain ⟨hoff, hunsaved, hpid₀, hdead⟩ := hbase.creating hc
  refine ⟨hshadow, fun c' q hc' => h.fresh c' q (hact ▸ hc'), fun q e r hq => ?_⟩
  obtain rfl | hqp := eq_or_ne q p
  · obtain ⟨rfl, rfl⟩ : userRip = e ∧ userRsp = r := by simpa [Launch.store] using hq
    refine ⟨hpid.trans_ne hpid₀, .inl ⟨h.fresh c q hc, ?_, ?_, hrsp, ?_, ?_, ?_, fun _ => ⟨c, ?_⟩⟩⟩
    all_goals simp [Launch.store, hact, hunsaved, hcur, hoff, hstate, hdead, hc]
  have hq' : s.given q = some (e, r) := by simpa [Launch.store, hqp] using hq
  have hbeside : Beside c q s (s.store m p userRip userRsp) := by
    constructor
    all_goals
      simp +contextual [Launch.store, hqp, hact, hcur, hother q hqp, hc, Act.saved, Ne.symm hqp]
  exact hbeside.given (h.given q e r hq') (congrArg Proc.pid (hother q hqp))

/-- The stores of `proc_fork` and of `proc_clone` are those of `proc_fork` in the shadow. -/
theorem Shadow.store (h : Shadow m g b) (hc : m.act c = .creating p) (hcur : m.current c = some cur)
    (huser : userCurrent m c) (userRsp : ℕ) (k : Kin) :
    ∃ b', Shadow (m.setProc p (Proc.withKin { m.procs p with
      priority := (m.procs cur).priority, sleepUntil := userRsp } k)) (update g p k)
      b' := by
  obtain ⟨rfl, hund, hfree⟩ := h
  have hcreated : (b.act c).created = some p := by
    rw [show b.act c = .creating p from hc]
    rfl
  have hb : Step b (.initChild c userRsp) (initChild b p cur userRsp) := by
    refine ⟨⟨by rw [hcreated]; rfl, (userCurrent_recast g b c).mp huser⟩, [], ?_⟩
    have hcur' : b.current c = some cur := hcur
    simp [Sched.exec, hcreated, onCurrent, hcur']
  refine ⟨initChild b p cur userRsp, ?_, hund.step hb trivial, fun q hd hq => ?_⟩
  · show _ = recast _ (b.setProc p _)
    rw [recast_update]
    rfl
  · have hqp : q ≠ p := fun he => hq c (he ▸ hc)
    have hproc : (initChild b p cur userRsp).procs q = b.procs q := by simp [initChild, hqp]
    rw [hproc] at hd ⊢
    rw [update_of_ne hqp, hfree q hd hq]

theorem Launch.Inv.initKin (h : s.Inv) (hc : s.machine.act c = .creating p)
    (hcur : s.machine.current c = some cur) (huser : userCurrent s.machine c) (k : Kin) :
    (s.store (s.machine.setProc p (Proc.withKin { s.machine.procs p with
      priority := (s.machine.procs cur).priority, sleepUntil := userRsp } k)) p userRip
      userRsp).Inv := by
  obtain ⟨g, b, hshadow⟩ := h.shadow
  obtain ⟨b', hb'⟩ := hshadow.store hc hcur huser userRsp k
  exact h.store hc ⟨_, b', hb'⟩ rfl rfl (fun q hq => by simp [hq]) (by simp)
    (by simp) (by simp)

theorem Launch.Inv.initFork (h : s.Inv) (hen : (Op.initFork c userRip userRsp).enabled s)
    (hs : s.exec (.initFork c userRip userRsp) = some s') : s'.Inv := by
  obtain ⟨p, hp, hs⟩ := Option.bind_eq_some_iff.mp hs
  obtain ⟨cur, hcur, hs⟩ := Option.bind_eq_some_iff.mp hs
  cases hs
  exact h.initKin (Act.created_eq hp) hcur hen.2
    ⟨false, (s.machine.procs cur).pid, (s.machine.procs p).tgid, (s.machine.procs p).pml4Refcount⟩

theorem Launch.Inv.initClone (h : s.Inv) (hen : (Op.initClone c thread userRip userRsp).enabled s)
    (hs : s.exec (.initClone c thread userRip userRsp) = some s') : s'.Inv := by
  obtain ⟨p, hp, hs⟩ := Option.bind_eq_some_iff.mp hs
  obtain ⟨cur, hcur, hs⟩ := Option.bind_eq_some_iff.mp hs
  cases hs
  exact h.initKin (Act.created_eq hp) hcur hen.2
    ⟨thread, if thread then (s.machine.procs cur).parentPid else (s.machine.procs cur).pid,
      if thread then (s.machine.procs cur).tgid else (s.machine.procs p).pid,
      (s.machine.procs p).pml4Refcount⟩

/-- A stack pointer in `sleep_until` is nothing to a slot's role. -/
theorem Shadow.sleepUntil {m b : Machine n} (h : Shadow m g b) (p : ProcId) (userRsp : ℕ) :
    ∃ b', Shadow (m.setProc p { m.procs p with sleepUntil := userRsp }) g b' := by
  obtain ⟨rfl, hund, hfree⟩ := h
  have hstate : ∀ q, ((b.setProc p { b.procs p with sleepUntil := userRsp }).procs q).state =
      (b.procs q).state := setProc_state rfl
  refine ⟨b.setProc p { b.procs p with sleepUntil := userRsp }, ?_, ⟨?_, hund.act, ?_⟩, ?_⟩
  · rw [recast_setProc]
    rfl
  · obtain ⟨L, hinv⟩ := hund.inv
    exact ⟨L, hinv.setData ⟨rfl, rfl, rfl, rfl, rfl, rfl⟩ rfl⟩
  · exact fun c q hc => hstate q ▸ hund.alive c q hc
  · intro q hd hq
    rw [hfree q (hstate q ▸ hd) hq]
    by_cases hqp : q = p <;> simp [hqp]

theorem Launch.Inv.initSpawn (h : s.Inv) (hs : s.exec (.initSpawn c userRsp) = some s') :
    s'.Inv := by
  obtain ⟨p, hp, hs⟩ := Option.bind_eq_some_iff.mp hs
  cases hs
  obtain ⟨g, b, hshadow⟩ := h.shadow
  obtain ⟨b', hb'⟩ := hshadow.sleepUntil p userRsp
  exact h.store (Act.created_eq hp) ⟨g, b', hb'⟩ rfl rfl (fun q hq => by simp [hq]) (by simp)
    (by simp) (by simp)

/-! ### The process starts -/

/-- The slot `p` in the hands of `c` becomes a process in the state `st`. -/
structure Becomes (c : Fin n) (p : ProcId) (st : ProcState) (m m' : Machine n) : Prop where
  procs : m'.procs = (m.setState p st).procs
  act : m'.act = update m.act c .run
  here : m.act c = .creating p
  live : st ≠ .dead

theorem Becomes.creating (h : Becomes c p st m m') (hc : m'.act c' = .creating q) :
    m.act c' = .creating q := by
  rw [h.act, update_apply] at hc
  split_ifs at hc
  exact hc

theorem Becomes.proc (h : Becomes c p st m m') (hq : q ≠ p) : m'.procs q = m.procs q := by
  simp [h.procs, hq]

theorem Becomes.shadow (h : Becomes c p st m m') (hl : l.Neutral) (hstep : Sched.Step m l m')
    (hs : Shadow m g b) :
    ∃ b', Shadow m' g b' := by
  refine hs.neutral hl hstep fun q hc hd c' hc' => ?_
  obtain rfl | hcc := eq_or_ne c' c
  · obtain rfl : p = q := by simpa [h.here] using hc'
    exact h.live (by simpa [h.procs] using hd)
  · exact hc c' (by rw [h.act, update_of_ne hcc, hc'])

/-- **The slot becomes a process**, and the other processes stay where they are: the invariant is
kept if a process that has not started is still waiting, or has just started. -/
theorem Launch.Inv.becomes (h : s.Inv) (s' : Launch n) (hb : Becomes c p st s.machine s'.machine)
    (hshadow : ∃ g b, Shadow s'.machine g b) (hgiven : s'.given = s.given)
    (hent : ∀ q, q ≠ p → s'.entries q = s.entries q) (hret : s'.savedRet = s.savedRet)
    (hrip : s'.rip = s.rip)
    (hcur : ∀ c', c' ≠ c → s'.machine.current c' = s.machine.current c')
    (hhere : ∀ q, q ≠ p → (s.machine.procs q).pid ≠ 0 →
      (s'.machine.current c = some q ↔ s.machine.current c = some q))
    (hp : ∀ e r, s.Waiting p e r → s'.Waiting p e r ∨ s'.Entered p e r) : s'.Inv := by
  obtain ⟨g', b', hb'⟩ := hshadow
  refine ⟨⟨g', b', hb'⟩, fun c' q hc' => ?_, fun q e r hq => ?_⟩
  · have hqp : q ≠ p := by
      rintro rfl
      obtain ⟨-, -, -, hd⟩ := hb'.creating hc'
      exact hb.live (by simpa [hb.procs] using hd)
    rw [hent q hqp]
    exact h.fresh c' q (hb.creating hc')
  rw [hgiven] at hq
  obtain ⟨hpid, hcase⟩ := h.given q e r hq
  obtain rfl | hqp := eq_or_ne q p
  · refine ⟨by simpa [hb.procs] using hpid, ?_⟩
    rcases hcase with hw | he
    · exact hp e r hw
    · -- what is still being created has not been anywhere
      simpa [h.fresh c q hb.here] using he.entries
  have hproc := hb.proc hqp
  have hrun : s'.machine.act c = .run := by rw [hb.act, update_self]
  have hhere := hhere q hqp hpid
  have hbeside : Beside c q s s' := by
    refine ⟨hent q hqp, by rw [hret], by rw [hrip], by rw [hproc], by rw [hproc],
      fun c' hc' => by rw [hb.act, update_of_ne hc'], hcur, ?_, by simp [hrun],
      fun hc => ⟨hhere.mp hc, by rw [hb.here]; rfl⟩, fun hc _ => ⟨hhere.mpr hc, by rw [hrun]; rfl⟩⟩
    simp [hb.here, Ne.symm hqp]
  exact hbeside.given ⟨hpid, hcase⟩ (by rw [hproc])

theorem procMakeReady_becomes (hc : m.act c = .creating p)
    (h : Sched.exec m (.procMakeReady c) = some (m', ev)) :
    Becomes c p .ready m m' ∧ m'.current = m.current := by
  simp only [Sched.exec, hc] at h
  obtain ⟨t, ht, heq⟩ := Option.map_eq_some_iff.mp h
  cases heq
  have ht' : readyEnqueue (m.setState p .ready) p = some t := ht
  obtain ⟨k, rfl⟩ := readyEnqueue_links ht'
  exact ⟨⟨rfl, rfl, hc, by decide⟩, rfl⟩

theorem Launch.Inv.procMakeReady (h : s.Inv) (hen : (Op.procMakeReady c).enabled s)
    (hs : s.exec (.procMakeReady c) = some s') : s'.Inv := by
  obtain ⟨⟨m, ev⟩, hex, rfl⟩ := Option.map_eq_some_iff.mp hs
  obtain ⟨p, hp⟩ := Option.isSome_iff_exists.mp hen
  have hc := Act.created_eq hp
  obtain ⟨g, b, hshadow⟩ := h.shadow
  obtain ⟨hbecomes, hcur⟩ := procMakeReady_becomes hc hex
  obtain ⟨hoff, hunsaved, -⟩ := hshadow.creating hc
  have hb' := hbecomes.shadow (l := .procMakeReady c) trivial ⟨hen, ev, hex⟩ hshadow
  refine h.becomes { s with machine := m } hbecomes ⟨g, hb'⟩ rfl (fun _ _ => rfl) rfl rfl
    (fun c' _ => congrFun hcur c') (fun q _ _ => by rw [show m.current = _ from hcur]) ?_
  intro e r hw
  have hproc : m.procs p = { s.machine.procs p with state := .ready } := by
    simp [hbecomes.procs]
  refine .inl ⟨hw.entries, hw.ret, hw.rip, by simp [hproc, hw.rsp], fun c' hc' => ?_,
    by simp [hcur, hoff], by simp [hproc], by simp [hproc]⟩
  rw [show m.act c' = _ from congrFun hbecomes.act c', update_apply] at hc'
  split_ifs at hc'
  exact hunsaved c' hc'

theorem schedAdoptCurrent_becomes (hc : m.act c = .creating p)
    (h : Sched.exec m (.schedAdoptCurrent c) = some (m', ev)) :
    Becomes c p .running m m' ∧ m'.current = update m.current c (some p) := by
  simp only [Sched.exec, hc] at h
  obtain ⟨t, ht, heq⟩ := Option.map_eq_some_iff.mp h
  cases heq
  unfold schedAdoptCurrent at ht
  obtain ⟨k, rfl⟩ := readyDequeue_links ht
  exact ⟨⟨rfl, rfl, hc, by decide⟩, rfl⟩

theorem Launch.Inv.adopt (h : s.Inv) (hen : (Op.adopt c).enabled s)
    (hs : s.exec (.adopt c) = some s') : s'.Inv := by
  obtain ⟨p, hp, hs⟩ := Option.bind_eq_some_iff.mp hs
  obtain ⟨⟨m, ev⟩, hex, hs⟩ := Option.bind_eq_some_iff.mp hs
  cases hs
  have hc := Act.created_eq hp
  obtain ⟨g, b, hshadow⟩ := h.shadow
  obtain ⟨hbecomes, hcur⟩ := schedAdoptCurrent_becomes hc hex
  have hb' := hbecomes.shadow (l := .schedAdoptCurrent c) trivial ⟨hen, ev, hex⟩ hshadow
  refine h.becomes (Launch.enter { s with machine := m } p) hbecomes ⟨g, hb'⟩ rfl
    (fun q hq => by simp [Launch.enter, hq]) rfl rfl (fun c' hcc => ?_) (fun q hq hpid => ?_) ?_
  · show m.current c' = _
    rw [hcur, update_of_ne hcc]
  · -- the boot CPU was idle, and `q` is no idle process
    show m.current c = some q ↔ _
    rw [hcur, update_self]
    refine ⟨fun heq => absurd (Option.some.inj heq).symm hq, fun heq => ?_⟩
    rw [hen.2] at heq
    exact absurd (hshadow.idle_pid heq) hpid
  · intro e r hw
    refine .inr ⟨?_, .inr (.inl ⟨c, ?_, ?_⟩)⟩
    · simp [Launch.enter, hw.entries, hw.rip, hbecomes.procs, hw.rsp]
    · simp [Launch.enter, hcur]
    · simp [Launch.enter, hbecomes.act, Act.saved]

/-! ### The switch -/

theorem contextSaved_eq (hc : m.act c = .saving old)
    (h : Sched.exec m (.contextSaved c) = some (m', ev)) :
    m' = (m.setProc old { m.procs old with switching := false }).setAct c .run := by
  simp only [Sched.exec, hc] at h
  cases h
  rfl

theorem Shadow.contextSaved (h : Shadow m g b) (hstep : Sched.Step m (.contextSaved c) m') :
    ∃ b', Shadow m' g b' := by
  refine h.neutral (l := .contextSaved c) trivial hstep fun q hq _ c' hc' => hq c' ?_
  obtain ⟨hen, ev, hex⟩ := hstep
  obtain ⟨old, hold⟩ := Option.isSome_iff_exists.mp hen
  have hcc : c' ≠ c := by
    rintro rfl
    simp [Act.saved_eq hold] at hc'
  simpa [contextSaved_eq (Act.saved_eq hold) hex, hcc] using hc'

section Switch

variable (s : Launch n) (m : Machine n) (old new : ProcId) (ret : ℕ)

@[simp] theorem switch_machine : (s.switch m old new ret).machine = m := by
  simp only [Launch.switch]
  split <;> rfl

@[simp] theorem switch_given : (s.switch m old new ret).given = s.given := by
  simp only [Launch.switch]
  split <;> rfl

@[simp] theorem switch_savedRet :
    (s.switch m old new ret).savedRet = update s.savedRet old .resume := by
  simp only [Launch.switch]
  split <;> rfl

@[simp] theorem switch_rip : (s.switch m old new ret).rip = update s.rip old ret := by
  simp only [Launch.switch]
  split <;> rfl

theorem switch_entries_of_ne (hq : q ≠ new) : (s.switch m old new ret).entries q = s.entries q := by
  simp only [Launch.switch]
  split <;> simp [Launch.enter, hq]

theorem switch_entries_new (hne : new ≠ old) : (s.switch m old new ret).entries new =
    if s.savedRet new = .trampoline then s.entries new ++ [(s.rip new, (m.procs new).sleepUntil)]
    else s.entries new := by
  by_cases hret : s.savedRet new = .trampoline <;> simp [Launch.switch, Launch.enter, hne, hret]

end Switch

/-- The process that the CPU comes to starts, or goes on. -/
theorem Launch.Inv.arrive (ret : ℕ) (hshadow : Shadow s.machine g b)
    (hc : s.machine.act c = .saving old) (hnew : s.machine.current c = some new)
    (hm : m = (s.machine.setProc old { s.machine.procs old with switching := false }).setAct c .run)
    (hcase : s.Waiting new e r ∨ s.Entered new e r) :
    (s.switch m old new ret).Entered new e r := by
  have hne : new ≠ old := by
    rintro rfl
    exact hshadow.current_saved hnew c hc
  rcases hcase with hw | he
  · refine ⟨?_, .inr (.inl ⟨c, by simp [hm, hnew], by simp [hm, Act.saved]⟩)⟩
    rw [switch_entries_new s m old new ret hne, if_pos hw.ret, hw.entries, hw.rip, hm]
    simp [hne, hw.rsp]
  have hret : s.savedRet new = .resume := by
    rcases he.once with hret | ⟨c', hcur, hsav⟩ | ⟨c', hsav⟩
    · exact hret
    · obtain rfl : c = c' := hshadow.single hnew hcur
      simp [hc, Act.saved] at hsav
    · exact absurd hsav (hshadow.current_saved hnew c')
  exact ⟨by simp [switch_entries_new s m old new ret hne, hret, he.entries],
    .inl (by simp [hne, hret])⟩

theorem Launch.Inv.contextSwitch (h : s.Inv) (hen : (Op.contextSwitch c ret).enabled s)
    (hs : s.exec (.contextSwitch c ret) = some s') : s'.Inv := by
  obtain ⟨old, hold, hs⟩ := Option.bind_eq_some_iff.mp hs
  obtain ⟨new, hnew, hs⟩ := Option.bind_eq_some_iff.mp hs
  obtain ⟨⟨m, ev⟩, hex, hs⟩ := Option.bind_eq_some_iff.mp hs
  cases hs
  have hc := Act.saved_eq hold
  obtain ⟨g, b, hshadow⟩ := h.shadow
  obtain ⟨b', hb'⟩ := hshadow.contextSaved ⟨hen, ev, hex⟩
  have hm := contextSaved_eq hc hex
  have hpid : ∀ q, (m.procs q).pid = (s.machine.procs q).pid := by
    intro q
    by_cases hq : q = old <;> simp [hm, hq]
  refine ⟨⟨g, b', by rwa [switch_machine]⟩, fun c' q hc' => ?_, fun q e r hq => ?_⟩
  · rw [hm] at hc'
    have hcc : c' ≠ c := by
      rintro rfl
      simp at hc'
    have hq : s.machine.act c' = .creating q := by simpa [hcc] using hc'
    have hqn : q ≠ new := fun he => (hshadow.creating hq).1 c (he ▸ hnew)
    rw [switch_entries_of_ne s m old new ret hqn, h.fresh c' q hq]
  · rw [switch_given] at hq
    obtain ⟨hq₀, hcase⟩ := h.given q e r hq
    refine ⟨by rwa [switch_machine, hpid], ?_⟩
    by_cases hqn : q = new
    · subst hqn
      exact .inr (Launch.Inv.arrive ret hshadow hc hnew hm hcase)
    by_cases hqo : q = old
    · -- it has been running, and will go on from here
      subst hqo
      rcases hcase with hw | he
      · exact absurd hc (hw.unsaved c)
      · exact .inr ⟨(switch_entries_of_ne s m q new ret hqn).trans he.entries, .inl (by simp)⟩
    have hbeside : Beside c q s (s.switch m old new ret) := by
      have hnq : new ≠ q := Ne.symm hqn
      have hoq : old ≠ q := Ne.symm hqo
      constructor
      · exact switch_entries_of_ne s m old new ret hqn
      all_goals
        simp +contextual [hm, hqo, hc, hnew, hnq, hoq]
    exact hcase.imp hbeside.waiting hbeside.entered

/-- **Every guarded step** keeps the invariant. -/
theorem Launch.Inv.step (h : s.Inv) (hg : s.Guard o) (hstep : s.Step o s') : s'.Inv := by
  obtain ⟨hen, hs⟩ := hstep
  cases o with
  | sched => exact h.sched hen hs
  | shareTables => exact h.shareTables hen hs
  | procCreate => exact h.procCreate hen hg hs
  | initFork => exact h.initFork hen hs
  | initClone => exact h.initClone hen hs
  | initSpawn => exact h.initSpawn hs
  | procMakeReady => exact h.procMakeReady hen hs
  | spawnReturn => exact absurd hg id
  | adopt => exact h.adopt hen hs
  | contextSwitch => exact h.contextSwitch hen hs

end Steps

/-! ## Creation is complete -/

/-- `p` is in the queue of its priority. -/
def Machine.Linked (m : Machine n) (p : ProcId) : Prop :=
  ∃ (q : Prio) (l : List ProcId), (q : ℕ) = (m.procs p).priority ∧
    traverse m.links queueFuel (.head q) = some l ∧ p ∈ l

theorem Shadow.filed {m b : Machine n} (h : Shadow m g b) (hpid : (m.procs p).pid ≠ 0)
    (hd : (m.procs p).state ≠ .dead) (hoff : ∀ c, m.current c ≠ some p) :
    (m.procs p).state.waits ∧ m.Linked p := by
  obtain ⟨rfl, hund, -⟩ := h
  obtain ⟨hw, L, hsafe, hfiled⟩ := hund.filed hpid hd hoff
  obtain ⟨M, hinv⟩ := hund.inv
  have hprio : ((queueOf (b.procs p).priority : Prio) : ℕ) = (b.procs p).priority :=
    queueOf_val (hinv.prio p)
  exact ⟨hw, _, _, hprio, hsafe.contents _, (hfiled _).mpr hprio⟩

/-- A neutral step that can be taken comes back, without the recovery scan. -/
theorem Shadow.exec (h : Shadow m g b) (hl : l.Neutral) (hen : Sched.enabled m l) :
    ∃ m' ev, Sched.exec m l = some (m', ev) ∧ ∀ p, Event.rescued p ∉ ev := by
  obtain ⟨rfl, hund, -⟩ := h
  obtain ⟨b', ev, hex, -, hsafe⟩ := hund.exec hl.plain ((enabled_recast g b hl).mp hen)
  refine ⟨recast g b', ev, ?_, fun p hp => hsafe _ hp⟩
  rw [exec_recast g b hl, hex]
  rfl

theorem Shadow.runQueueSafe (h : Shadow m g b) : ∃ L, RunQueueSafe m L := by
  obtain ⟨rfl, hund, -⟩ := h
  obtain ⟨L, hinv⟩ := hund.inv
  have hsafe := hinv.runQueueSafe fun c p => hund.not_enterExit c p .ret
  exact ⟨L, hsafe.contents, hsafe.once, hsafe.single, hsafe.running, hsafe.filed⟩

/-- Where a process that has been given a start is. -/
inductive Launch.Progress (s : Launch n) (p : ProcId) (e r : ℕ) : Prop
  /-- Its creator has not called `proc_make_ready` yet. -/
  | creating (c : Fin n) (act : s.machine.act c = .creating p) (entries : s.entries p = [])
  | ready (state : (s.machine.procs p).state = .ready) (linked : s.machine.Linked p)
      (entries : s.entries p = [])
  /-- A CPU has picked it and is in `context_switch`. -/
  | picked (c : Fin n) (old : ProcId) (current : s.machine.current c = some p)
      (act : s.machine.act c = .saving old) (entries : s.entries p = [])
  /-- It has entered user mode, once. -/
  | started (entries : s.entries p = [(e, r)])

theorem Launch.Inv.progress {s : Launch n} {e r : ℕ} (h : s.Inv) (hp : s.given p = some (e, r)) :
    s.Progress p e r := by
  obtain ⟨g, b, hshadow⟩ := h.shadow
  obtain ⟨hpid, hw | he⟩ := h.given p e r hp
  · by_cases hcur : ∃ c, s.machine.current c = some p
    · obtain ⟨c, hc⟩ := hcur
      obtain ⟨old, hold⟩ := Option.ne_none_iff_exists'.mp (hw.arriving c hc)
      exact .picked c old hc (Act.saved_eq hold) hw.entries
    by_cases hd : (s.machine.procs p).state = .dead
    · obtain ⟨c, hc⟩ := hw.alive hd
      exact .creating c hc hw.entries
    · obtain ⟨hwaits, hlinked⟩ := hshadow.filed hpid hd fun c hc => hcur ⟨c, hc⟩
      exact .ready (hwaits.resolve_right hw.awake) hlinked hw.entries
  · exact .started he.entries

/-- `proc_make_ready` comes back, and leaves the process `READY` and linked. -/
theorem Launch.Inv.makes_ready {s : Launch n} {c : Fin n} (h : s.Inv)
    (hc : s.machine.act c = .creating p) : ∃ s', s.Step (.procMakeReady c) s' ∧
      (s'.machine.procs p).state = .ready ∧ s'.machine.Linked p := by
  obtain ⟨g, b, hshadow⟩ := h.shadow
  have hen : (Op.procMakeReady c).enabled s := by simp [Op.enabled, hc, Act.created]
  obtain ⟨m, ev, hex, -⟩ := hshadow.exec (l := .procMakeReady c) trivial hen
  obtain ⟨hbecomes, hcur⟩ := procMakeReady_becomes hc hex
  obtain ⟨hoff, -, hpid, -⟩ := hshadow.creating hc
  obtain ⟨b', hb'⟩ := hbecomes.shadow (l := .procMakeReady c) trivial ⟨hen, ev, hex⟩ hshadow
  have hproc : m.procs p = { s.machine.procs p with state := .ready } := by
    simp [hbecomes.procs]
  have hstate : (m.procs p).state = .ready := by rw [hproc]
  refine ⟨{ s with machine := m }, ⟨hen, by simp [Launch.exec, hex]⟩, hstate, ?_⟩
  exact (hb'.filed (by simp [hproc, hpid]) (by simp [hstate]) (by simp [hcur, hoff])).2

/-- The first switch to the process ends in user mode. -/
theorem Launch.Inv.switches {s : Launch n} {c : Fin n} {old : ProcId} {e r : ℕ} (h : s.Inv)
    (hp : s.given p = some (e, r)) (hcur : s.machine.current c = some p)
    (hc : s.machine.act c = .saving old) (ret : ℕ) :
    ∃ s', s.Step (.contextSwitch c ret) s' ∧ s'.entries p = [(e, r)] := by
  obtain ⟨g, b, hshadow⟩ := h.shadow
  have hold : (s.machine.act c).saved = some old := by simp [hc, Act.saved]
  have hen : (Op.contextSwitch c ret).enabled s := by simp [Op.enabled, hold]
  obtain ⟨m, ev, hex, -⟩ := hshadow.exec (l := .contextSaved c) trivial hen
  refine ⟨s.switch m old p ret, ⟨hen, by simp [Launch.exec, hold, hcur, hex]⟩, ?_⟩
  obtain ⟨-, hcase⟩ := h.given p e r hp
  exact (Launch.Inv.arrive ret hshadow hc hcur (contextSaved_eq hc hex) hcase).entries

/-! ## Two runs -/

/-- Two CPUs after boot. -/
def launchBoot : Launch 2 where
  machine := boot 2 two_le_procs 7 (fun _ => 9)
  rip _ := 0
  savedRet _ := .resume
  given _ := none
  entries _ := []

theorem launchBoot_initial : launchBoot.Initial where
  undisturbed := (boot_booted _ _ _).undisturbed
  given _ := rfl
  entries _ := rfl

/-- No CPU of two is creating anything. -/
theorem guard_of_run {s : Launch 2} (h₀ : s.machine.act 0 = .run) (h₁ : s.machine.act 1 = .run)
    (c : Fin 2) (p : ProcId) (hc : s.machine.act c = .creating p) :
    (s.machine.procs p).reaped = false := by
  fin_cases c <;> simp_all

end Xos.Sched
