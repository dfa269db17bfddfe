import Xos.Sched.Transitions

/-!
# Every guarded step keeps the roles

`Guard` is the use of the scheduler under which the invariant is inductive: it
names, in the state a step starts from, the few orders of `proc_kill`,
`proc_waitpid` and the pick that the code does not protect itself against.
`Effect` says what such a step may do, and `exec_spec` proves both for every label.
-/

namespace Xos.Sched

open Xos.Lib Function

variable {n : ℕ} {s s' : Machine n} {L L' : Prio → List ProcId} {l : Label n} {p cur : ProcId}
  {c : Fin n} {a : Act} {k : After} {r : Proc} {st : ExitStage}

/-! ## What a step may do -/

/-- No CPU runs `p`, runs or is about to run `proc_exit` on it, or is still switching
away from it. -/
structure Quiet (s : Machine n) (p : ProcId) : Prop where
  current : ∀ c, s.current c ≠ some p
  enterExit : ∀ c k, s.act c ≠ .enterExit p k
  inExit : ∀ c st k, s.act c ≠ .inExit p st k
  saving : ∀ c, s.act c ≠ .saving p
  switching : (s.procs p).switching = false

/-- No CPU other than `c` runs `p`, is inside `proc_exit` for it, or is still
switching away from it. -/
structure Alone (s : Machine n) (c : Fin n) (p : ProcId) : Prop where
  current : ∀ c', c' ≠ c → s.current c' ≠ some p
  inExit : ∀ c' st k, c' ≠ c → s.act c' ≠ .inExit p st k
  saving : ∀ c', s.act c' ≠ .saving p
  switching : (s.procs p).switching = false

/-- The teardown of `p` has begun: it is `DEAD`, or a CPU is on its way into
`proc_exit` with it. -/
def Torn (s : Machine n) (p : ProcId) : Prop :=
  (s.procs p).state = .dead ∨ ∃ c k, s.act c = .enterExit p k

/-- When CPU `c` may do what the event reports. -/
def Event.Safe (s : Machine n) (c : Fin n) : Event → Prop
  | .freeTables p _ => Alone s c p
  | .freeKstack p => Alone s c p ∧ s.current c ≠ some p
  | .reuse p => Quiet s p
  | .rescued _ => False

/-- The steps that take no process down. -/
def Label.Plain : Label n → Prop
  | .sysExit _ _ | .procKill _ _ | .exitClaim _ | .exitStage _ _ | .exitPick _ _
  | .reap _ _ => False
  | _ => True

/-- The two ways a slot under construction becomes a process. -/
def Label.Starts : Label n → Prop
  | .procMakeReady _ | .schedAdoptCurrent _ => True
  | _ => False

/-- What a CPU does that takes no process down. -/
def Act.Plain : Act → Prop
  | .run | .saving _ | .creating _ => True
  | .enterExit _ _ | .inExit _ _ _ | .mustYield | .mustPick => False

/-- What every guarded step does. -/
structure Effect (s : Machine n) (l : Label n) (s' : Machine n) (ev : List Event) : Prop where
  torn : ∀ p, Torn s p → (s'.procs p).state = (s.procs p).state ∨
    (s'.procs p).state = .dead ∨ l.Starts ∧ s.act l.cpu = .creating p
  events : ∀ e ∈ ev, e.Safe s l.cpu
  alive : l.Plain → ∀ p, (s'.procs p).state = .dead → (s.procs p).state = .dead
  current : ∀ c p, s'.current c = some p → s.current c = some p ∨
    (s'.procs p).state = .running
  act : ∃ a, s'.act = update s.act l.cpu a ∧
    (l.Plain → a = s.act l.cpu ∨ a.Plain ∨
      ∃ cur, s.current l.cpu = some cur ∧ (s.procs cur).state = .dead)

/-- **The guard.**  A pick runs while no `READY` process is in the hands of a
`proc_kill`; a process does not go to sleep after it was killed; the target of
`proc_set_priority` is not in the hands of a `proc_kill`; `proc_kill` takes a
process that is alive and, unless it runs, saved; `proc_waitpid` collects a child
only when no CPU has anything to do with it any more. -/
def Guard (s : Machine n) : Label n → Prop
  | .schedYield _ _ | .exitPick _ _ => Calm s
  | .procSleep c _ _ _ _ | .schedBlockOn c _ _ _ _ _ =>
    Calm s ∧ ∀ cur, s.current c = some cur → (s.procs cur).state ≠ .dead
  | .procSetPriority _ p _ => ∀ c, s.act c ≠ .enterExit p .ret
  | .procKill c p => s.current c = some p ∨ (s.procs p).state = .running ∨
      (s.procs p).state ≠ .dead ∧ (s.procs p).switching = false
  | .reap _ p => (∀ c, s.current c ≠ some p) ∧ (∀ c k, s.act c ≠ .enterExit p k) ∧
      (∀ c st k, s.act c ≠ .inExit p st k) ∧ (s.procs p).switching = false
  | _ => True

/-- The step comes back, keeps the invariant and does no more than `Effect` says. -/
def Sound (s : Machine n) (l : Label n) : Prop :=
  ∃ s' ev L', exec s l = some (s', ev) ∧ Inv none s' L' ∧ Effect s l s' ev

/-! ## Steps that touch one process -/

section

variable (p) (h : Inv none s L) (hq : Queues s'.links L')
  (hview : ∀ x, x ≠ p → view s' L' x = view s L x) (hp : Fits none (view s' L' p))
  (hprio : (s'.procs p).priority < 3)
include h hq hview hp hprio

/-- A step that only concerns `p` keeps the invariant if `p` has a role after it. -/
theorem Inv.touch (hpids : (s'.procs p).pid = 0 ∨ (s'.procs p).pid = p)
    (hidle : s'.idle = s.idle) (hcur : s'.current = s.current)
    (hpid : (s'.procs p).pid = (s.procs p).pid ∨ ∀ c, s.current c ≠ some p)
    (hparent : ∀ c, s'.act c = .creating p → (s'.procs p).parentPid = 0 ∨
      ∃ cur, s.current c = some cur ∧ (s'.procs p).parentPid = (s'.procs cur).pid) :
    Inv none s' L' := by
  have hproc : ∀ x, x ≠ p → s'.procs x = s.procs x := fun x hx => congrArg View.proc (hview x hx)
  refine ⟨hq, fun x => ?_, fun x => ?_, fun x => ?_, hcur ▸ h.current, hidle ▸ h.idle,
    fun c x hx => ?_⟩
  · obtain rfl | hx := eq_or_ne x p
    exacts [hp, hview x hx ▸ h.fits x]
  · obtain rfl | hx := eq_or_ne x p
    exacts [hprio, hproc x hx ▸ h.prio x]
  · obtain rfl | hx := eq_or_ne x p
    exacts [hpids, hproc x hx ▸ h.pids x]
  · rw [hcur]
    obtain rfl | hxp := eq_or_ne x p
    · exact hparent c hx
    have hact : s.act c = .creating x := by
      have := congrFun (congrArg View.hold (hview x hxp)) c
      exact Act.on_eq_creating.1 (this.symm.trans (Act.on_eq_creating.2 hx))
    rw [hproc x hxp]
    rcases h.parent c x hact with h0 | ⟨cur, hc, hpar⟩
    · exact .inl h0
    refine .inr ⟨cur, hc, ?_⟩
    obtain rfl | hcp := eq_or_ne cur p
    · exact hpar.trans (hpid.resolve_right fun he => he c hc).symm
    · rw [hproc cur hcp]; exact hpar

/-- The same for a step that stores neither `pid` nor `parent_pid`. -/
theorem Inv.touch_same (hidle : s'.idle = s.idle)
    (hcur : s'.current = s.current) (hpid : (s'.procs p).pid = (s.procs p).pid)
    (hpar : (s'.procs p).parentPid = (s.procs p).parentPid)
    (hact : ∀ c, s'.act c = .creating p → s.act c = .creating p) : Inv none s' L' := by
  refine h.touch p hq hview hp hprio (hpid ▸ h.pids p) hidle hcur (.inl hpid) (fun c hc => ?_)
  rw [hpar]
  rcases h.parent c p (hact c hc) with h0 | ⟨cur, hcur', hpc⟩
  · exact .inl h0
  refine .inr ⟨cur, hcur', hpc.trans ?_⟩
  obtain rfl | hx := eq_or_ne cur p
  exacts [hpid.symm, congrArg (·.proc.pid) (hview cur hx).symm]

end

/-- A step that changes no `state` and nobody's CPU. -/
theorem Effect.of_same (hst : ∀ p, (s'.procs p).state = (s.procs p).state)
    (hcur : s'.current = s.current) (hev : ∀ e ∈ ev, e.Safe s l.cpu)
    (hact : ∃ a, s'.act = update s.act l.cpu a ∧
      (l.Plain → a = s.act l.cpu ∨ a.Plain)) : Effect s l s' ev where
  torn p _ := .inl (hst p)
  events := hev
  alive _ p hp := (hst p) ▸ hp
  current _ _ hp := .inl (hcur ▸ hp)
  act := by
    obtain ⟨a, ha, hpl⟩ := hact
    exact ⟨a, ha, fun hl => (hpl hl).imp_right .inl⟩

/-- A step that leaves its CPU where it is. -/
theorem act_keep (s : Machine n) (l : Label n) :
    ∃ a, s.act = update s.act l.cpu a ∧ (l.Plain → a = s.act l.cpu ∨ a.Plain) :=
  ⟨s.act l.cpu, (update_eq_self ..).symm, fun _ => .inl rfl⟩

/-- A step that changes nothing. -/
theorem Effect.refl (s : Machine n) (l : Label n) : Effect s l s [] :=
  .of_same (fun _ => rfl) rfl (by simp) (act_keep s l)

/-- Turning to something other than a creation leaves the creations of `p`. -/
theorem act_creating_of_setAct (ha : a ≠ .creating p) (h : (s.setAct c a).act c' = .creating p) :
    s.act c' = .creating p := by
  by_cases hc : c' = c
  · subst hc; exact absurd (by simpa using h) ha
  · simpa [hc] using h

/-- Outside a section no process that is being torn down is linked. -/
theorem Inv.not_linked_of_torn (h : Inv none s L) (hp : Torn s p) (q : Prio) : p ∉ L q := by
  intro hq
  rcases hp with hd | ⟨c, k, hc⟩
  · obtain ⟨hw, -⟩ := (h.fits p).of_linked hq
    replace hw : (s.procs p).state.waits := hw
    simp [hd, ProcState.waits] at hw
  · exact h.not_linked_of_enterExit hc q hq

theorem FreeHands.of_run (h : s.act c = .run) : FreeHands s c := by
  intro p; rw [h]; rfl

/-- A process that runs on CPU `c`, which has free hands, is torn down only if it is
`DEAD`. -/
theorem Inv.not_torn_of_current (h : Inv none s L) (hc : s.current c = some p)
    (hfree : FreeHands s c) (hd : (s.procs p).state ≠ .dead) :
    ¬ Torn s p := by
  rintro (hd' | ⟨c', k, hc'⟩)
  · exact hd hd'
  · have hhold : (view s L p).hold c' = some (.enterExit k) := Act.on_eq_enterExit.2 hc'
    rcases (h.fits p).of_enterExit hhold with ⟨-, -, -, hk⟩ | ⟨hd', -⟩
    · rcases hk with ⟨hcur, -⟩ | ⟨hoff, -⟩
      · obtain rfl := (h.fits p).single hc hcur
        simpa [hc'] using hfree p
      · exact hoff c hc
    · exact hd hd'

/-- CPU `c` stores into `p` and turns to `a`, which is about `p` or about no process. -/
theorem Inv.turn (h : Inv none s L) (hold : ∀ x, x ≠ p → (s.act c).on x = none)
    (hnew : ∀ x, x ≠ p → a.on x = none) (ha : a ≠ .creating p)
    (hprio : r.priority = (s.procs p).priority) (hpid : r.pid = (s.procs p).pid)
    (hpar : r.parentPid = (s.procs p).parentPid) (hp : Fits none { view s L p with
      proc := r, hold := update (view s L p).hold c (a.on p) }) :
    Inv none ((s.setProc p r).setAct c a) L := by
  refine h.touch_same p h.queues (fun x hx => ?_) ?_ (by simpa [hprio] using h.prio p) rfl rfl
    (by simp [hpid]) (by simp [hpar]) (fun _ => act_creating_of_setAct ha)
  · have hsame : a.on x = ((s.setProc p r).act c).on x := (hnew x hx).trans (hold x hx).symm
    rw [view_setAct_of_ne hsame, view_setProc_of_ne hx]
  · rw [view_setAct_self, view_setProc_self]; exact hp

theorem setProc_self (s : Machine n) (p : ProcId) : s.setProc p (s.procs p) = s := by
  simp [Machine.setProc]

/-- The same without a store. -/
theorem Inv.setAct (h : Inv none s L) (hold : ∀ x, x ≠ p → (s.act c).on x = none)
    (hnew : ∀ x, x ≠ p → a.on x = none) (ha : a ≠ .creating p) (hp : Fits none { view s L p with
      hold := update (view s L p).hold c (a.on p) }) : Inv none (s.setAct c a) L := by
  simpa only [setProc_self] using h.turn (r := s.procs p) hold hnew ha rfl rfl rfl hp

/-- The current user process starts `proc_exit` on itself. -/
theorem Inv.enterSelf (h : Inv none s L) (hcur : s.current c = some cur)
    (hpid : (s.procs cur).pid ≠ 0) (hfree : FreeHands s c) (hk : k ≠ .ret) :
    Inv none (s.setAct c (.enterExit cur k)) L := by
  refine h.setAct (p := cur) (fun x _ => hfree x) (fun x hx => by simp [hx.symm]) (by simp) ?_
  simpa using (h.fits cur).enterSelf hcur hpid hk

/-! ## Scheduling sections -/

theorem Effect.of_section (hl : l.cpu = c) (h : Inv none s L) (hsec : Section c cur L s s')
    (hcur : s.current c = some cur) (hfree : FreeHands s c) :
    Effect s l s' [] where
  torn p hp := by
    rcases hsec.state p with he | ⟨rfl | ⟨q, hq⟩, hd, -⟩
    · exact .inl he
    · exact absurd hp (h.not_torn_of_current hcur hfree hd)
    · exact absurd hq (h.not_linked_of_torn hp q)
  events e he := by simp at he
  alive _ p hp := by
    rcases hsec.state p with he | ⟨-, -, hd⟩
    · exact he ▸ hp
    · exact absurd hp hd
  current c' p hp := by
    by_cases hc : c' = c
    · subst hc
      exact (hsec.current p hp).imp_left (by rintro rfl; exact hcur)
    · exact .inl ((hsec.others c' hc) ▸ hp)
  act := by
    subst hl
    rcases hsec.act with ha | ha <;> exact ⟨_, ha, fun _ => .inr (.inl trivial)⟩

/-- `__sched_yield_locked` on CPU `c`. -/
theorem schedYieldLocked_sound (h : Inv none s L) (hfree : FreeHands s c) (hcalm : Calm s)
    (hl : l.cpu = c) :
    ∃ s' L', schedYieldLocked s c now = some (s', []) ∧ Inv none s' L' ∧ Effect s l s' [] := by
  obtain ⟨cur, hcur⟩ := h.current c
  by_cases hd : (s.procs cur).state = .dead ∧ (s.procs cur).pid ≠ 0
  · -- killed by another CPU: on to `proc_exit`
    refine ⟨s.setAct c (.enterExit cur .pick), L, by simp [schedYieldLocked, hcur, hd], ?_, ?_⟩
    · exact h.enterSelf hcur hd.2 hfree (by decide)
    · subst hl
      exact ⟨fun p _ => .inl rfl, by simp, fun _ p hp => hp, fun _ _ hp => .inl hp, _, rfl,
        fun _ => .inr (.inr ⟨cur, hcur, hd.1⟩)⟩
  · obtain ⟨s', L', hps, hinv, hsec⟩ := pickAndSwitch_spec h.inSection hcur hfree hcalm now
    refine ⟨s', L', ?_, hinv, Effect.of_section hl h hsec hcur hfree⟩
    simp [schedYieldLocked, hcur, hd, hps]

/-- Going to sleep: `BLOCKED`, linked, and then a section of the same CPU. -/
theorem block_sound (now : ProcId → ℕ) (h : Inv none s L) (hcur : s.current c = some cur)
    (hpid : (s.procs cur).pid ≠ 0) (hfree : FreeHands s c) (hcalm : Calm s)
    (hd : (s.procs cur).state ≠ .dead) (sleep chan : ℕ) (hl : l.cpu = c) :
    ∃ s' L', (readyEnqueue (s.setProc cur { s.procs cur with
        state := .blocked, sleepUntil := sleep, waitChan := chan }) cur).bind
          (fun s => schedYieldLocked s c now) = some (s', []) ∧
      Inv none s' L' ∧ Effect s l s' [] := by
  have hrun : (s.procs cur).state = .running :=
    ((h.fits cur).of_current (c := c) hcur).resolve_right hd
  have hunl : ∀ q, cur ∉ L q := by
    intro q hq
    obtain ⟨hw, -⟩ := (h.fits cur).of_linked hq
    rcases hw with hw | hw <;> exact absurd (hrun.symm.trans hw) (by decide)
  set s₀ := s.setProc cur { s.procs cur with
    state := .blocked, sleepUntil := sleep, waitChan := chan } with hs₀
  obtain ⟨m, henq, hm⟩ := readyEnqueue_spec (s := s₀) h.queues hunl
  set L₁ := update L (queueOf (s₀.procs cur).priority)
    (L (queueOf (s₀.procs cur).priority) ++ [cur]) with hL₁
  set s₁ : Machine n := { s₀ with links := m } with hs₁
  have hinv₁ : Inv (some c) s₁ L₁ := by
    refine ⟨hm, fun p => ?_, fun p => ?_, fun p => ?_, h.current, h.idle, fun c' p hp => ?_⟩
    · by_cases hp : p = cur
      · subst hp
        rw [view_append_self hunl, hs₀, view_setProc_self]
        simp only [Machine.setProc_procs, update_self]
        exact (h.fits p).requeue hrun hcur (hfree p) hpid (.inr rfl)
      · rw [view_append_of_ne hp, view_setProc_of_ne hp]
        exact (h.fits p).inSection
    · by_cases hp : p = cur <;> simpa [hs₁, hs₀, hp] using h.prio p
    · by_cases hp : p = cur <;> simpa [hs₁, hs₀, hp] using h.pids p
    · have hsame : ∀ x, (s₁.procs x).pid = (s.procs x).pid ∧
          (s₁.procs x).parentPid = (s.procs x).parentPid := by
        intro x
        by_cases hx : x = cur <;> simp [hs₁, hs₀, hx]
      simp only [hsame]
      exact h.parent c' p hp
  have hcalm₁ : Calm s₁ := by
    intro c' p hp hr
    by_cases hpc : p = cur
    · subst hpc; simp [hs₁, hs₀] at hr
    · exact hcalm c' p hp (by simpa [hs₁, hs₀, hpc] using hr)
  obtain ⟨s', L', hps, hinv, hsec⟩ := pickAndSwitch_spec hinv₁ hcur hfree hcalm₁ now
  have hsec' : Section c cur L s s' := by
    refine ⟨hsec.act, hsec.others, hsec.idle, fun p => ?_, hsec.current, fun p => ?_⟩
    · by_cases hp : p = cur
      · subst hp
        refine .inr ⟨.inl rfl, hd, ?_⟩
        rcases hsec.state p with he | ⟨-, -, he⟩
        · rw [he]; simp [hs₁, hs₀]
        · exact he
      have hst := hsec.state p
      rw [show s₁.procs p = s.procs p by simp [hs₁, hs₀, hp]] at hst
      refine hst.imp_right (fun hst => ⟨.inr ?_, hst.2⟩)
      obtain ⟨hpc | ⟨q, hq⟩, -⟩ := hst
      · exact absurd hpc hp
      refine ⟨q, ?_⟩
      by_cases hqq : q = queueOf (s₀.procs cur).priority
      · rw [hL₁, hqq] at hq
        rw [hqq]
        simpa [hp] using hq
      · rwa [hL₁, update_of_ne hqq] at hq
    · by_cases hp : p = cur <;> simpa [hs₁, hs₀, hp] using hsec.keeps p
  refine ⟨s', L', ?_, hinv, Effect.of_section hl h hsec' hcur hfree⟩
  have hcur₁ : s₁.current c = some cur := hcur
  rw [henq]
  simp [schedYieldLocked, hcur₁, hps, show (s₁.procs cur).state = .blocked by
    simp [hs₁, hs₀]]

/-! ## Waking and priorities -/

theorem Effect.of_woken (h : Inv none s L) (hw : Woken (L 0 ++ L 1 ++ L 2) s s')
    (hprocs : s''.procs = s'.procs) (hcur : s''.current = s'.current)
    (hact : ∃ a, s''.act = update s.act l.cpu a ∧
      (l.Plain → a = s.act l.cpu ∨ a.Plain)) : Effect s l s'' [] where
  torn p hp := by
    rw [hprocs]
    rcases hw.procs p with he | ⟨hl, -⟩
    · exact .inl (by rw [he])
    · obtain ⟨q, hq⟩ := mem_queues.1 hl
      exact absurd hq (h.not_linked_of_torn hp q)
  events e he := by simp at he
  alive _ p hp := by
    rw [hprocs] at hp
    rcases hw.procs p with he | ⟨-, -, _, _, he⟩
    · exact he ▸ hp
    · rw [he] at hp; cases hp
  current _ _ hp := .inl (by rwa [hcur, hw.current] at hp)
  act := by
    obtain ⟨a, ha, hpl⟩ := hact
    exact ⟨a, ha, fun hl => (hpl hl).imp_right .inl⟩

theorem schedWakeChan_sound (h : Inv none s L) (c : Fin n) (chan : ℕ) :
    Sound s (.schedWakeChan c chan) := by
  obtain ⟨s', hs', hinv, hw⟩ := wakeAll_spec (wakeOnChan_wakesOne chan) h
  exact ⟨s', [], L, by simp [exec, schedWakeChan, hs'], hinv,
    Effect.of_woken h hw rfl rfl (hw.act ▸ act_keep s _)⟩

theorem schedWakeSleepers_sound (h : Inv none s L) (c : Fin n) (now : ProcId → ℕ) :
    Sound s (.schedWakeSleepers c now) := by
  obtain ⟨s', hs', hinv, hw⟩ := wakeAll_spec (wakeExpired_wakesOne now) h
  exact ⟨s', [], L, by simp [exec, schedWakeSleepers, hs'], hinv,
    Effect.of_woken h hw rfl rfl (hw.act ▸ act_keep s _)⟩

theorem setProc_state (hr : r.state = (s.procs p).state) (x : ProcId) :
    ((s.setProc p r).procs x).state = (s.procs x).state := by
  by_cases hx : x = p <;> simp [hx, hr]

/-- Storing fields that no role depends on. -/
theorem Inv.setData (h : Inv none s L) (hr : SameRole (s.procs p) r)
    (hpar : r.parentPid = (s.procs p).parentPid) : Inv none (s.setProc p r) L := by
  refine h.touch_same p h.queues (fun x hx => view_setProc_of_ne hx) ?_ ?_ rfl rfl
    (by simp [hr.pid]) (by simp [hpar]) (fun _ => id)
  · rw [view_setProc_self]; exact (h.fits p).data hr
  · simpa [hr.priority] using h.prio p

theorem clearChan_sound (h : Inv none s L) (c : Fin n) : Sound s (.clearChan c) := by
  obtain ⟨cur, hcur⟩ := h.current c
  refine ⟨s.setProc cur { s.procs cur with waitChan := 0 }, [], L, by simp [exec, onCurrent, hcur],
    h.setData (p := cur) ⟨rfl, rfl, rfl, rfl, rfl, rfl⟩ rfl, ?_⟩
  exact Effect.of_same (setProc_state rfl) rfl (by simp) (act_keep s _)

/-- `proc_set_priority` of a waiting process: out of one queue, into the other. -/
theorem Fits.refile {v : View n} (h : Fits none v) {q : Prio} (hq : v.linked q) (prio : ℕ) :
    Fits none { v with
      proc := { v.proc with priority := prio }
      linked := fun q' => q' = queueOf prio } := by
  cases h with
  | queued o off user state exiting pid linked saved =>
    exact .queued o off user state exiting pid (fun _ => Iff.rfl) ⟨saved.flag, saved.hold⟩
  | free aside | fresh _ aside | doomed aside | dying _ aside | gone _ aside =>
    exact absurd hq (aside.unlinked q)
  | yielding _ h => cases h
  | running _ _ _ unlinked | idling _ _ _ unlinked => exact absurd hq (unlinked q)

/-- The stores of `proc_set_priority` on a waiting process that changes its queue. -/
theorem Inv.refile (h : Inv none s L) {prio : ℕ} (hprio : prio < 3) {q : Prio} (hp : p ∈ L q) :
    ∃ m L', (readyDequeue s p).bind (fun t => readyEnqueue
        (t.setProc p { t.procs p with priority := prio }) p) =
          some { s.setProc p { s.procs p with priority := prio } with links := m } ∧
      Inv none { s.setProc p { s.procs p with priority := prio } with links := m } L' := by
  obtain ⟨m, hdeq, hm⟩ := readyDequeue_spec h.queues p
  have hunl : ∀ q, p ∉ (L q).erase p := fun q => (h.queues.nodup q).not_mem_erase
  let t : Machine n := ({ s with links := m } : Machine n).setProc p
    { s.procs p with priority := prio }
  obtain ⟨m', henq, hm'⟩ := readyEnqueue_spec (s := t) hm hunl
  have hq : queueOf (t.procs p).priority = queueOf prio := by simp [t]
  rw [hq] at hm'
  refine ⟨m', update (fun q => (L q).erase p) (queueOf prio)
    ((L (queueOf prio)).erase p ++ [p]), ?_, ?_⟩
  · rw [hdeq]
    exact henq
  · refine h.touch_same p hm' (fun x hx => ?_) ?_ (by simpa using hprio) rfl rfl (by simp)
      (by simp) (fun _ => id)
    · have hv := view_append_of_ne (s := t) (L := fun q => (L q).erase p) (m := m')
        (q := queueOf prio) hx
      rw [view_setProc_of_ne hx, view_unlink_of_ne hx] at hv
      exact hv
    · have hv := view_append_self (s := t) (m := m') (q := queueOf prio) hunl
      rw [view_setProc_self] at hv
      exact hv ▸ (h.fits p).refile hp prio

theorem procSetPriority_sound (h : Inv none s L) (c : Fin n) {prio : ℕ}
    (hg : ∀ c, s.act c ≠ .enterExit p .ret) : Sound s (.procSetPriority c p prio) := by
  by_cases hprio : 3 ≤ prio
  · exact ⟨s, [], L, by simp [exec, procSetPriority, hprio], h, .refl s _⟩
  have hlt : prio < 3 := Nat.lt_of_not_le hprio
  have heff : ∀ m, Effect s (.procSetPriority c p prio)
      { s.setProc p { s.procs p with priority := prio } with links := m } [] := fun _ =>
    Effect.of_same (setProc_state rfl) rfl (by simp) (act_keep s _)
  by_cases hw : (s.procs p).state = .ready ∨ (s.procs p).state = .blocked
  · have hmem := h.linked_of_waits hw hg
    by_cases hsame : (s.procs p).priority = prio
    · -- the same priority: nothing moves
      refine ⟨s, [], L, ?_, h, .refl s _⟩
      have hproc : s.setProc p { s.procs p with priority := prio } = s := by
        rw [← hsame]; exact setProc_self s p
      simp [exec, procSetPriority, hsame, hproc, readyEnqueue_mem h.queues hmem]
    · obtain ⟨m, L', hrun, hinv⟩ := h.refile hlt hmem
      refine ⟨_, [], L', ?_, hinv, heff m⟩
      simp [exec, procSetPriority, hprio, hw, hsame, hrun]
  · refine ⟨s.setProc p { s.procs p with priority := prio }, [], L, ?_, ?_, heff s.links⟩
    · simp [exec, procSetPriority, hprio, hw]
    · refine h.touch_same p h.queues (fun x hx => view_setProc_of_ne hx) ?_ (by simpa using hlt)
        rfl rfl (by simp) (by simp) (fun _ => id)
      rw [view_setProc_self]
      exact (h.fits p).setPriority hw prio

/-! ## Creation -/

theorem freeSlot_spec (h : freeSlot s = some i) :
    (s.procs i).state = .dead ∧ (s.procs i).reaped = true ∧ (i : ℕ) ≠ 0 := by
  have hi := List.find?_some h
  simp only [Bool.and_eq_true, beq_iff_eq] at hi
  refine ⟨hi.1, hi.2, ?_⟩
  -- the search starts at slot 1
  have htail : (List.finRange (255 + 1)).tail = (List.finRange 255).map Fin.succ := by
    rw [List.finRange_succ, List.tail_cons]
  have hmem : i ∈ (List.finRange (255 + 1)).tail := List.mem_of_find?_eq_some h
  rw [htail] at hmem
  obtain ⟨j, -, rfl⟩ := List.mem_map.1 hmem
  simp

/-- A slot that `proc_create` may hand out is in nobody's hands. -/
theorem Inv.quiet_of_free (h : Inv none s L) (hs : (s.procs p).state = .dead)
    (hr : (s.procs p).reaped = true) : Quiet s p := by
  have hfit := h.fits p
  have hfree : (view s L p).Aside ∧ (view s L p).SavedBy none := by
    cases hfit with
    | free aside _ _ saved => exact ⟨aside, saved⟩
    | fresh _ _ _ reaped | dying _ _ _ _ reaped | gone _ _ _ reaped =>
      exact absurd (hr.symm.trans reaped) (by decide)
    | queued _ _ _ state | doomed _ state =>
      rcases state with h | h <;> exact absurd (hs.symm.trans h) (by decide)
    | yielding _ h => cases h
    | running _ _ _ _ _ state =>
      rcases state with ⟨h, -⟩ | ⟨-, h⟩
      · exact absurd (hs.symm.trans h) (by decide)
      · exact absurd (hr.symm.trans h) (by decide)
    | idling _ _ _ _ _ state => exact absurd (hs.symm.trans state) (by decide)
  obtain ⟨aside, saved⟩ := hfree
  have hnone : ∀ c, (s.act c).on p = none := fun c =>
    (saved.hold c).trans (if_neg (by simp))
  refine ⟨aside.off, fun c k hc => ?_, fun c st k hc => ?_, fun c hc => ?_, saved.flag⟩
  all_goals simpa [hc] using hnone c

theorem procCreate_sound (h : Inv none s L) (hrun : s.act c = .run) (pml4 kstack : ℕ) :
    Sound s (.procCreate c pml4 kstack) := by
  cases hslot : freeSlot s with
  | none =>
    exact ⟨s, [], L, by simp [exec, procCreate, hslot], h, .refl s _⟩
  | some i =>
    obtain ⟨hs, hr, hi⟩ := freeSlot_spec hslot
    have hq := h.quiet_of_free hs hr
    refine ⟨(s.setProc i (freshProc (s.procs i) i pml4 kstack)).setAct c (.creating i),
      [.reuse i], L, by simp [exec, procCreate, hslot], ?_, ?_⟩
    · refine h.touch i h.queues (fun x hx => ?_) ?_ ?_ (.inr (by simp [freshProc])) rfl rfl
        (.inr hq.current) (fun c' _ => .inl (by simp [freshProc]))
      · rw [view_setAct_of_ne (by simp [hrun, hx.symm]), view_setProc_of_ne hx]
      · rw [view_setAct_self, view_setProc_self, Act.on_creating, if_pos rfl]
        exact (h.fits i).create hs hr hs rfl rfl hi rfl
      · simp [freshProc, prioNormal]
    · refine Effect.of_same (fun x => ?_) rfl (fun e he => ?_) ⟨_, rfl, fun _ => .inr trivial⟩
      · exact setProc_state (r := freshProc (s.procs i) i pml4 kstack) rfl x
      · rw [List.mem_singleton.1 he]; exact hq

theorem Act.created_eq (h : a.created = some p) : a = .creating p := by
  cases a <;> simp [Act.created] at h
  rw [h]

theorem Act.saved_eq (h : a.saved = some p) : a = .saving p := by
  cases a <;> simp [Act.saved] at h
  rw [h]

section

variable (h : Inv none s L)
include h

theorem initChild_sound (hc : s.act c = .creating p) (userRsp : ℕ) :
    Sound s (.initChild c userRsp) := by
  obtain ⟨cur, hcur⟩ := h.current c
  have hhold : (view s L p).hold c = some .creating := Act.on_eq_creating.2 hc
  obtain ⟨aside, hst, hre, hex, hpid, hsw, hold⟩ := (h.fits p).of_creating hhold
  have hne : cur ≠ p := by rintro rfl; exact aside.off c hcur
  refine ⟨initChild s p cur userRsp, [], L, by simp [exec, hc, Act.created, onCurrent, hcur], ?_,
    ?_⟩
  · refine h.touch p h.queues (fun x hx => view_setProc_of_ne hx) ?_ ?_ ?_ rfl rfl
      (.inl (by simp [initChild])) (fun c' hc' => ?_)
    · rw [initChild, view_setProc_self]
      exact .fresh c aside.keep hst rfl hex hpid hsw hold
    · simpa [initChild] using h.prio cur
    · simpa [initChild] using h.pids p
    · have hcc : c' = c := by
        by_contra hcc
        have := (hold c').symm.trans (Act.on_eq_creating.2 hc')
        simp [hcc] at this
      subst hcc
      exact .inr ⟨cur, hcur, by simp [initChild, hne]⟩
  · exact Effect.of_same (setProc_state rfl) rfl (by simp) (act_keep s _)

theorem procMakeReady_sound (hc : s.act c = .creating p) : Sound s (.procMakeReady c) := by
  have hhold : (view s L p).hold c = some .creating := Act.on_eq_creating.2 hc
  obtain ⟨aside, hst, -⟩ := (h.fits p).of_creating hhold
  obtain ⟨m, henq, hm⟩ := readyEnqueue_spec (s := s.setState p .ready) h.queues aside.unlinked
  refine ⟨({ s.setState p .ready with links := m } : Machine n).setAct c .run, [],
    update L (queueOf ((s.setState p .ready).procs p).priority)
      (L (queueOf ((s.setState p .ready).procs p).priority) ++ [p]),
    by simp [exec, hc, Act.created, procMakeReady, henq], ?_, ?_⟩
  · refine h.touch_same p hm (fun x hx => ?_) ?_ (by simpa using h.prio p) rfl rfl (by simp)
      (by simp) (fun _ => act_creating_of_setAct (by simp))
    · rw [view_setAct_of_ne (by simp [hc, hx.symm]), view_append_of_ne hx, Machine.setState,
        view_setProc_of_ne hx]
    · rw [view_setAct_self, view_append_self aside.unlinked, Machine.setState, view_setProc_self]
      simp only [Machine.setProc_procs, update_self]
      exact (h.fits p).makeReady hhold
  · refine ⟨fun x _ => ?_, by simp, fun _ x hx => ?_, fun _ _ hx => .inl hx, _, rfl,
      fun _ => .inr (.inl trivial)⟩
    · by_cases hx : x = p
      · subst hx; exact .inr (.inr ⟨trivial, hc⟩)
      · exact .inl (by simp [hx])
    · by_cases hxp : x = p
      · subst hxp; simp at hx
      · simpa [hxp] using hx

theorem schedAdoptCurrent_sound (hc : s.act c = .creating p) (hidle : s.current c = s.idle c) :
    Sound s (.schedAdoptCurrent c) := by
  have hhold : (view s L p).hold c = some .creating := Act.on_eq_creating.2 hc
  obtain ⟨aside, -, -, -, hpid, -⟩ := (h.fits p).of_creating hhold
  obtain ⟨i, hi⟩ := h.idle c
  have hcur : s.current c = some i := hidle.trans hi
  have hne : i ≠ p := by rintro rfl; exact aside.off c hcur
  let t : Machine n :=
    { s.setState p .running with current := update s.current c (some p) }
  obtain ⟨m, hdeq, hm⟩ := readyDequeue_spec (s := t) h.queues p
  have hL : (fun q => (L q).erase p) = L := by
    funext q; exact List.erase_of_not_mem (aside.unlinked q)
  rw [hL] at hm
  set s' : Machine n := ({ t with links := m } : Machine n).setAct c .run with hs'
  have hproc : ∀ x, x ≠ p → s'.procs x = s.procs x := fun x hx => by simp [hs', t, hx]
  have hpids : ∀ x, (s'.procs x).pid = (s.procs x).pid ∧
      (s'.procs x).parentPid = (s.procs x).parentPid ∧
      (s'.procs x).priority = (s.procs x).priority := by
    intro x
    by_cases hx : x = p <;> simp [hs', t, hx]
  have hact : ∀ c', c' ≠ c → s'.act c' = s.act c' := fun c' hc' => by simp [hs', t, hc']
  have hcurrent : ∀ c', c' ≠ c → s'.current c' = s.current c' := fun c' hc' => by
    simp [hs', t, hc']
  have hadopt : schedAdoptCurrent s c p = some { t with links := m } := hdeq
  refine ⟨s', [], L, by simp [exec, hc, Act.created, hadopt, hs'], ?_, ?_⟩
  · refine ⟨hm, fun x => ?_, fun x => ?_, fun x => ?_, fun c' => ?_, h.idle, fun c' x hx => ?_⟩
    · by_cases hxp : x = p
      · subst hxp
        have hv : view s' L x = { view s L x with
            proc := { s.procs x with state := .running }
            current := fun c' => c' = c
            hold := update (view s L x).hold c none } := by
          ext c'
          · simp [view, hs', t]
          · rfl
          · have := aside.off c'
            by_cases hcc : c' = c <;> simp_all [view, t]
          · rfl
          · by_cases hcc : c' = c <;> simp [view, hs', t, hcc]
        rw [hv]
        exact (h.fits x).adopt hhold
      by_cases hxi : x = i
      · subst hxi
        have hv : view s' L x = { view s L x with
            current := fun c' => c' ≠ c ∧ s.current c' = some x } := by
          ext c'
          · simp [view, hs', t, hxp]
          · rfl
          · by_cases hcc : c' = c <;> simp [view, hs', t, hcc, hne.symm]
          · rfl
          · by_cases hcc : c' = c <;> simp [view, hs', t, hcc, hc, hne.symm]
        rw [hv]
        exact (h.fits x).abandonIdle hi
      · have hv : view s' L x = view s L x := by
          refine view_congr (hproc x hxp) (fun _ => Iff.rfl) (fun c' => ?_) rfl (fun c' => ?_)
          · by_cases hcc : c' = c <;> simp [hs', t, hcc, hcur, Ne.symm hxp, Ne.symm hxi]
          · by_cases hcc : c' = c <;> simp [hs', t, hcc, hc, Ne.symm hxp]
        rw [hv]
        exact h.fits x
    · rw [(hpids x).2.2]; exact h.prio x
    · rw [(hpids x).1]; exact h.pids x
    · by_cases hcc : c' = c
      · subst hcc; exact ⟨p, by simp [hs', t]⟩
      · rw [hcurrent c' hcc]; exact h.current c'
    · have hcc : c' ≠ c := by
        rintro rfl
        simp [hs'] at hx
      rw [hcurrent c' hcc, (hpids x).2.1]
      simp only [(hpids _).1]
      exact h.parent c' x (hact c' hcc ▸ hx)
  · refine ⟨fun x _ => ?_, by simp, fun _ x hx => ?_, fun c' x hx => ?_, _, rfl,
      fun _ => .inr (.inl trivial)⟩
    · by_cases hxp : x = p
      · subst hxp; exact .inr (.inr ⟨trivial, hc⟩)
      · exact .inl (by rw [hproc x hxp])
    · by_cases hxp : x = p
      · subst hxp; simp [hs', t] at hx
      · rwa [hproc x hxp] at hx
    · by_cases hcc : c' = c
      · subst hcc
        obtain rfl : p = x := by simpa [hs', t] using hx
        exact .inr (by simp [hs', t])
      · exact .inl (hcurrent c' hcc ▸ hx)

theorem contextSaved_sound (hc : s.act c = .saving p) : Sound s (.contextSaved c) := by
  have hhold : (view s L p).hold c = some .saving := Act.on_eq_saving.2 hc
  refine ⟨(s.setProc p { s.procs p with switching := false }).setAct c .run, [], L,
    by simp [exec, hc, Act.saved], ?_, ?_⟩
  · exact h.turn (fun x hx => by simp [hc, hx.symm]) (fun _ _ => rfl) (by simp) rfl rfl rfl
      ((h.fits p).saveDone hhold)
  · refine Effect.of_same (fun x => ?_) rfl (by simp) ⟨_, rfl, fun _ => .inr trivial⟩
    simpa using setProc_state (s := s) (p := p) (r := { s.procs p with switching := false }) rfl x

/-! ## Exit, kill and wait -/

theorem sysExit_sound (hrun : s.act c = .run) (hcur : s.current c = some cur)
    (hpid : (s.procs cur).pid ≠ 0) (code : ℤ) :
    Sound s (.sysExit c code) := by
  have hinv := h.setData (p := cur) (r := { s.procs cur with exitCode := code })
    ⟨rfl, rfl, rfl, rfl, rfl, rfl⟩ rfl
  refine ⟨_, [], L, by simp only [exec, onCurrent, hcur],
    hinv.enterSelf (k := .yield) hcur (by simpa using hpid) (FreeHands.of_run hrun) (by decide), ?_⟩
  refine Effect.of_same (fun x => ?_) rfl (by simp) ⟨_, rfl, fun hl => absurd hl id⟩
  simpa using setProc_state (s := s) (p := cur) (r := { s.procs cur with exitCode := code }) rfl x

theorem procKill_sound (hrun : s.act c = .run) (hpid : (s.procs p).pid ≠ 0)
    (hg : s.current c = some p ∨ (s.procs p).state = .running ∨
      (s.procs p).state ≠ .dead ∧ (s.procs p).switching = false) :
    Sound s (.procKill c p) := by
  have hfree := FreeHands.of_run hrun
  by_cases hexit : (s.procs p).exiting = true
  · exact ⟨s, [], L, by simp [exec, procKill, hexit], h, .refl s _⟩
  by_cases hself : s.current c = some p
  · refine ⟨_, [], L, by simp only [exec, procKill, hexit, hself]; rfl,
      h.enterSelf (k := .yield) hself hpid hfree (by decide), ?_⟩
    exact Effect.of_same (fun _ => rfl) rfl (by simp) ⟨_, rfl, fun hl => absurd hl id⟩
  by_cases hst : (s.procs p).state = .running
  · refine ⟨s.setProc p { s.procs p with state := .dead, exiting := false, reaped := false }, [],
      L, by simp [exec, procKill, hexit, hself, hst], ?_, ?_⟩
    · refine h.touch_same p h.queues (fun x hx => view_setProc_of_ne hx) ?_
        (by simpa using h.prio p) rfl rfl (by simp) (by simp) (fun _ => id)
      rw [view_setProc_self]
      exact (h.fits p).markDead hst hpid
    · refine ⟨fun x _ => ?_, by simp, fun hl => absurd hl id, fun _ _ hx => .inl hx,
        s.act c, (update_eq_self ..).symm, fun hl => absurd hl id⟩
      by_cases hx : x = p
      · subst hx; exact .inr (.inl (by simp))
      · exact .inl (by simp [hx])
  obtain ⟨hdead, hsw⟩ := (hg.resolve_left hself).resolve_left hst
  have hw : (s.procs p).state.waits := by
    cases hs : (s.procs p).state with
    | dead => exact absurd hs hdead
    | running => exact absurd hs hst
    | ready => exact .inl rfl
    | blocked => exact .inr rfl
  obtain ⟨m, hdeq, hm⟩ := readyDequeue_spec h.queues p
  refine ⟨({ s with links := m } : Machine n).setAct c (.enterExit p .ret), [],
    fun q => (L q).erase p, by simp [exec, procKill, hexit, hself, hst, hdeq], ?_, ?_⟩
  · refine h.touch_same p hm (fun x hx => ?_) ?_ (h.prio p) rfl rfl rfl rfl
      (fun _ => act_creating_of_setAct (by simp))
    · rw [view_setAct_of_ne (by simp [hrun, hx.symm]), view_unlink_of_ne hx]
    · rw [view_setAct_self, view_unlink_self h.queues.nodup, Act.on_enterExit, if_pos rfl]
      exact (h.fits p).doom hw hsw
  · exact Effect.of_same (fun _ => rfl) rfl (by simp) ⟨_, rfl, fun hl => absurd hl id⟩

end

theorem afterExit_eq (s : Machine n) (c : Fin n) (k : After) :
    ∃ a, afterExit s c k = s.setAct c a ∧ (∀ x, a.on x = none) ∧ ∀ x, a ≠ .creating x := by
  cases k with
  | yield => exact ⟨.mustYield, rfl, fun _ => rfl, fun _ => nofun⟩
  | pick => exact ⟨.mustPick, rfl, fun _ => rfl, fun _ => nofun⟩
  | ret => exact ⟨.run, rfl, fun _ => rfl, fun _ => nofun⟩

theorem exitClaim_sound (h : Inv none s L) (hc : s.act c = .enterExit p k) :
    Sound s (.exitClaim c) := by
  have hhold : (view s L p).hold c = some (.enterExit k) := Act.on_eq_enterExit.2 hc
  by_cases hexit : (s.procs p).exiting = true
  · obtain ⟨a, ha, hnone, hcr⟩ := afterExit_eq s c k
    refine ⟨s.setAct c a, [], L, by simp [exec, hc, exitClaim, hexit, ha], ?_, ?_⟩
    · refine h.setAct (p := p) (fun x hx => by simp [hc, hx.symm]) (fun x _ => hnone x) (hcr p) ?_
      rw [hnone p]
      exact (h.fits p).leaveExit hhold hexit
    · exact Effect.of_same (fun _ => rfl) rfl (by simp) ⟨_, rfl, fun hl => absurd hl id⟩
  have hexit' : (s.procs p).exiting = false := by simpa using hexit
  refine ⟨(s.setProc p { s.procs p with exiting := true, state := .dead, reaped := false }).setAct
    c (.inExit p .wake k), [], L, by simp [exec, hc, exitClaim, hexit], ?_, ?_⟩
  · refine h.turn (fun x hx => by simp [hc, hx.symm]) (fun x hx => by simp [hx.symm]) (by simp)
      rfl rfl rfl ?_
    rw [Act.on_inExit, if_pos rfl]
    exact (h.fits p).claim hhold hexit'
  · refine ⟨fun x _ => ?_, by simp, fun hl => absurd hl id, fun _ _ hx => .inl hx, _, rfl,
      fun hl => absurd hl id⟩
    by_cases hx : x = p
    · subst hx; exact .inr (.inl (by simp))
    · exact .inl (by simp [hx])

section

variable (h : Inv none s L) (hc : s.act c = .inExit p st k)
include h hc

/-- A stage of `proc_exit` that stores fields no role depends on and goes on. -/
theorem Inv.advance (hr : SameRole (s.procs p) r) (hpar : r.parentPid = (s.procs p).parentPid)
    (ha : (∀ x, a.on x = none) ∨ ∃ st', a = .inExit p st' k) (hcr : a ≠ .creating p) :
    Inv none ((s.setProc p r).setAct c a) L := by
  have hinv := h.setData hr hpar
  have hact : (s.setProc p r).act c = .inExit p st k := hc
  refine hinv.setAct (p := p) (fun x hx => by simp [hact, hx.symm]) (fun x hx => ?_) hcr ?_
  · rcases ha with ha | ⟨st', rfl⟩
    · exact ha x
    · simp [hx.symm]
  · refine (hinv.fits p).advance (Act.on_eq_inExit.2 hact) ?_
    rcases ha with ha | ⟨st', rfl⟩
    · exact .inl (ha p)
    · exact .inr ⟨st', by simp⟩

/-- What `proc_exit` may rely on while it frees. -/
theorem Inv.alone_of_inExit : Alone s c p := by
  obtain ⟨-, -, hsw, -, hcur, hothers⟩ := (h.fits p).of_inExit (Act.on_eq_inExit.2 hc)
  have hhold : ∀ c', c' ≠ c → (s.act c').on p = none ∨
      (s.act c').on p = some (.enterExit .ret) := hothers
  refine ⟨fun c' hne hc' => hne (hcur c' hc'), fun c' st' k' hne hc' => ?_, fun c' hc' => ?_, hsw⟩
  · rcases hhold c' hne with h' | h' <;> simp [hc'] at h'
  · by_cases hne : c' = c
    · simp [hne, hc] at hc'
    · rcases hhold c' hne with h' | h' <;> simp [hc'] at h'

theorem exitStage_sound (chan : Option ℕ) : Sound s (.exitStage c chan) := by
  have hgo : ∀ {t : Machine n} {st' : ExitStage}, Inv none t L → t.act c = .inExit p st k →
      Inv none (t.setAct c (.inExit p st' k)) L := by
    intro t st' ht hct
    have := ht.advance hct (r := t.procs p) ⟨rfl, rfl, rfl, rfl, rfl, rfl⟩ rfl
      (a := .inExit p st' k) (.inr ⟨st', rfl⟩) (by simp)
    rwa [setProc_self] at this
  have hnil : ∀ {t : Machine n} {a : Act}, (∀ x, (t.procs x).state = (s.procs x).state) →
      t.current = s.current → t.act = s.act →
      Effect s (.exitStage c chan) (t.setAct c a) [] := fun hst hcur hact =>
    Effect.of_same hst hcur (by simp) ⟨_, by rw [← hact]; rfl, fun hl => absurd hl id⟩
  have halone := h.alone_of_inExit hc
  cases st with
  | wake =>
    obtain ⟨t, ht, hw⟩ := wakeJoiner_spec chan h.queues
    have hct : t.act c = .inExit p .wake k := by rw [hw.act]; exact hc
    refine ⟨t.setAct c (.inExit p .tables k), [], L, by simp [exec, hc, exitStage, ht],
      hgo (hw.inv h) hct, ?_⟩
    exact Effect.of_woken h hw rfl rfl ⟨_, by rw [← hw.act]; rfl, fun hl => absurd hl id⟩
  | tables =>
    by_cases hp : (s.procs p).pml4 = 0
    · exact ⟨s.setAct c (.inExit p .kstack k), [], L, by simp [exec, hc, exitStage, exitTables, hp],
        hgo h hc, hnil (fun _ => rfl) rfl rfl⟩
    set r : Proc := { s.procs p with
      pml4Refcount := (s.procs p).pml4Refcount - 1, pml4 := 0 } with hr
    refine ⟨(s.setProc p r).setAct c (.inExit p .kstack k), (exitTables s p).2, L,
      by simp [exec, hc, exitStage, exitTables, hp, hr],
      h.advance (r := r) hc ⟨rfl, rfl, rfl, rfl, rfl, rfl⟩ rfl (.inr ⟨.kstack, rfl⟩) (by simp),
      ?_⟩
    refine Effect.of_same (setProc_state (r := r) rfl) rfl (fun e he => ?_)
      ⟨_, rfl, fun hl => absurd hl id⟩
    simp only [exitTables, hp, if_false] at he
    split at he
    · rw [List.mem_singleton.1 he]; exact halone
    · simp at he
  | kstack =>
    by_cases hp : (s.procs p).kstack ≠ 0 ∧ s.current c ≠ some p
    · refine ⟨(s.setProc p { s.procs p with kstack := 0 }).setAct c (.inExit p .dequeue k),
        [.freeKstack p], L, by simp [exec, hc, exitStage, exitKstack, hp],
        h.advance (r := { s.procs p with kstack := 0 }) hc ⟨rfl, rfl, rfl, rfl, rfl, rfl⟩ rfl
          (.inr ⟨.dequeue, rfl⟩) (by simp), ?_⟩
      refine Effect.of_same (setProc_state (r := { s.procs p with kstack := 0 }) rfl) rfl
        (fun e he => ?_) ⟨_, rfl, fun hl => absurd hl id⟩
      rw [List.mem_singleton.1 he]
      exact ⟨halone, hp.2⟩
    · exact ⟨s.setAct c (.inExit p .dequeue k), [], L,
        by simp [exec, hc, exitStage, exitKstack, hp], hgo h hc, hnil (fun _ => rfl) rfl rfl⟩
  | dequeue =>
    obtain ⟨-, -, -, hunl, -⟩ := (h.fits p).of_inExit (Act.on_eq_inExit.2 hc)
    obtain ⟨m, hdeq, hm⟩ := readyDequeue_spec h.queues p
    have hL : (fun q => (L q).erase p) = L := by
      funext q; exact List.erase_of_not_mem (hunl q)
    rw [hL] at hm
    let t : Machine n := { s with links := update m (.next p) none }
    have ht : Inv none t L :=
      ⟨hm.store_next hunl none, h.fits, h.prio, h.pids, h.current, h.idle, h.parent⟩
    obtain ⟨a, ha, hnone, hcr⟩ := afterExit_eq t c k
    refine ⟨t.setAct c a, [], L, ?_, ?_, hnil (fun _ => rfl) rfl rfl⟩
    · simp only [exec, hc, exitStage, hdeq, Option.map_some]
      rw [← ha]
    · have := ht.advance (c := c) (p := p) hc (r := t.procs p) ⟨rfl, rfl, rfl, rfl, rfl, rfl⟩ rfl
        (.inl hnone) (hcr p)
      rwa [setProc_self] at this

end

theorem reap_sound (h : Inv none s L) (hrun : s.act c = .run) (hd : (s.procs p).state = .dead)
    (hcur : s.current c = some cur) (hcpid : (s.procs cur).pid ≠ 0)
    (hpar : (s.procs p).parentPid = (s.procs cur).pid) (hg : Guard s (.reap c p)) :
    Sound s (.reap c p) := by
  obtain ⟨hoff, henter, hin, hsw⟩ := hg
  -- a slot under construction names a process that is busy constructing it
  have hfresh : ∀ c', s.act c' ≠ .creating p := by
    intro c' hc'
    rcases h.parent c' p hc' with h0 | ⟨cur', hcur', hpid'⟩
    · exact hcpid (hpar.symm.trans h0)
    have hsame : cur' = cur := by
      have he : (s.procs cur').pid = (s.procs cur).pid := hpid'.symm.trans hpar
      have h1 := (h.pids cur).resolve_left hcpid
      have h2 := (h.pids cur').resolve_left (fun h0 => hcpid (he.symm.trans h0))
      exact Fin.ext (h2.symm.trans (he.trans h1))
    subst hsame
    obtain rfl := (h.fits cur').single hcur' hcur
    simp [hrun] at hc'
  refine ⟨reap s p, [], L, rfl, ?_, ?_⟩
  · refine h.touch_same p h.queues (fun x hx => view_setProc_of_ne hx) ?_
      (by simpa [reap] using h.prio p) rfl rfl (by simp [reap]) (by simp [reap]) (fun _ => id)
    rw [reap, view_setProc_self]
    exact (h.fits p).collect hd hoff hsw (fun c' hc' => hfresh c' (Act.on_eq_creating.1 hc'))
      (fun c' k hc' => henter c' k (Act.on_eq_enterExit.1 hc'))
      (fun c' st k hc' => hin c' st k (Act.on_eq_inExit.1 hc'))
  · exact Effect.of_same (setProc_state (r := { s.procs p with reaped := true }) rfl) rfl (by simp)
      (act_keep s _)

/-! ## Every step -/

/-- **Every guarded step** of a machine in the invariant comes back, keeps the
invariant, and does no more than `Effect` allows. -/
theorem exec_spec (h : Inv none s L) (hen : enabled s l) (hg : Guard s l) : Sound s l := by
  cases l with
  | schedYield c now =>
    have hfree : FreeHands s c := by
      rcases hen with h' | h' <;> intro p <;> rw [h'] <;> rfl
    obtain ⟨s', L', hs', hinv, heff⟩ := schedYieldLocked_sound h hfree hg
      (l := .schedYield c now) rfl
    exact ⟨s', [], L', hs', hinv, heff⟩
  | procSleep c ms hz tick now =>
    obtain ⟨cur, hcur⟩ := h.current c
    have hpid : (s.procs cur).pid ≠ 0 := by simpa [userCurrent, hcur] using hen.2
    obtain ⟨s', L', hs', hinv, heff⟩ := block_sound now h hcur hpid
      (FreeHands.of_run hen.1) hg.1 (hg.2 cur hcur) ((tick + toTicks ms hz) % 2 ^ 64)
      (s.procs cur).waitChan (l := .procSleep c ms hz tick now) rfl
    exact ⟨s', [], L', by simpa [exec, onCurrent, hcur, procSleep] using hs', hinv, heff⟩
  | schedBlockOn c chan ms hz tick now =>
    obtain ⟨cur, hcur⟩ := h.current c
    have hpid : (s.procs cur).pid ≠ 0 := by simpa [userCurrent, hcur] using hen.2
    obtain ⟨s', L', hs', hinv, heff⟩ := block_sound now h hcur hpid
      (FreeHands.of_run hen.1) hg.1 (hg.2 cur hcur)
      ((tick + toTicks (if ms = 0 then schedWaitBackstopMs else ms) hz) % 2 ^ 64) chan
      (l := .schedBlockOn c chan ms hz tick now) rfl
    exact ⟨s', [], L', by simpa [exec, onCurrent, hcur, schedBlockOn] using hs', hinv, heff⟩
  | clearChan c => exact clearChan_sound h c
  | schedWakeChan c chan => exact schedWakeChan_sound h c chan
  | schedWakeSleepers c now => exact schedWakeSleepers_sound h c now
  | procSetPriority c => exact procSetPriority_sound h c hg
  | procCreate c pml4 kstack => exact procCreate_sound h hen pml4 kstack
  | initChild c userRsp =>
    obtain ⟨p, hp⟩ := Option.isSome_iff_exists.1 hen.1
    exact initChild_sound h (Act.created_eq hp) userRsp
  | procMakeReady =>
    obtain ⟨p, hp⟩ := Option.isSome_iff_exists.1 hen
    exact procMakeReady_sound h (Act.created_eq hp)
  | schedAdoptCurrent =>
    obtain ⟨p, hp⟩ := Option.isSome_iff_exists.1 hen.1
    exact schedAdoptCurrent_sound h (Act.created_eq hp) hen.2
  | contextSaved =>
    obtain ⟨p, hp⟩ := Option.isSome_iff_exists.1 hen
    exact contextSaved_sound h (Act.saved_eq hp)
  | sysExit c code =>
    obtain ⟨cur, hcur⟩ := h.current c
    have hpid : (s.procs cur).pid ≠ 0 := by simpa [userCurrent, hcur] using hen.2
    exact sysExit_sound h hen.1 hcur hpid code
  | procKill => exact procKill_sound h hen.1 hen.2 hg
  | exitClaim c =>
    cases ha : s.act c with
    | enterExit => exact exitClaim_sound h ha
    | _ => simp [enabled, ha] at hen
  | exitStage c chan =>
    cases ha : s.act c with
    | inExit => exact exitStage_sound h ha chan
    | _ => simp [enabled, ha] at hen
  | exitPick c now =>
    obtain ⟨cur, hcur⟩ := h.current c
    have hfree : FreeHands s c := by
      intro p; rw [show s.act c = .mustPick from hen]; rfl
    obtain ⟨s', L', hps, hinv, hsec⟩ := pickAndSwitch_spec h.inSection hcur hfree hg now
    exact ⟨s', [], L', by simpa [exec, onCurrent, hcur] using hps, hinv,
      Effect.of_section rfl h hsec hcur hfree⟩
  | reap c =>
    obtain ⟨hrun, hd, -, hpar⟩ := hen
    obtain ⟨cur, hcur⟩ := h.current c
    simp only [hcur] at hpar
    exact reap_sound h hrun hd hcur hpar.1 hpar.2 hg

end Xos.Sched
