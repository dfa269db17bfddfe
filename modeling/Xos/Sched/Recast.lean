import Xos.Sched.Channels

/-!
# What the scheduler does not look at

`reaped`, `parent_pid`, `tgid` and `pml4_refcount` are kept in `proc_t` for `proc_create`,
`proc_waitpid` and `proc_exit`.  The sections that wake, pick, switch and file processes neither
read nor write them: two machines that differ only there take the same steps, and stay like that.

* `recast` — the same machine with other values of those fields;
* `exec_recast` — a step that is `Neutral` does the same on both.
-/

namespace Xos.Sched

open Xos.Lib

variable {n : ℕ} {l : Label n}

/-- The fields that only creation, `proc_waitpid` and `proc_exit` use. -/
structure Kin where
  reaped : Bool
  parentPid : ℕ
  tgid : ℕ
  pml4Refcount : ℤ

/-- Those fields of a process. -/
def Proc.kin (r : Proc) : Kin := ⟨r.reaped, r.parentPid, r.tgid, r.pml4Refcount⟩

/-- A process with other values there. -/
@[simps]
def Proc.withKin (r : Proc) (k : Kin) : Proc :=
  { r with
    reaped := k.reaped, parentPid := k.parentPid, tgid := k.tgid, pml4Refcount := k.pml4Refcount }

@[simp] theorem withKin_kin (r : Proc) (k : Kin) : (r.withKin k).kin = k := rfl
@[simp] theorem kin_withKin (r : Proc) : r.withKin r.kin = r := rfl

/-- The machine with other values there. -/
@[simps procs, simps -fullyApplied links current idle act]
def recast (g : ProcId → Kin) (s : Machine n) : Machine n :=
  { s with procs := fun p => (s.procs p).withKin (g p) }

theorem recast_self (s : Machine n) : recast (fun p => (s.procs p).kin) s = s := rfl

section

variable (g : ProcId → Kin) (s : Machine n)

/-- A store to a process, on both sides. -/
theorem recast_setProc (p : ProcId) (r : Proc) :
    recast g (s.setProc p r) = (recast g s).setProc p (r.withKin (g p)) := by
  unfold recast
  congr 1
  funext x
  by_cases hx : x = p
  · subst hx
    simp
  · simp [hx]

/-- A store that also sets those fields. -/
theorem recast_update (p : ProcId) (r : Proc) (k : Kin) :
    recast (Function.update g p k) (s.setProc p r) = (recast g s).setProc p (r.withKin k) := by
  unfold recast
  congr 1
  funext x
  by_cases hx : x = p
  · subst hx
    simp
  · simp [hx]

theorem recast_setState (p : ProcId) (st : ProcState) :
    recast g (s.setState p st) = (recast g s).setState p st := recast_setProc ..

theorem recast_setAct (c : Fin n) (a : Act) :
    recast g (s.setAct c a) = (recast g s).setAct c a := rfl

end

/-! ## The routines -/

/-- The same test on both sides of a recast. -/
theorem ite_eq_map_ite {α β : Type*} {P Q : Prop} [Decidable P] [Decidable Q] (h : P ↔ Q)
    {f : α → β} {a a' : Option β} {b b' : Option α} (ha : Q → a = b.map f)
    (ha' : ¬Q → a' = b'.map f) : (if P then a else a') = (if Q then b else b').map f := by
  by_cases hq : Q
  · rw [if_pos (h.mpr hq), if_pos hq, ha hq]
  · rw [if_neg (mt h.mp hq), if_neg hq, ha' hq]

section Routines

variable (g : ProcId → Kin) (s : Machine n) (c : Fin n) (p cur next : ProcId) (now : ProcId → ℕ)

/-- The result of a section on the recast machine. -/
def recastResult (r : Machine n × List Event) : Machine n × List Event := (recast g r.1, r.2)

theorem readyDequeue_recast : readyDequeue (recast g s) p = (readyDequeue s p).map (recast g) := by
  simp only [readyDequeue, Option.map_map]
  rfl

theorem readyEnqueue_recast : readyEnqueue (recast g s) p = (readyEnqueue s p).map (recast g) := by
  simp only [readyEnqueue, Option.map_map, recast_links]
  rfl

theorem wakeExpired_recast : wakeExpired now (recast g s) p = recast g (wakeExpired now s p) := by
  unfold wakeExpired
  split
  · rename_i h
    rw [if_pos (by simpa using h), recast_setProc]
    rfl
  · rename_i h
    rw [if_neg (by simpa using h)]

theorem wakeOnChan_recast (chan : ℕ) :
    wakeOnChan chan (recast g s) p = recast g (wakeOnChan chan s p) := by
  unfold wakeOnChan
  split
  · rename_i h
    rw [if_pos (by simpa using h), recast_setProc]
    rfl
  · rename_i h
    rw [if_neg (by simpa using h)]

theorem eachLinked_recast (hbody : ∀ s p, body (recast g s) p = recast g (body s p)) :
    eachLinked (recast g s) body = (eachLinked s body).map (recast g) := by
  have hfold : ∀ (l : List ProcId) (t : Machine n),
      l.foldl body (recast g t) = recast g (l.foldl body t) := by
    intro l
    induction l with
    | nil => intro t; rfl
    | cons x l ih => intro t; rw [List.foldl_cons, hbody, ih, List.foldl_cons]
  have hqueues : ∀ (qs : List Prio) (t : Machine n),
      qs.foldlM (fun s q => (traverse s.links queueFuel (.head q)).map fun l => l.foldl body s)
        (recast g t) =
      (qs.foldlM (fun s q => (traverse s.links queueFuel (.head q)).map fun l => l.foldl body s)
        t).map (recast g) := by
    intro qs
    induction qs with
    | nil => intro t; rfl
    | cons q qs ih =>
      intro t
      rw [List.foldlM_cons, List.foldlM_cons, recast_links]
      cases traverse t.links queueFuel (.head q) with
      | none => rfl
      | some =>
        simp only [Option.map_some, Option.bind_eq_bind, Option.bind_some]
        rw [hfold, ih]
  exact hqueues allQueues s

theorem pickable_recast : pickable (recast g s) = pickable s := rfl

theorem pickQueued_recast : ∀ qs : List Prio, pickQueued (recast g s) qs =
    (pickQueued s qs).map (Option.map fun r => (recast g r.1, r.2)) := by
  intro qs
  induction qs with
  | nil => rfl
  | cons q qs ih =>
    simp only [pickQueued, pickable_recast, recast_links]
    cases scan (pickable s) s.links queueFuel (.head q) with
    | none => rfl
    | some r =>
      cases r with
      | none => exact ih
      | some => rfl

theorem linkedIn_recast (qs : List Prio) : linkedIn (recast g s) p qs = linkedIn s p qs := by
  induction qs with
  | nil => rfl
  | cons q qs ih => simp only [linkedIn, recast_links, ih]

theorem stranded_recast : stranded (recast g s) = stranded s := by
  have hgo : ∀ ps, strandedIn (recast g s) ps = strandedIn s ps := by
    intro ps
    induction ps with
    | nil => rfl
    | cons x ps ih =>
      simp only [strandedIn, pickable_recast, recast_current, linkedIn_recast, ih]
  exact hgo _

theorem pickNextReady_recast : pickNextReady (recast g s) now =
    (pickNextReady s now).map fun r => (recast g r.1, r.2) := by
  simp only [pickNextReady, eachLinked_recast g s (fun s p => wakeExpired_recast g s p now)]
  cases eachLinked s (wakeExpired now) with
  | none => rfl
  | some t =>
    simp only [Option.map_some, Option.bind_eq_bind, Option.bind_some, pickQueued_recast]
    cases pickQueued t allQueues with
    | none => rfl
    | some r =>
      cases r with
      | some => rfl
      | none =>
        simp only [stranded_recast]
        cases stranded t with
        | none => rfl
        | some r => cases r <;> rfl

theorem handOver_recast : handOver (recast g s) c cur next = recast g (handOver s c cur next) := by
  unfold handOver
  rw [recast_setAct, recast_setProc, ← recast_setState]
  rfl

theorem switchFrom_recast :
    switchFrom (recast g s) c cur next = (switchFrom s c cur next).map (recast g) := by
  refine ite_eq_map_ite Iff.rfl (fun _ => ?_) fun _ => ?_
  · rw [readyDequeue_recast]
    simp only [Option.map_map]
    congr 1
    funext t
    simp only [Function.comp_apply]
    rw [recast_setAct, recast_setState]
  refine ite_eq_map_ite Iff.rfl (fun _ => rfl) fun _ => ?_
  refine ite_eq_map_ite Iff.rfl (fun _ => ?_) fun _ => ?_
  · refine ite_eq_map_ite Iff.rfl (fun _ => ?_) fun _ => rfl
    rw [recast_idle]
    cases s.idle c with
    | none => rfl
    | some =>
      refine ite_eq_map_ite Iff.rfl (fun _ => ?_) fun _ => rfl
      rw [handOver_recast]
      rfl
  refine ite_eq_map_ite Iff.rfl (fun _ => ?_) fun _ => ?_
  · rw [← recast_setState, readyEnqueue_recast]
    simp only [Option.map_map]
    congr 1
    funext t
    exact handOver_recast ..
  · rw [handOver_recast]
    rfl

theorem pickAndSwitch_recast : pickAndSwitch (recast g s) c cur now =
    (pickAndSwitch s c cur now).map (recastResult g) := by
  simp only [pickAndSwitch, pickNextReady_recast]
  cases pickNextReady s now with
  | none => rfl
  | some r =>
    obtain ⟨t, pick⟩ := r
    simp only [Option.map_some, Option.bind_eq_bind, Option.bind_some, switchFrom_recast]
    cases switchFrom t c cur (pick.proc cur) with
    | none | some => rfl

theorem schedYieldLocked_recast : schedYieldLocked (recast g s) c now =
    (schedYieldLocked s c now).map (recastResult g) := by
  simp only [schedYieldLocked, recast_current]
  cases s.current c with
  | none => rfl
  | some =>
    exact ite_eq_map_ite Iff.rfl (fun _ => rfl) fun _ => pickAndSwitch_recast ..

/-- The common second half of `proc_sleep` and `sched_block_on`. -/
theorem sleepOn_recast (r : Proc) :
    ((readyEnqueue ((recast g s).setProc cur (r.withKin (g cur))) cur).bind fun t =>
      schedYieldLocked t c now) =
    ((readyEnqueue (s.setProc cur r) cur).bind fun t => schedYieldLocked t c now).map
      (recastResult g) := by
  rw [← recast_setProc, readyEnqueue_recast]
  cases readyEnqueue (s.setProc cur r) cur with
  | none => rfl
  | some => exact schedYieldLocked_recast ..

theorem procSleep_recast (ms hz tick : ℕ) : procSleep (recast g s) c cur ms hz tick now =
    (procSleep s c cur ms hz tick now).map (recastResult g) := by
  exact sleepOn_recast g s c cur now { s.procs cur with
    sleepUntil := (tick + toTicks ms hz) % 2 ^ 64, state := .blocked }

theorem schedBlockOn_recast (chan ms hz tick : ℕ) :
    schedBlockOn (recast g s) c cur chan ms hz tick now =
      (schedBlockOn s c cur chan ms hz tick now).map (recastResult g) := by
  exact sleepOn_recast g s c cur now { s.procs cur with
    waitChan := chan, state := .blocked
    sleepUntil := (tick + toTicks (if ms = 0 then schedWaitBackstopMs else ms) hz) % 2 ^ 64 }

/-- The second half of `proc_set_priority`. -/
theorem storePriority_recast (onQueue : Prop) [Decidable onQueue] (prio : ℕ) : (if onQueue then
      readyEnqueue ((recast g s).setProc p { (recast g s).procs p with priority := prio }) p
    else some ((recast g s).setProc p { (recast g s).procs p with priority := prio })) =
    (if onQueue then readyEnqueue (s.setProc p { s.procs p with priority := prio }) p
      else some (s.setProc p { s.procs p with priority := prio })).map (recast g) := by
  have hset : (recast g s).setProc p { (recast g s).procs p with priority := prio } =
      recast g (s.setProc p { s.procs p with priority := prio }) := by
    rw [recast_setProc]
    rfl
  rw [hset]
  exact ite_eq_map_ite Iff.rfl (fun _ => readyEnqueue_recast ..) fun _ => rfl

theorem procSetPriority_recast (prio : ℕ) :
    procSetPriority (recast g s) p prio = (procSetPriority s p prio).map (recast g) := by
  refine ite_eq_map_ite Iff.rfl (fun _ => rfl) fun _ => ?_
  by_cases hmove : ((s.procs p).state = .ready ∨ (s.procs p).state = .blocked) ∧
      (s.procs p).priority ≠ prio
  · have hmove' : (((recast g s).procs p).state = .ready ∨
        ((recast g s).procs p).state = .blocked) ∧ ((recast g s).procs p).priority ≠ prio := hmove
    rw [if_pos hmove, if_pos hmove', readyDequeue_recast]
    cases readyDequeue s p with
    | none => rfl
    | some => exact storePriority_recast ..
  · have hmove' : ¬((((recast g s).procs p).state = .ready ∨
        ((recast g s).procs p).state = .blocked) ∧ ((recast g s).procs p).priority ≠ prio) := hmove
    rw [if_neg hmove, if_neg hmove']
    exact storePriority_recast ..

end Routines

/-! ## Steps -/

/-- The steps that neither create, collect nor end a process. -/
def Label.Neutral : Label n → Prop
  | .procCreate .. | .initChild .. | .sysExit .. | .procKill .. | .exitClaim .. | .exitStage ..
  | .exitPick .. | .reap .. => False
  | _ => True

theorem Label.Neutral.plain (h : l.Neutral) : l.Plain := by
  cases l with
  | procCreate | initChild | sysExit | procKill | exitClaim | exitStage | exitPick | reap =>
    exact absurd h id
  | _ => trivial

section

variable (g : ProcId → Kin) (s : Machine n)

theorem onCurrent_recast (c : Fin n) (h : ∀ cur, f' cur = (f cur).map (recastResult g)) :
    onCurrent (recast g s) c f' = (onCurrent s c f).map (recastResult g) := by
  unfold onCurrent
  rw [recast_current]
  cases s.current c with
  | none => rfl
  | some cur => exact h cur

theorem userCurrent_recast (c : Fin n) : userCurrent (recast g s) c ↔ userCurrent s c := by
  unfold userCurrent
  rw [recast_current]
  cases s.current c <;> exact Iff.rfl

theorem enabled_recast (hl : l.Neutral) : enabled (recast g s) l ↔ enabled s l := by
  cases l with
  | procSleep c | schedBlockOn c =>
    exact and_congr_right fun _ => userCurrent_recast g s c
  | procCreate | initChild | sysExit | procKill | exitClaim | exitStage | exitPick | reap =>
    exact absurd hl id
  | _ => exact Iff.rfl

/-- **A neutral step does the same on the recast machine.** -/
theorem exec_recast (hl : l.Neutral) : exec (recast g s) l = (exec s l).map (recastResult g) := by
  cases l with
  | schedYield c now => exact schedYieldLocked_recast g s c now
  | procSleep c ms hz tick now =>
    exact onCurrent_recast g s c fun cur => procSleep_recast g s c cur now ms hz tick
  | schedBlockOn c chan ms hz tick now =>
    exact onCurrent_recast g s c fun cur => schedBlockOn_recast g s c cur now chan ms hz tick
  | clearChan c =>
    refine onCurrent_recast g s c fun cur => ?_
    simp only [Option.map_some, recastResult, recast_setProc]
    rfl
  | schedWakeChan c chan =>
    simp only [exec, schedWakeChan, Option.map_map,
      eachLinked_recast g s fun s p => wakeOnChan_recast g s p chan]
    rfl
  | schedWakeSleepers c now =>
    simp only [exec, schedWakeSleepers, Option.map_map,
      eachLinked_recast g s fun s p => wakeExpired_recast g s p now]
    rfl
  | procSetPriority =>
    simp only [exec, procSetPriority_recast, Option.map_map]
    rfl
  | procMakeReady c =>
    simp only [exec, recast_act]
    cases (s.act c).created with
    | none => rfl
    | some =>
      simp only [procMakeReady, ← recast_setState, readyEnqueue_recast, Option.map_map]
      rfl
  | schedAdoptCurrent c =>
    simp only [exec, recast_act]
    cases (s.act c).created with
    | none => rfl
    | some p =>
      simp only [schedAdoptCurrent, ← recast_setState, Option.map_map]
      exact (congrArg (Option.map _) (readyDequeue_recast g { s.setState p .running with
        current := Function.update s.current c (some p) } p)).trans (Option.map_map ..)
  | contextSaved c =>
    simp only [exec, recast_act]
    cases (s.act c).saved with
    | none => rfl
    | some =>
      simp only [Option.map_some, recastResult, recast_setAct, recast_setProc]
      rfl
  | procCreate | initChild | sysExit | procKill | exitClaim | exitStage | exitPick | reap =>
    exact absurd hl id

end

/-- A neutral step leaves those fields alone. -/
theorem Step.kin (h : Step s l t) (hl : l.Neutral) (p : ProcId) :
    (t.procs p).kin = (s.procs p).kin := by
  obtain ⟨-, ev, hex⟩ := h
  -- recast with what it has, the machine is itself, before the step and after
  have hself := exec_recast (fun p => (s.procs p).kin) s hl
  rw [recast_self, hex, Option.map_some, Option.some.injEq, Prod.mk.injEq] at hself
  rw [hself.1]
  rfl

theorem step_recast (hl : l.Neutral) (h : Step (recast g s) l t) :
    ∃ s', Step s l s' ∧ t = recast g s' := by
  obtain ⟨hen, ev, hex⟩ := h
  rw [exec_recast g s hl] at hex
  obtain ⟨⟨s', ev'⟩, hs, hr⟩ := Option.map_eq_some_iff.mp hex
  cases hr
  exact ⟨s', ⟨(enabled_recast g s hl).mp hen, _, hs⟩, rfl⟩

end Xos.Sched
