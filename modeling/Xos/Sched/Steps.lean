import Xos.Sched.Basic

/-!
# The scheduler's steps

`kernel/sched/sched.c` as a labelled transition system.  One label is one
lock-protected section (or one unlocked store that other CPUs can see), so a run
of the system is an interleaving of such sections over the CPUs, in the order in
which they take `sched_lock`.

* `pickNextReady`, `switchFrom` — the pick and the rest of
  `__sched_yield_locked`, with the recovery scan kept apart as `stranded`;
* `procSleep`, `schedBlockOn`, `schedWakeChan`, `schedWakeSleepers`,
  `procSetPriority`, `procCreate`, `procMakeReady` — one definition per C
  function;
* `exitClaim`, `exitStage`, `procKill`, `reap` — `proc_exit` cut at its unlock
  points, `proc_kill` and the collecting branch of `proc_waitpid`;
* `exec` — the label's effect, and `enabled` — when a CPU can take it.

Clocks are arguments: `now p` is what `timer_ticks()` returns while the loop
looks at `p`.
-/

namespace Xos.Sched

open Xos.Lib Function

variable {n : ℕ}

/-- What a step does that other parts of the kernel can tell. -/
inductive Event where
  /-- `vmm_destroy_user` and `pmm_free_frame` on the page tables `pml4`, in the
  `proc_exit` of `p`. -/
  | freeTables (p : ProcId) (pml4 : ℕ)
  /-- `kfree` of the kernel stack of `p`. -/
  | freeKstack (p : ProcId)
  /-- `proc_create` returned this slot. -/
  | reuse (p : ProcId)
  /-- `pick_next_ready` returned `p` from its recovery scan. -/
  | rescued (p : ProcId)
  deriving DecidableEq, Repr

/-! ## Waking -/

/-- The body of the expiry loops in `sched_wake_sleepers` and `pick_next_ready`. -/
def wakeExpired (now : ProcId → ℕ) (s : Machine n) (p : ProcId) : Machine n :=
  if (s.procs p).state = .blocked ∧ (s.procs p).sleepUntil ≠ 0 ∧
      (s.procs p).sleepUntil ≤ now p then
    s.setProc p { s.procs p with state := .ready, sleepUntil := 0 }
  else s

/-- The body of the loop in `sched_wake_chan`. -/
def wakeOnChan (chan : ℕ) (s : Machine n) (p : ProcId) : Machine n :=
  if (s.procs p).state = .blocked ∧ (s.procs p).waitChan = chan then
    s.setProc p { s.procs p with waitChan := 0, sleepUntil := 0, state := .ready }
  else s

/-- `sched_wake_sleepers()`, once it got the lock. -/
def schedWakeSleepers (s : Machine n) (now : ProcId → ℕ) : Option (Machine n) :=
  eachLinked s (wakeExpired now)

/-- `sched_wake_chan(chan)`. -/
def schedWakeChan (s : Machine n) (chan : ℕ) : Option (Machine n) :=
  eachLinked s (wakeOnChan chan)

/-! ## Picking -/

/-- The test of the queue scan: `READY`, and its context is saved. -/
def pickable (s : Machine n) (p : ProcId) : Bool :=
  (s.procs p).state == .ready && !(s.procs p).switching

/-- The queue scan of `pick_next_ready` over the queues `qs`: the process it
unlinks and returns, if any. -/
def pickQueued (s : Machine n) : List Prio → Option (Option (Machine n × ProcId))
  | [] => some none
  | q :: qs =>
    match scan (pickable s) s.links queueFuel (.head q) with
    | none => none
    | some (some (npp, p)) => some (some ({ s with links := unlinkAt s.links npp p }, p))
    | some none => pickQueued s qs

/-- Is `p` linked in one of the queues `qs`? -/
def linkedIn (s : Machine n) (p : ProcId) : List Prio → Option Bool
  | [] => some false
  | q :: qs =>
    match scan (fun x => x == p) s.links queueFuel (.head q) with
    | none => none
    | some (some _) => some true
    | some none => linkedIn s p qs

/-- The recovery scan of `pick_next_ready` over the slots `ps`: the first process
that is `READY`, saved, current on no CPU and in no queue — the C comment's
"genuinely stranded" process. -/
def strandedIn (s : Machine n) : List ProcId → Option (Option ProcId)
  | [] => some none
  | p :: ps =>
    if pickable s p = true ∧ ∀ c, s.current c ≠ some p then
      match linkedIn s p allQueues with
      | none => none
      | some true => strandedIn s ps
      | some false => some (some p)
    else strandedIn s ps

/-- The recovery scan: slots `1 … SCHED_MAX_PROCS - 1`. -/
def stranded (s : Machine n) : Option (Option ProcId) :=
  strandedIn s (List.finRange schedMaxProcs).tail

/-- Where `pick_next_ready` found the process it returns. -/
inductive Pick where
  /-- The queue scan found it. -/
  | queued (p : ProcId)
  /-- The recovery scan found it. -/
  | rescued (p : ProcId)
  /-- Nothing is ready: `this_cpu()->current_proc`. -/
  | stay
  deriving DecidableEq, Repr

/-- The process returned, on a CPU whose current process is `cur`. -/
def Pick.proc (cur : ProcId) : Pick → ProcId
  | .queued p | .rescued p => p
  | .stay => cur

/-- Only a rescue is worth telling. -/
def Pick.events : Pick → List Event
  | .rescued p => [.rescued p]
  | .queued _ | .stay => []

/-- `pick_next_ready()`. -/
def pickNextReady (s : Machine n) (now : ProcId → ℕ) : Option (Machine n × Pick) := do
  let s ← eachLinked s (wakeExpired now)
  match ← pickQueued s allQueues with
  | some (s, p) => pure (s, .queued p)
  | none =>
    match ← stranded s with
    | some p => pure (s, .rescued p)
    | none => pure (s, .stay)

/-! ## Yielding -/

/-- Hand CPU `c` from `cur` to `next`: the stores of `__sched_yield_locked` up to
the release of the lock.  `context_switch` is still to come. -/
def handOver (s : Machine n) (c : Fin n) (cur next : ProcId) : Machine n :=
  let s := s.setState next .running
  let s := { s with
    links := update s.links (.next next) none
    current := update s.current c (some next) }
  let s := s.setProc cur { s.procs cur with switching := true }
  s.setAct c (.saving cur)

/-- What `__sched_yield_locked` does with the picked process. -/
def switchFrom (s : Machine n) (c : Fin n) (cur next : ProcId) : Option (Machine n) :=
  if next = cur ∧ (s.procs cur).state = .ready ∧ (s.procs cur).pid ≠ 0 then
    (readyDequeue s cur).map fun s => (s.setState cur .running).setAct c .run
  else if next = cur ∧ (s.procs cur).state = .running then
    some (s.setAct c .run)
  else if (s.procs next).pid = 0 ∨ next = cur then
    if (s.procs cur).pid ≠ 0 ∧ (s.procs cur).state ≠ .running ∧
        (s.procs cur).state ≠ .ready then
      match s.idle c with
      | some idle => if idle ≠ cur then some (handOver s c cur idle) else some (s.setAct c .run)
      | none => some (s.setAct c .run)
    else some (s.setAct c .run)
  else if (s.procs cur).state = .running ∧ (s.procs cur).pid ≠ 0 then
    (readyEnqueue (s.setState cur .ready) cur).map fun s => handOver s c cur next
  else some (handOver s c cur next)

/-- `__sched_yield_locked` from its pick on. -/
def pickAndSwitch (s : Machine n) (c : Fin n) (cur : ProcId) (now : ProcId → ℕ) :
    Option (Machine n × List Event) := do
  let (s, pick) ← pickNextReady s now
  let s ← switchFrom s c cur (pick.proc cur)
  pure (s, pick.events)

/-- `__sched_yield_locked` up to its first unlock: a process that another CPU has
marked `DEAD` goes through `proc_exit` first. -/
def schedYieldLocked (s : Machine n) (c : Fin n) (now : ProcId → ℕ) :
    Option (Machine n × List Event) :=
  match s.current c with
  | none => some (s, [])
  | some cur =>
    if (s.procs cur).state = .dead ∧ (s.procs cur).pid ≠ 0 then
      some (s.setAct c (.enterExit cur .pick), [])
    else pickAndSwitch s c cur now

/-- Milliseconds to ticks as in `proc_sleep` and `sched_block_on`, in 64 bits. -/
def toTicks (ms hz : ℕ) : ℕ :=
  let ticks := (ms * hz + 999) % 2 ^ 64 / 1000
  if ticks = 0 then 1 else ticks

/-- `proc_sleep(ms)` of the process `cur`, whose pid is not `0`. -/
def procSleep (s : Machine n) (c : Fin n) (cur : ProcId) (ms hz tick : ℕ)
    (now : ProcId → ℕ) : Option (Machine n × List Event) := do
  let s := s.setProc cur { s.procs cur with
    sleepUntil := (tick + toTicks ms hz) % 2 ^ 64, state := .blocked }
  let s ← readyEnqueue s cur
  schedYieldLocked s c now

/-- `SCHED_WAIT_BACKSTOP_MS`. -/
def schedWaitBackstopMs : ℕ := 100

/-- `sched_block_on(chan, unlock, timeout_ms)` of the process `cur`, up to its
`__sched_yield_locked`. -/
def schedBlockOn (s : Machine n) (c : Fin n) (cur : ProcId) (chan timeoutMs hz tick : ℕ)
    (now : ProcId → ℕ) : Option (Machine n × List Event) := do
  let timeoutMs := if timeoutMs = 0 then schedWaitBackstopMs else timeoutMs
  let s := s.setProc cur { s.procs cur with
    waitChan := chan, sleepUntil := (tick + toTicks timeoutMs hz) % 2 ^ 64, state := .blocked }
  let s ← readyEnqueue s cur
  schedYieldLocked s c now

/-! ## Priorities and creation -/

/-- `proc_set_priority(p, prio)`. -/
def procSetPriority (s : Machine n) (p : ProcId) (prio : ℕ) : Option (Machine n) :=
  if 3 ≤ prio then some s
  else
    let onQueue := (s.procs p).state = .ready ∨ (s.procs p).state = .blocked
    do
      let s ← if onQueue ∧ (s.procs p).priority ≠ prio then readyDequeue s p else some s
      let s := s.setProc p { s.procs p with priority := prio }
      if onQueue then readyEnqueue s p else some s

/-- The slot `proc_create` hands out. -/
def freeSlot (s : Machine n) : Option ProcId :=
  (List.finRange schedMaxProcs).tail.find? fun i =>
    (s.procs i).state == .dead && (s.procs i).reaped

/-- The process-table entry as `proc_create(…, pml4, kstack)` leaves it.  The state
stays `DEAD`: the slot is reserved but not visible to the scheduler. -/
def freshProc (old : Proc) (i : ProcId) (pml4 kstack : ℕ) : Proc :=
  { old with
    pid := i, pml4 := pml4, kstack := kstack, sleepUntil := 0, parentPid := 0, exitCode := 0,
    reaped := false, exiting := false, switching := false, priority := prioNormal,
    tgid := i, pml4Refcount := 1 }

/-- `proc_create(…)`: the new slot, or `none` when the table is full. -/
def procCreate (s : Machine n) (pml4 kstack : ℕ) : Option (Machine n × ProcId) :=
  (freeSlot s).map fun i => (s.setProc i (freshProc (s.procs i) i pml4 kstack), i)

/-- What `proc_fork` stores in the new slot: the parent's pid and priority, and the
user stack pointer, which travels in `sleep_until`. -/
def initChild (s : Machine n) (p parent : ProcId) (userRsp : ℕ) : Machine n :=
  s.setProc p { s.procs p with
    parentPid := (s.procs parent).pid, reaped := false,
    priority := (s.procs parent).priority, sleepUntil := userRsp }

/-- `proc_make_ready(p)`. -/
def procMakeReady (s : Machine n) (p : ProcId) : Option (Machine n) :=
  readyEnqueue (s.setState p .ready) p

/-- `sched_adopt_current(p)`, how the boot CPU starts the first process. -/
def schedAdoptCurrent (s : Machine n) (c : Fin n) (p : ProcId) : Option (Machine n) :=
  let s := s.setState p .running
  readyDequeue { s with current := update s.current c (some p) } p

/-! ## Exit, kill and wait -/

/-- CPU `c` is back from `proc_exit`. -/
def afterExit (s : Machine n) (c : Fin n) : After → Machine n
  | .yield => s.setAct c .mustYield
  | .pick => s.setAct c .mustPick
  | .ret => s.setAct c .run

/-- The locked prologue of `proc_exit(p)`: claim the exit, or return at once. -/
def exitClaim (s : Machine n) (c : Fin n) (p : ProcId) (k : After) : Machine n :=
  if (s.procs p).exiting then afterExit s c k
  else
    (s.setProc p { s.procs p with exiting := true, state := .dead, reaped := false }).setAct c
      (.inExit p .wake k)

/-- The release of the address space in `proc_exit`, on the process's own CPU or
on another one: drop one reference, destroy at zero. -/
def exitTables (s : Machine n) (p : ProcId) : Machine n × List Event :=
  if (s.procs p).pml4 = 0 then (s, [])
  else
    let remaining := (s.procs p).pml4Refcount - 1
    (s.setProc p { s.procs p with pml4Refcount := remaining, pml4 := 0 },
      if remaining ≤ 0 then [.freeTables p (s.procs p).pml4] else [])

/-- The release of the kernel stack in `proc_exit`, skipped on the process's own
CPU. -/
def exitKstack (s : Machine n) (c : Fin n) (p : ProcId) : Machine n × List Event :=
  if (s.procs p).kstack ≠ 0 ∧ s.current c ≠ some p then
    (s.setProc p { s.procs p with kstack := 0 }, [.freeKstack p])
  else (s, [])

/-- The wake of a joiner in `proc_exit`: `chan` is the futex address, if the thread has
one and it is mapped. -/
def wakeJoiner (s : Machine n) : Option ℕ → Option (Machine n)
  | none => some s
  | some chan => schedWakeChan s chan

/-- The part of `proc_exit(p)` that starts at `stage`.  At the first stage `chan` is
the futex address to wake, if the process has one and it is mapped. -/
def exitStage (s : Machine n) (c : Fin n) (p : ProcId) (k : After) (chan : Option ℕ) :
    ExitStage → Option (Machine n × List Event)
  | .wake => (wakeJoiner s chan).map fun s => (s.setAct c (.inExit p .tables k), [])
  | .tables =>
    let r := exitTables s p
    some (r.1.setAct c (.inExit p .kstack k), r.2)
  | .kstack =>
    let r := exitKstack s c p
    some (r.1.setAct c (.inExit p .dequeue k), r.2)
  | .dequeue =>
    (readyDequeue s p).map fun s =>
      (afterExit { s with links := update s.links (.next p) none } c k, [])

/-- The locked part of `proc_kill` on the process `p`, whose pid is not `0`. -/
def procKill (s : Machine n) (c : Fin n) (p : ProcId) : Option (Machine n) :=
  if (s.procs p).exiting then some s
  else if s.current c = some p then some (s.setAct c (.enterExit p .yield))
  else if (s.procs p).state = .running then
    some (s.setProc p { s.procs p with state := .dead, exiting := false, reaped := false })
  else (readyDequeue s p).map fun s => s.setAct c (.enterExit p .ret)

/-- `proc_waitpid` collects the child `p`. -/
def reap (s : Machine n) (p : ProcId) : Machine n :=
  s.setProc p { s.procs p with reaped := true }

/-! ## The transition system -/

/-- One lock-protected section, or one unlocked store, of CPU `c`. -/
inductive Label (n : ℕ) where
  | schedYield (c : Fin n) (now : ProcId → ℕ)
  | procSleep (c : Fin n) (ms hz tick : ℕ) (now : ProcId → ℕ)
  | schedBlockOn (c : Fin n) (chan timeoutMs hz tick : ℕ) (now : ProcId → ℕ)
  /-- The store `cur->wait_chan = NULL` after `sched_block_on` came back. -/
  | clearChan (c : Fin n)
  | schedWakeChan (c : Fin n) (chan : ℕ)
  | schedWakeSleepers (c : Fin n) (now : ProcId → ℕ)
  | procSetPriority (c : Fin n) (p : ProcId) (prio : ℕ)
  | procCreate (c : Fin n) (pml4 kstack : ℕ)
  /-- The stores of `proc_fork` into the slot it was given. -/
  | initChild (c : Fin n) (userRsp : ℕ)
  | procMakeReady (c : Fin n)
  | schedAdoptCurrent (c : Fin n)
  /-- `context_switch` clears `from->switching`. -/
  | contextSaved (c : Fin n)
  /-- The current process starts `proc_exit` on itself. -/
  | sysExit (c : Fin n) (code : ℤ)
  | procKill (c : Fin n) (p : ProcId)
  /-- The claim at the head of `proc_exit`. -/
  | exitClaim (c : Fin n)
  /-- The next part of `proc_exit`. -/
  | exitStage (c : Fin n) (chan : Option ℕ)
  /-- `__sched_yield_locked` picks after its `proc_exit(cur)`. -/
  | exitPick (c : Fin n) (now : ProcId → ℕ)
  /-- `proc_waitpid` finds the child `p` dead and collects it. -/
  | reap (c : Fin n) (p : ProcId)

/-- The CPU that takes a step. -/
def Label.cpu : Label n → Fin n
  | .schedYield c _ | .procSleep c _ _ _ _ | .schedBlockOn c _ _ _ _ _ | .clearChan c
  | .schedWakeChan c _ | .schedWakeSleepers c _ | .procSetPriority c _ _ | .procCreate c _ _
  | .initChild c _ | .procMakeReady c | .schedAdoptCurrent c | .contextSaved c | .sysExit c _
  | .procKill c _ | .exitClaim c | .exitStage c _ | .exitPick c _ | .reap c _ => c

/-- The process in the hands of a CPU that is creating one. -/
def Act.created : Act → Option ProcId
  | .creating p => some p
  | _ => none

/-- The process a CPU is switching away from. -/
def Act.saved : Act → Option ProcId
  | .saving p => some p
  | _ => none

/-- Is a user process current on `c`?  System calls come from nowhere else. -/
def userCurrent (s : Machine n) (c : Fin n) : Prop :=
  match s.current c with
  | some cur => (s.procs cur).pid ≠ 0
  | none => False

/-- When a CPU can take a step: what it must be doing, and what the caller has
checked before the section begins. -/
def enabled (s : Machine n) : Label n → Prop
  | .schedYield c _ => s.act c = .run ∨ s.act c = .mustYield
  | .procSleep c _ _ _ _ | .schedBlockOn c _ _ _ _ _ | .sysExit c _ =>
    s.act c = .run ∧ userCurrent s c
  | .clearChan c | .schedWakeChan c _ | .schedWakeSleepers c _ | .procSetPriority c _ _
  | .procCreate c _ _ => s.act c = .run
  | .initChild c _ => (s.act c).created.isSome ∧ userCurrent s c
  | .procMakeReady c => (s.act c).created.isSome
  | .schedAdoptCurrent c => (s.act c).created.isSome ∧ s.current c = s.idle c
  | .contextSaved c => (s.act c).saved.isSome
  | .procKill c p => s.act c = .run ∧ (s.procs p).pid ≠ 0
  | .exitClaim c => match s.act c with
      | .enterExit _ _ => True
      | _ => False
  | .exitStage c _ => match s.act c with
      | .inExit _ _ _ => True
      | _ => False
  | .exitPick c _ => s.act c = .mustPick
  | .reap c p => s.act c = .run ∧ (s.procs p).state = .dead ∧ (s.procs p).reaped = false ∧
      match s.current c with
      | some cur => (s.procs cur).pid ≠ 0 ∧ (s.procs p).parentPid = (s.procs cur).pid
      | none => False

/-- Run `f` on the current process of `c`. -/
def onCurrent (s : Machine n) (c : Fin n) (f : ProcId → Option (Machine n × List Event)) :
    Option (Machine n × List Event) :=
  match s.current c with
  | some cur => f cur
  | none => some (s, [])

/-- The effect of a step; `none` when one of its loops over a queue would not
terminate. -/
def exec (s : Machine n) : Label n → Option (Machine n × List Event)
  | .schedYield c now => schedYieldLocked s c now
  | .procSleep c ms hz tick now => onCurrent s c fun cur => procSleep s c cur ms hz tick now
  | .schedBlockOn c chan ms hz tick now =>
    onCurrent s c fun cur => schedBlockOn s c cur chan ms hz tick now
  | .clearChan c =>
    onCurrent s c fun cur => some (s.setProc cur { s.procs cur with waitChan := 0 }, [])
  | .schedWakeChan _ chan => (schedWakeChan s chan).map (·, [])
  | .schedWakeSleepers _ now => (schedWakeSleepers s now).map (·, [])
  | .procSetPriority _ p prio => (procSetPriority s p prio).map (·, [])
  | .procCreate c pml4 kstack =>
    match procCreate s pml4 kstack with
    | some (s, i) => some (s.setAct c (.creating i), [.reuse i])
    | none => some (s, [])
  | .initChild c userRsp =>
    match (s.act c).created with
    | some p => onCurrent s c fun cur => some (initChild s p cur userRsp, [])
    | none => some (s, [])
  | .procMakeReady c =>
    match (s.act c).created with
    | some p => (procMakeReady s p).map fun s => (s.setAct c .run, [])
    | none => some (s, [])
  | .schedAdoptCurrent c =>
    match (s.act c).created with
    | some p => (schedAdoptCurrent s c p).map fun s => (s.setAct c .run, [])
    | none => some (s, [])
  | .contextSaved c =>
    match (s.act c).saved with
    | some p => some ((s.setProc p { s.procs p with switching := false }).setAct c .run, [])
    | none => some (s, [])
  | .sysExit c code =>
    onCurrent s c fun cur =>
      some ((s.setProc cur { s.procs cur with exitCode := code }).setAct c
        (.enterExit cur .yield), [])
  | .procKill c p => (procKill s c p).map (·, [])
  | .exitClaim c =>
    match s.act c with
    | .enterExit p k => some (exitClaim s c p k, [])
    | _ => some (s, [])
  | .exitStage c chan =>
    match s.act c with
    | .inExit p st k => exitStage s c p k chan st
    | _ => some (s, [])
  | .exitPick c now => onCurrent s c fun cur => pickAndSwitch s c cur now
  | .reap _ p => some (reap s p, [])

/-- One step of the system. -/
def Step (s : Machine n) (l : Label n) (s' : Machine n) : Prop :=
  enabled s l ∧ ∃ ev, exec s l = some (s', ev)

/-- The state after `sched_init` and one `sched_init_ap` per further CPU: every CPU
runs its own idle process, every other slot is free and the queues are empty. -/
structure Booted (s : Machine n) : Prop where
  idle : ∀ c, ∃ i, s.idle c = some i ∧ s.current c = some i ∧
    (s.procs i).pid = 0 ∧ (s.procs i).state = .running
  distinct : ∀ c c' i, s.idle c = some i → s.idle c' = some i → c = c'
  free : ∀ p, (∀ c, s.idle c ≠ some p) → (s.procs p).state = .dead ∧ (s.procs p).reaped = true
  zeroed : ∀ p, (s.procs p).pid = 0 ∧ (s.procs p).exiting = false ∧
    (s.procs p).switching = false ∧ (s.procs p).priority = 0
  act : ∀ c, s.act c = .run
  empty : ∀ x, s.links x = none

end Xos.Sched
