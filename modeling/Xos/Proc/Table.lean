import Xos.Sched.Steps

/-!
# The process table seen by its users

`fork`, `clone`, exit, kill and `waitpid` as they read and write the slots of `procs[]`
(`kernel/proc/proc.c`, `kernel/sched/sched.c`).  The ready queues and the CPUs' switching
are the business of `Xos.Sched`; here a process is on a CPU or not, and the scheduler moves
it between `READY`, `RUNNING` and `BLOCKED`.

A slot passes through many hands, so the state also keeps a history the kernel does not
have: `task` numbers the processes in order of creation, `forkedBy` says whose `fork` (or
`clone` without `CLONE_THREAD`) made one, `reported` counts how often a `waitpid` returned
it, and `code` is the argument of its own exit call.

The stores of `proc_fork` and `proc_clone` into a slot they were given are not protected by
a lock.  Each one that another CPU can tell apart is a step of its own.
-/

namespace Xos.Proc

open Function

open Xos.Sched (Proc ProcId ProcState schedMaxProcs freshProc)

/-- Who is creating the process. -/
inductive Kind where
  | fork
  /-- `proc_clone`; `thread` is `CLONE_THREAD`. -/
  | clone (thread : Bool)
  deriving DecidableEq

/-- How far the stores into the new slot have come. -/
inductive Stage where
  | created
  /-- `child->parent_pid = parent->parent_pid` is done. -/
  | parentStored
  /-- `child->reaped = true` is done. -/
  | reapedStored
  | done
  deriving DecidableEq

/-- The table and its history. -/
structure Table where
  procs : ProcId → Proc
  /-- The process is executing on some CPU. -/
  onCpu : ProcId → Bool
  /-- CPUs that are about to call `proc_exit` on the process from `proc_kill`. -/
  killers : ProcId → ℕ
  /-- The slot that the process is filling in `proc_fork` or `proc_clone`. -/
  creating : ProcId → Option (ProcId × Kind × Stage)
  task : ProcId → ℕ
  next : ℕ
  forkedBy : ℕ → Option ℕ
  reported : ℕ → ℕ
  code : ℕ → ℤ

/-- Store back one process. -/
def Table.setProc (t : Table) (j : ProcId) (v : Proc) : Table :=
  { t with procs := update t.procs j v }

/-! ## Lookup and creation -/

/-- `procs[i].state != PROC_DEAD || !procs[i].reaped`: the slot is not free. -/
def inUse (v : Proc) : Bool := v.state != .dead || !v.reaped

/-- `proc_by_pid(pid)`. -/
def procByPid (procs : ProcId → Proc) (pid : ℕ) : Option ProcId :=
  (List.finRange schedMaxProcs).find? fun i => (procs i).tgid == pid && inUse (procs i)

/-- The slot `proc_create` hands out. -/
def freeSlot (procs : ProcId → Proc) : Option ProcId :=
  (List.finRange schedMaxProcs).tail.find? fun i => !inUse (procs i)

/-- `proc_create` for the process `p`, which goes on to fill the slot. -/
def create (t : Table) (p : ProcId) (kind : Kind) : Table :=
  match freeSlot t.procs with
  | none => t
  | some j =>
    { t with
      procs := update t.procs j (freshProc (t.procs j) j 0 0)
      creating := update t.creating p (some (j, kind, .created))
      task := update t.task j t.next
      next := t.next + 1
      forkedBy := update t.forkedBy t.next
        (if kind = .clone true then none else some (t.task p))
      reported := update t.reported t.next 0
      code := update t.code t.next 0 }

/-- The next store of `parent` into the slot `child` it is filling. -/
def fill (parent child : Proc) : Kind → Stage → Proc × Stage
  | .fork, .created => ({ child with parentPid := parent.pid, reaped := false }, .done)
  | .clone _, .created => ({ child with parentPid := parent.parentPid }, .parentStored)
  | _, .parentStored => ({ child with reaped := true }, .reapedStored)
  | .clone true, .reapedStored => ({ child with tgid := parent.tgid }, .done)
  | _, .reapedStored =>
    ({ child with tgid := child.pid, parentPid := parent.pid, reaped := false }, .done)
  | _, .done => (child, .done)

/-! ## Exit, kill and wait -/

/-- The claim at the head of `proc_exit(p)`. -/
def exitClaim (t : Table) (p : ProcId) : Table :=
  if (t.procs p).exiting then t
  else t.setProc p { t.procs p with exiting := true, state := .dead, reaped := false }

/-- `p` leaves its CPU. -/
def Table.leave (t : Table) (p : ProcId) : Table :=
  { t with onCpu := update t.onCpu p false }

/-- `proc_kill(pid)` by `q`, up to its call of `proc_exit` on another process. -/
def procKill (t : Table) (q : ProcId) (pid : ℕ) : Table :=
  match procByPid t.procs pid with
  | none => t
  | some p =>
    if (t.procs p).pid = 0 ∨ (t.procs p).exiting then t
    else if p = q then (exitClaim t p).leave p
    else if (t.procs p).state = .running then
      t.setProc p { t.procs p with state := .dead, exiting := false, reaped := false }
    else { t with killers := update t.killers p (t.killers p + 1) }

/-- `wait_status_encode`. -/
def waitStatusEncode (exitCode : ℤ) : ℤ := exitCode % 256 * 256

/-- What a pass of the loop of `proc_waitpid` comes to. -/
inductive WaitPass where
  /-- It returns `pid` with `status`, and marks the slot `child` as collected. -/
  | report (child : ProcId) (pid : ℕ) (status : ℤ)
  /-- It returns `-XOS_ECHILD`. -/
  | echild
  /-- There is a child, but none to report: `0` with `WNOHANG`, else another pass. -/
  | wait
  deriving DecidableEq

/-- The report of a dead child. -/
def reportOf (procs : ProcId → Proc) (c : ProcId) : WaitPass :=
  .report c (procs c).pid (waitStatusEncode (procs c).exitCode)

/-- The loop over all pids of `proc_waitpid(-1, …)`. -/
def scanChildren (procs : ProcId → Proc) (ppid : ℕ) : List ℕ → Bool → WaitPass
  | [], hasLive => if hasLive then .wait else .echild
  | i :: is, hasLive =>
    match procByPid procs i with
    | none => scanChildren procs ppid is hasLive
    | some c =>
      if (procs c).parentPid ≠ ppid then scanChildren procs ppid is hasLive
      else if (procs c).state = .dead ∧ (procs c).reaped = false then reportOf procs c
      else scanChildren procs ppid is (hasLive || (procs c).state != .dead)

/-- One pass of `proc_waitpid(pid, …)` by the process with pid `ppid`. -/
def waitPass (procs : ProcId → Proc) (ppid : ℕ) (pid : ℤ) : WaitPass :=
  if 0 < pid then
    match procByPid procs pid.toNat with
    | none => .echild
    | some c =>
      if (procs c).parentPid ≠ ppid then .echild
      else if (procs c).state = .dead ∧ (procs c).reaped = false then reportOf procs c
      else .wait
  else scanChildren procs ppid (List.range' 1 (schedMaxProcs - 1)) false

/-! ## The transition system -/

/-- What processes and the scheduler do. -/
inductive Op where
  /-- `p` calls `proc_create` in `fork` or `clone`. -/
  | create (p : ProcId) (kind : Kind)
  /-- The next store of `p` into the slot it fills. -/
  | store (p : ProcId)
  /-- `proc_make_ready` of the slot `p` filled. -/
  | makeReady (p : ProcId)
  /-- A CPU picks the ready process `p`. -/
  | dispatch (p : ProcId)
  /-- `p` gives up its CPU, ready or blocked.  Only a running process does: the `BLOCKED` that
  `sched_block_on` and `proc_sleep` store over the `DEAD` of a kill is not a step of this system. -/
  | yield (p : ProcId) (blocked : Bool)
  /-- The blocked process `p` is woken. -/
  | wake (p : ProcId)
  /-- `__sched_yield_locked` finds `p`, which it is running, dead, and calls `proc_exit`. -/
  | yieldDead (p : ProcId)
  /-- `sys_exit` of `p`: the store of the code, and `proc_exit`. -/
  | sysExit (p : ProcId) (code : ℤ)
  | procKill (q : ProcId) (pid : ℕ)
  /-- A CPU in `proc_kill` calls `proc_exit(p)`. -/
  | killExit (p : ProcId)
  /-- A pass of `proc_waitpid(pid, …)` by `p`. -/
  | waitpid (p : ProcId) (pid : ℤ)

/-- When an operation can be taken. -/
def Enabled (t : Table) : Op → Prop
  | .create p _ | .sysExit p _ | .waitpid p _ => t.onCpu p = true ∧ t.creating p = none
  | .store p => ∃ j k st, t.creating p = some (j, k, st) ∧ st ≠ .done
  | .makeReady p => ∃ j k, t.creating p = some (j, k, .done)
  | .dispatch p => (t.procs p).state = .ready ∧ (t.procs p).pid ≠ 0
  | .yield p _ => t.onCpu p = true ∧ t.creating p = none ∧ (t.procs p).state = .running
  | .wake p => (t.procs p).state = .blocked
  | .yieldDead p => t.onCpu p = true ∧ t.creating p = none ∧ (t.procs p).state = .dead
  | .procKill q _ => t.onCpu q = true ∧ t.creating q = none
  | .killExit p => 0 < t.killers p

instance (t : Table) : DecidablePred (Enabled t)
  | .create .. | .sysExit .. | .waitpid .. | .dispatch .. | .yield .. | .wake .. | .yieldDead ..
  | .procKill .. | .killExit .. => by
      unfold Enabled
      infer_instance
  | .store p =>
    match h : t.creating p with
    | none => isFalse (by simp [Enabled, h])
    | some (_, _, st) => decidable_of_iff (st ≠ .done) (by simp [Enabled, h])
  | .makeReady p =>
    match h : t.creating p with
    | none => isFalse (by simp [Enabled, h])
    | some (_, _, st) => decidable_of_iff (st = .done) (by simp [Enabled, h])

/-- The effect of an operation. -/
def exec (t : Table) : Op → Table
  | .create p kind => create t p kind
  | .store p =>
    match t.creating p with
    | none => t
    | some (j, kind, stage) =>
      let r := fill (t.procs p) (t.procs j) kind stage
      { t.setProc j r.1 with creating := update t.creating p (some (j, kind, r.2)) }
  | .makeReady p =>
    match t.creating p with
    | none => t
    | some (j, _, _) =>
      { t.setProc j { t.procs j with state := .ready } with
        creating := update t.creating p none }
  | .dispatch p =>
    { t.setProc p { t.procs p with state := .running } with
      onCpu := update t.onCpu p true }
  | .yield p blocked =>
    (t.setProc p { t.procs p with state := if blocked then .blocked else .ready }).leave p
  | .wake p => t.setProc p { t.procs p with state := .ready }
  | .yieldDead p => (exitClaim t p).leave p
  | .sysExit p code =>
    let t := t.setProc p { t.procs p with exitCode := code }
    (exitClaim { t with code := update t.code (t.task p) code } p).leave p
  | .procKill q pid => procKill t q pid
  | .killExit p =>
    { exitClaim t p with killers := update t.killers p (t.killers p - 1) }
  | .waitpid p pid =>
    match waitPass t.procs (t.procs p).pid pid with
    | .report c _ _ =>
      { t.setProc c { t.procs c with reaped := true } with
        reported := update t.reported (t.task c) (t.reported (t.task c) + 1) }
    | _ => t

/-- One step of the system. -/
def Step (t : Table) (o : Op) (t' : Table) : Prop := Enabled t o ∧ t' = exec t o

/-- A start: every slot is an idle process, a process of its own that no `fork` made, or
free, and nothing is under way. -/
structure Start (t : Table) : Prop where
  slot : ∀ j, ((t.procs j).pid = 0 ∧ (t.procs j).tgid = 0 ∧ (t.procs j).state = .running) ∨
    ((t.procs j).pid = j.val ∧ j.val ≠ 0 ∧ (t.procs j).tgid = j.val ∧
      (t.procs j).state = .ready ∧ (t.procs j).parentPid = 0 ∧ (t.procs j).exiting = false ∧
      (t.procs j).exitCode = 0) ∨
    ((t.procs j).state = .dead ∧ (t.procs j).reaped = true)
  onCpu : ∀ j, t.onCpu j = false
  killers : ∀ j, t.killers j = 0
  creating : ∀ p, t.creating p = none
  task : ∀ i j, t.task i = t.task j → i = j
  next : ∀ j, t.task j < t.next
  forkedBy : ∀ k, t.forkedBy k = none
  reported : ∀ k, t.reported k = 0
  code : ∀ k, t.code k = 0

end Xos.Proc
