import Xos.Lib.Chain

/-!
# The process table and the ready queues

The data of `kernel/sched/sched.h` and the two list routines of
`kernel/sched/sched.c` that every scheduler path goes through,
`ready_enqueue` and `ready_dequeue`.

The three queues are the C ones: an intrusive list through `proc_t.next` with
one head word per priority (`Xos.Lib.Links`).  The loops over them carry a bound
on their number of turns, so that a corrupted list shows up as a routine that
returns `none` — the C loop would not come back — and `Xos.Lib.Queues` is the
statement that the words hold three proper lists.
-/

namespace Xos.Sched

open Xos.Lib Function

/-- `SCHED_MAX_PROCS`. -/
def schedMaxProcs : ℕ := 256

instance : NeZero schedMaxProcs := ⟨by decide⟩

theorem two_le_procs : 2 ≤ schedMaxProcs := by decide

/-- A process-table slot, the C pointer `&procs[i]`. -/
abbrev ProcId := Fin schedMaxProcs

/-- A ready queue, `ready_head[q]` with `q < SCHED_NPRIO`. -/
abbrev Prio := Fin 3

/-- `PRIO_NORMAL`. -/
def prioNormal : ℕ := 1

/-- `proc_state_t`. -/
inductive ProcState where
  | dead
  | ready
  | running
  | blocked
  deriving DecidableEq, Repr

/-- The fields of `proc_t` the scheduler and the teardown code work on.  Addresses
are numbers with `0` for `NULL`; `pml4` stands for the pair
`pml4_phys`/`pml4_virt`, which are set and cleared together. -/
structure Proc where
  pid : ℕ
  state : ProcState
  sleepUntil : ℕ
  parentPid : ℕ
  exitCode : ℤ
  reaped : Bool
  exiting : Bool
  switching : Bool
  waitChan : ℕ
  priority : ℕ
  tgid : ℕ
  pml4 : ℕ
  pml4Refcount : ℤ
  kstack : ℕ
  deriving DecidableEq, Repr

/-- What follows the return of `proc_exit` in its caller. -/
inductive After where
  /-- `sched_yield()`, as in `sys_exit` and when a process kills itself. -/
  | yield
  /-- `__sched_yield_locked` takes the lock again and picks. -/
  | pick
  /-- The caller returns, as in `proc_kill` of a process that is not running. -/
  | ret
  deriving DecidableEq, Repr

/-- The unlocked part of `proc_exit` that a CPU has reached. -/
inductive ExitStage where
  /-- Waking the joiners of `clear_tid_addr`. -/
  | wake
  /-- Releasing the user page tables. -/
  | tables
  /-- Releasing the kernel stack. -/
  | kstack
  /-- The final unlinking, under the lock. -/
  | dequeue
  deriving DecidableEq, Repr

/-- What a CPU is doing between two steps, as far as it outlives one lock-protected
section. -/
inductive Act where
  /-- Running its current process, or kernel code that holds no process in its hands. -/
  | run
  /-- `sched_lock` is released, `context_switch` has not yet cleared `from->switching`. -/
  | saving (old : ProcId)
  /-- About to call `proc_exit(p)`. -/
  | enterExit (p : ProcId) (k : After)
  /-- Inside `proc_exit(p)`, past its claim of `p->exiting`. -/
  | inExit (p : ProcId) (stage : ExitStage) (k : After)
  /-- Back from `proc_exit`, about to call `sched_yield`. -/
  | mustYield
  /-- Back from `proc_exit` inside `__sched_yield_locked`, about to pick. -/
  | mustPick
  /-- Between `proc_create`, which returned `p`, and `proc_make_ready(p)`. -/
  | creating (p : ProcId)
  deriving DecidableEq, Repr

/-- The scheduler's state on a machine with `n` CPUs. -/
structure Machine (n : ℕ) where
  procs : ProcId → Proc
  links : Links Prio ProcId
  current : Fin n → Option ProcId
  idle : Fin n → Option ProcId
  act : Fin n → Act

variable {n : ℕ} {L : Prio → List ProcId} {s : Machine n}

namespace Machine

/-- Store back one process. -/
@[simps -fullyApplied]
def setProc (s : Machine n) (p : ProcId) (v : Proc) : Machine n :=
  { s with procs := update s.procs p v }

/-- `p->state = st`. -/
@[simps! -fullyApplied]
def setState (s : Machine n) (p : ProcId) (st : ProcState) : Machine n :=
  s.setProc p { s.procs p with state := st }

/-- Record what CPU `c` is doing. -/
@[simps -fullyApplied]
def setAct (s : Machine n) (c : Fin n) (a : Act) : Machine n :=
  { s with act := update s.act c a }

end Machine

/-! ## The list routines -/

/-- The number of turns after which a walk over a queue must have met `NULL`. -/
def queueFuel : ℕ := schedMaxProcs + 1

/-- The queue `ready_enqueue` files a process under: its priority, or
`PRIO_NORMAL` when that is out of range. -/
def queueOf (priority : ℕ) : Prio :=
  if h : priority < 3 then ⟨priority, h⟩ else 1

/-- The queues in the order every loop of the scheduler visits them. -/
def allQueues : List Prio := [0, 1, 2]

/-- The search of `ready_dequeue` over the queues `qs`. -/
def dequeueFrom (m : Links Prio ProcId) (p : ProcId) :
    List Prio → Option (Links Prio ProcId)
  | [] => some m
  | q :: qs =>
    match scan (fun x => x == p) m queueFuel (.head q) with
    | none => none
    | some (some (pp, _)) => some (unlinkAt m pp p)
    | some none => dequeueFrom m p qs

/-- `ready_dequeue(p)`. -/
def readyDequeue (s : Machine n) (p : ProcId) : Option (Machine n) :=
  (dequeueFrom s.links p allQueues).map fun m => { s with links := m }

/-- The linking of `ready_enqueue` for a process of the given priority. -/
def enqueueAt (m : Links Prio ProcId) (p : ProcId) (priority : ℕ) :
    Option (Links Prio ProcId) :=
  match scan (fun x => x == p) m queueFuel (.head (queueOf priority)) with
  | none => none
  | some (some _) => some m   -- already linked there
  | some none =>
    let m₁ := update m (.next p) none
    (tailCell m₁ queueFuel (.head (queueOf priority))).map fun tail =>
      update m₁ tail (some p)

/-- `ready_enqueue(p)`. -/
def readyEnqueue (s : Machine n) (p : ProcId) : Option (Machine n) :=
  (enqueueAt s.links p (s.procs p).priority).map fun m => { s with links := m }

/-- `for each q, for (p = ready_head[q]; p; p = p->next) body(p)`, for a body that
leaves the links alone. -/
def eachLinked (s : Machine n) (body : Machine n → ProcId → Machine n) : Option (Machine n) :=
  allQueues.foldlM (fun s q =>
    (traverse s.links queueFuel (.head q)).map fun l => l.foldl body s) s

/-! ## What they do to the queues -/

/-- No queue is longer than the process table. -/
theorem length_lt_queueFuel {l : List ProcId} (h : l.Nodup) : l.length < queueFuel := by
  have h1 : l.length ≤ Fintype.card ProcId := h.length_le_card
  simp only [Fintype.card_fin] at h1
  exact Nat.lt_succ_of_le h1

theorem mem_allQueues (q : Prio) : q ∈ allQueues := by
  revert q; decide

theorem dequeueFrom_spec (h : Queues m L) (p : ProcId) : ∀ qs : List Prio, (∀ q, p ∈ L q → q ∈ qs) →
      ∃ m', dequeueFrom m p qs = some m' ∧ Queues m' (fun q => (L q).erase p) := by
  intro qs
  induction qs with
  | nil =>
    intro hall
    refine ⟨m, rfl, ?_⟩
    have hL : (fun q => (L q).erase p) = L := by
      funext q
      exact List.erase_of_not_mem (fun hc => by simpa using hall q hc)
    rw [hL]; exact h
  | cons q qs ih =>
    intro hall
    rcases scan_chain (fun x => x == p) (h.chain q) (length_lt_queueFuel (h.nodup q)) with
      ⟨hs, hnone⟩ | ⟨l₁, x, l₂, hl, hl₁, hx, hs⟩
    · have hpq : p ∉ L q := fun hc => by simpa using hnone p hc
      obtain ⟨m', hm', hq'⟩ := ih (fun q' hq' => by
        rcases List.mem_cons.1 (hall q' hq') with rfl | h'
        · exact absurd hq' hpq
        · exact h')
      exact ⟨m', by simp [dequeueFrom, hs, hm'], hq'⟩
    · have hxp : x = p := by simpa using hx
      subst hxp
      exact ⟨_, by simp [dequeueFrom, hs], h.unlink_erase hl⟩

section

variable (h : Queues s.links L)
include h

/-- **`ready_dequeue`** takes the process out of whichever queue holds it and
changes nothing else. -/
theorem readyDequeue_spec (p : ProcId) : ∃ m, readyDequeue s p = some { s with links := m } ∧
      Queues m (fun q => (L q).erase p) := by
  obtain ⟨m, hm, hq⟩ := dequeueFrom_spec h p allQueues (fun q _ => mem_allQueues q)
  exact ⟨m, by simp [readyDequeue, hm], hq⟩

/-- **`ready_enqueue`** of a process that no queue holds appends it to the queue of
its priority. -/
theorem readyEnqueue_spec (hp : ∀ q, p ∉ L q) : ∃ m, readyEnqueue s p = some { s with links := m } ∧
      Queues m (update L (queueOf (s.procs p).priority)
        (L (queueOf (s.procs p).priority) ++ [p])) := by
  set q := queueOf (s.procs p).priority with hqdef
  have hfuel := length_lt_queueFuel (h.nodup q)
  rcases scan_chain (fun x => x == p) (h.chain q) hfuel with
    ⟨hs, -⟩ | ⟨l₁, x, l₂, hl, -, hx, -⟩
  · have h₁ : Queues (update s.links (.next p) none) L := h.store_next hp none
    have ht := tailCell_chain (h₁.chain q) hfuel
    refine ⟨_, ?_, h.append hp q⟩
    simp [readyEnqueue, enqueueAt, ← hqdef, hs, ht]
  · have hxp : x = p := by simpa using hx
    exact absurd (by rw [hl, hxp]; simp) (hp q)

/-- `ready_enqueue` of a process that its queue already holds does nothing. -/
theorem readyEnqueue_mem (hp : p ∈ L (queueOf (s.procs p).priority)) :
    readyEnqueue s p = some s := by
  set q := queueOf (s.procs p).priority with hqdef
  rcases scan_chain (fun x => x == p) (h.chain q) (length_lt_queueFuel (h.nodup q)) with
    ⟨-, hnone⟩ | ⟨l₁, x, l₂, -, -, -, hs⟩
  · exact absurd (hnone p hp) (by simp)
  · simp [readyEnqueue, enqueueAt, ← hqdef, hs]

/-- **A loop over the ready queues** runs its body on every linked process in
queue order. -/
theorem eachLinked_spec (hbody : ∀ s p, (body s p).links = s.links) :
    eachLinked s body = some ((L 0 ++ L 1 ++ L 2).foldl body s) := by
  have hfold : ∀ (l : List ProcId) (t : Machine n), (l.foldl body t).links = t.links := by
    intro l
    induction l with
    | nil => intro t; rfl
    | cons p l ih => intro t; rw [List.foldl_cons, ih, hbody]
  have htrav : ∀ (t : Machine n) (q : Prio), t.links = s.links →
      traverse t.links queueFuel (.head q) = some (L q) := by
    intro t q ht
    rw [ht]
    exact traverse_chain (h.chain q) (length_lt_queueFuel (h.nodup q))
  simp only [eachLinked, allQueues]
  simp [htrav, hfold]

end

end Xos.Sched
