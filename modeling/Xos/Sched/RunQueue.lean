import Xos.Lib.Run
import Xos.Sched.Safety

/-!
# Run-queue safety

The boot state, and what holds as long as no process is taken down: any interleaving, over
any number of CPUs, of yields, sleeps, waits and wake-ups, priority changes and the steps of
`proc_fork`, with the end of every context switch a step of its own.

* `RunQueueSafe` — each process is linked at most once, current on at most one CPU, never
  both `RUNNING` and linked, and linked in the queue of its priority while it is `READY` or
  `BLOCKED`; `Inv.runQueueSafe` reads it off the roles.
* `Undisturbed.exec` — every further step comes back, keeps this, and uses no recovery scan.

`Xos.Sched.Creation` adds the stores of `proc_clone` and `sys_proc_spawn`.
-/

namespace Xos.Sched

open Xos.Lib

variable {n : ℕ} {s s₀ : Machine n} {L : Prio → List ProcId}

/-! ## The boot state -/

/-- A slot after `sched_early_init`. -/
def zeroProc : Proc where
  pid := 0
  state := .dead
  sleepUntil := 0
  parentPid := 0
  exitCode := 0
  reaped := true
  exiting := false
  switching := false
  waitChan := 0
  priority := 0
  tgid := 0
  pml4 := 0
  pml4Refcount := 0
  kstack := 0

/-- The machine after `sched_early_init`, `sched_init` and the `sched_init_ap` of
every further CPU: CPU `c` runs the idle process in slot `c`, on the kernel page
tables `kernelPml4` and the kernel stack `kstack c`. -/
def boot (n : ℕ) (h : n ≤ schedMaxProcs) (kernelPml4 : ℕ) (kstack : ProcId → ℕ) : Machine n where
  procs p := if (p : ℕ) < n then
      { zeroProc with state := .running, pml4 := kernelPml4, kstack := kstack p }
    else zeroProc
  links _ := none
  current c := some (c.castLE h)
  idle c := some (c.castLE h)
  act _ := .run

theorem boot_booted (h : n ≤ schedMaxProcs) (kernelPml4 : ℕ) (kstack : ProcId → ℕ) :
    Booted (boot n h kernelPml4 kstack) where
  idle c := ⟨c.castLE h, rfl, rfl, by simp [boot, zeroProc], by simp [boot]⟩
  distinct c c' i hc hc' := by
    have he := (Option.some.inj hc).trans (Option.some.inj hc').symm
    exact Fin.castLE_injective h he
  free p hp := by
    have hlt : ¬ (p : ℕ) < n := fun hlt => hp ⟨p, hlt⟩ rfl
    simp [boot, hlt, zeroProc]
  zeroed p := by
    by_cases hlt : (p : ℕ) < n <;> simp [boot, hlt, zeroProc]
  act _ := rfl
  empty _ := rfl

/-! ## Safety -/

/-- The queues hold the lists `L`, and the process table agrees with them. -/
structure RunQueueSafe (s : Machine n) (L : Prio → List ProcId) : Prop where
  contents : ∀ q, traverse s.links queueFuel (.head q) = some (L q)
  once : (L 0 ++ L 1 ++ L 2).Nodup
  single : ∀ c c' p, s.current c = some p → s.current c' = some p → c = c'
  running : ∀ p, (s.procs p).state = .running → ∀ q, p ∉ L q
  filed : ∀ p, (s.procs p).pid ≠ 0 →
    ((s.procs p).state = .ready ∨ (s.procs p).state = .blocked) →
      ∀ q, p ∈ L q ↔ (q : ℕ) = (s.procs p).priority

theorem queueOf_val (h : prio < 3) : ((queueOf prio : Prio) : ℕ) = prio := by
  simp [queueOf, h]

theorem Queues.nodup_append (h : Queues m L) : (L 0 ++ L 1 ++ L 2).Nodup := by
  have hdis : ∀ q q', q ≠ q' → ∀ a ∈ L q, ∀ b ∈ L q', a ≠ b := by
    rintro q q' hne a ha b hb rfl
    exact hne (h.disj q q' a ha hb)
  refine List.nodup_append.2 ⟨List.nodup_append.2 ⟨h.nodup 0, h.nodup 1, hdis 0 1 (by decide)⟩,
    h.nodup 2, fun a ha b hb => ?_⟩
  rcases List.mem_append.1 ha with ha | ha
  · exact hdis 0 2 (by decide) a ha b hb
  · exact hdis 1 2 (by decide) a ha b hb

/-- The roles give run-queue safety where no `proc_kill` is under way. -/
theorem Inv.runQueueSafe (h : Inv none s L) (hk : ∀ c p, s.act c ≠ .enterExit p .ret) :
    RunQueueSafe s L where
  contents q := traverse_chain (h.queues.chain q) (length_lt_queueFuel (h.queues.nodup q))
  once := Queues.nodup_append h.queues
  single c c' p hc hc' := (h.fits p).single hc hc'
  running p hp q hq := by
    obtain ⟨hw, -⟩ := (h.fits p).of_linked hq
    rcases hw with hw | hw <;> exact absurd (hp.symm.trans hw) (by decide)
  filed p _ hw q := by
    have hmem := h.linked_of_waits hw (fun c => hk c p)
    obtain ⟨-, -, -, hlinked, -⟩ := (h.fits p).of_linked hmem
    rw [show (p ∈ L q ↔ q = queueOf (s.procs p).priority) from hlinked q, Fin.ext_iff,
      queueOf_val (h.prio p)]

/-- What a run without exits keeps: no CPU is anywhere in `proc_exit`, and what is
current is alive. -/
structure Undisturbed (s : Machine n) : Prop where
  inv : ∃ L, Inv none s L
  act : ∀ c, (s.act c).Plain
  alive : ∀ c p, s.current c = some p → (s.procs p).state ≠ .dead

theorem Undisturbed.not_enterExit (h : Undisturbed s) (c : Fin n) (p : ProcId) (k : After) :
    s.act c ≠ .enterExit p k := by
  intro hc
  have := h.act c
  rw [hc] at this
  exact this

/-- Where nothing is taken down, the guard of every plain step holds. -/
theorem Undisturbed.guard (h : Undisturbed s) (hl : l.Plain) : Guard s l := by
  have hcalm : Calm s := fun c p hc => absurd hc (h.not_enterExit c p .ret)
  cases l with
  | schedYield => exact hcalm
  | procSleep c | schedBlockOn c => exact ⟨hcalm, h.alive c⟩
  | procSetPriority c p => exact fun c' => h.not_enterExit c' p .ret
  | procKill | exitPick | reap => exact absurd hl id
  | _ => trivial

theorem Undisturbed.exec (h : Undisturbed s) (hl : l.Plain) (hen : enabled s l) :
    ∃ s' ev, exec s l = some (s', ev) ∧ Undisturbed s' ∧ ∀ e ∈ ev, e.Safe s l.cpu := by
  obtain ⟨L, hinv⟩ := h.inv
  obtain ⟨s', ev, L', hex, hinv', heff⟩ := exec_spec hinv hen (h.guard hl)
  refine ⟨s', ev, hex, ⟨⟨L', hinv'⟩, fun c => ?_, fun c p hc hd => ?_⟩, heff.events⟩
  · obtain ⟨a, ha, hpl⟩ := heff.act
    rw [ha]
    by_cases hc : c = l.cpu
    · subst hc
      rw [Function.update_self]
      rcases hpl hl with he | hp | ⟨cur, hcur, hd⟩
      · rw [he]; exact h.act _
      · exact hp
      · exact absurd hd (h.alive _ cur hcur)
    · rw [Function.update_of_ne hc]; exact h.act c
  · rcases heff.current c p hc with hcur | hr
    · exact h.alive c p hcur (heff.alive hl p hd)
    · rw [hd] at hr; cases hr

theorem Booted.undisturbed (h : Booted s) : Undisturbed s where
  inv := ⟨_, Inv.booted h⟩
  act c := by rw [h.act c]; trivial
  alive c p hc := by
    obtain ⟨i, -, hi, -, hrun⟩ := h.idle c
    obtain rfl : i = p := Option.some.inj (hi.symm.trans hc)
    rw [hrun]; decide

end Xos.Sched
