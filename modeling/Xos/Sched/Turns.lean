import Xos.Sched.Recast

/-!
# Who gets a CPU

What the scheduler's sections do with the CPUs, seen from outside: a section leaves every CPU with
the process it had, or its own CPU takes one `Turn`.  What a process that is neither blocked nor
running can expect from everybody else's steps follows.

* `Undisturbed.routine` — the CPUs, and a process's own entry;
* `Undisturbed.creating`, `Undisturbed.current_saved`, `Undisturbed.filed` — what the roles say
  about a slot under construction, a current process and a live one.
-/

namespace Xos.Sched

open Xos.Lib Function

variable {n : ℕ} {s s' : Machine n} {c : Fin n} {cur next p : ProcId} {ev : List Event}
  {now : ProcId → ℕ} {r : Proc} {l : Label n} {b : ProcId → Prop}

/-! ## Who gets a CPU -/

/-- What a section can do with its CPU: keep it, or hand it over. -/
inductive Turn (s : Machine n) (c : Fin n) (s' : Machine n) : Prop
  | stay (current : s'.current = s.current) (act : s'.act = update s.act c .run)
  | switch (cur next : ProcId) (hcur : s.current c = some cur)
      (current : s'.current = update s.current c (some next))
      (act : s'.act = update s.act c (.saving cur))

theorem pickAndSwitch_turn (hcur : s.current c = some cur)
    (h : pickAndSwitch s c cur now = some (s', ev)) : Turn s c s' := by
  obtain ⟨t, ht, rfl | ⟨next, rfl⟩⟩ := pickAndSwitch_cases h
  · refine .stay ht.current ?_
    rw [← ht.act]
    rfl
  refine .switch cur next hcur ?_ ?_
  · rw [← ht.current]
    rfl
  · rw [← ht.act]
    rfl

/-- Going to sleep: the process is filed as `BLOCKED`, and the CPU passes on. -/
theorem sleepOn_turn (hcur : s.current c = some cur) (hr : r.state = .blocked)
    (ht : readyEnqueue (s.setProc cur r) cur = some t)
    (h : schedYieldLocked t c now = some (s', ev)) : Turn s c s' := by
  obtain ⟨m, rfl⟩ := readyEnqueue_links ht
  unfold schedYieldLocked at h
  simp only [Machine.setProc_current, hcur] at h
  rw [if_neg (by simp [hr])] at h
  cases pickAndSwitch_turn (by exact hcur) h with
  | stay current act => exact .stay current act
  | switch cur₁ next hcur₁ current act => exact .switch cur₁ next hcur₁ current act

/-! ## The steps in between -/

/-- What the CPUs do that start no process: yield, sleep, wake, change priorities. -/
def Label.Routine : Label n → Prop
  | .schedYield .. | .procSleep .. | .schedBlockOn .. | .clearChan .. | .schedWakeChan ..
  | .schedWakeSleepers .. | .procSetPriority .. => True
  | _ => False

theorem Label.Routine.neutral (h : l.Routine) : l.Neutral := by
  cases l with
  | schedYield | procSleep | schedBlockOn | clearChan | schedWakeChan | schedWakeSleepers
  | procSetPriority => trivial
  | _ => exact absurd h id

/-- What a process that is not blocked keeps while others run. -/
structure Kept (r r' : Proc) : Prop where
  pid : r'.pid = r.pid
  sleep : r'.sleepUntil = r.sleepUntil
  awake : r'.state ≠ .blocked

/-- What a routine step does to the entry of a process: the pid stays, and the rest of `Kept` if
it is not blocked and `b` holds. -/
def Spares (b : Prop) (r r' : Proc) : Prop :=
  r'.pid = r.pid ∧ (r.state ≠ .blocked → b → Kept r r')

theorem Spares.refl {b : Prop} (r : Proc) : Spares b r r := ⟨rfl, fun hb _ => ⟨rfl, rfl, hb⟩⟩

theorem Drift.spares {b : Prop} (h : Drift r r') : Spares b r r' :=
  ⟨h.pid, fun hb _ => ⟨h.pid, h.sleep.resolve_right fun hc => hb hc.1, fun hc => hb (h.blocked hc)⟩⟩

theorem Woken.spares {b : Prop} {l : List ProcId} (h : Woken l s s') (p : ProcId) :
    Spares b (s.procs p) (s'.procs p) := by
  rcases h.procs p with he | ⟨-, hb', _, _, he⟩
  · rw [he]
    exact .refl _
  · rw [he]
    exact ⟨rfl, fun hb => absurd hb' hb⟩

theorem setProc_spares (h : Spares (b x) (s.procs x) r) (p : ProcId) :
    Spares (b p) (s.procs p) ((s.setProc x r).procs p) := by
  by_cases hx : p = x
  · subst hx
    simpa using h
  · simpa [hx] using Spares.refl _

/-- A process that goes to sleep spares all others. -/
theorem sleepOn_spares (hb : ¬b cur) (ht : readyEnqueue (s.setProc cur r) cur = some t)
    (hr : r.pid = (s.procs cur).pid) (h : schedYieldLocked t c now = some (s', ev)) (p : ProcId) :
    Spares (b p) (s.procs p) (s'.procs p) := by
  obtain ⟨m, rfl⟩ := readyEnqueue_links ht
  have hd := schedYieldLocked_drifts h p
  by_cases hp : p = cur
  · subst hp
    exact ⟨hd.pid.trans (by simpa using hr), fun _ hc => absurd hc hb⟩
  · have hsame : (s.setProc cur r).procs p = s.procs p := by simp [hp]
    exact hsame ▸ hd.spares

section

variable (h : Undisturbed s)
include h

/-- **A routine step** changes nobody's CPU, or is a turn of a CPU that was running; and it spares
every process that does not itself go to sleep. -/
theorem Undisturbed.routine (hl : l.Routine) (hstep : Step s l s') :
    (SameHands s s' ∨ (s.act l.cpu = .run ∧ Turn s l.cpu s')) ∧
      ∀ p, Spares (s.current l.cpu = some p → s.act l.cpu ≠ .run) (s.procs p) (s'.procs p) := by
  obtain ⟨hen, ev, hex⟩ := hstep
  obtain ⟨L, hinv⟩ := h.inv
  cases l with
  | schedYield c now =>
    refine ⟨.inr ?_, fun p => (schedYieldLocked_drifts hex p).spares⟩
    have hrun : s.act c = .run := by
      rcases hen with hrun | hmust
      · exact hrun
      have := h.act c
      rw [hmust] at this
      exact absurd this id
    obtain ⟨cur, hcur⟩ := hinv.current c
    have hex' : schedYieldLocked s c now = some (s', ev) := hex
    unfold schedYieldLocked at hex'
    rw [hcur] at hex'
    dsimp only at hex'
    rw [if_neg fun hd => h.alive c cur hcur hd.1] at hex'
    exact ⟨hrun, pickAndSwitch_turn hcur hex'⟩
  | procSleep c | schedBlockOn c =>
    rcases onCurrent_cases hex with ⟨cur, hcur, hex⟩ | ⟨hcur, -⟩
    · obtain ⟨t, ht, hy⟩ := Option.bind_eq_some_iff.mp hex
      exact ⟨.inr ⟨hen.1, sleepOn_turn hcur rfl ht hy⟩,
        sleepOn_spares (fun hc => hc hcur hen.1) ht rfl hy⟩
    obtain ⟨cur, hcur'⟩ := hinv.current c
    rw [hcur] at hcur'
    cases hcur'
  | clearChan =>
    rcases onCurrent_cases hex with ⟨cur, -, hex⟩ | ⟨-, rfl⟩
    · cases hex
      exact ⟨.inl ⟨rfl, rfl⟩, setProc_spares ⟨rfl, fun hb _ => ⟨rfl, rfl, hb⟩⟩⟩
    · exact ⟨.inl ⟨rfl, rfl⟩, fun p => .refl _⟩
  | schedWakeChan c chan =>
    obtain ⟨t, ht, heq⟩ := Option.map_eq_some_iff.mp hex
    cases heq
    obtain ⟨t', ht', hw⟩ := wakeAll_woken (wakeOnChan_wakesOne chan) hinv.queues
    obtain rfl : s' = t' := Option.some.inj (ht.symm.trans ht')
    exact ⟨.inl ⟨hw.current, hw.act⟩, fun p => hw.spares p⟩
  | schedWakeSleepers =>
    obtain ⟨t, ht, heq⟩ := Option.map_eq_some_iff.mp hex
    cases heq
    have hs := wakeSleepers_shifts ht
    exact ⟨.inl hs.toSameHands, fun p => (hs.drifts p).spares⟩
  | procSetPriority =>
    obtain ⟨t, ht, heq⟩ := Option.map_eq_some_iff.mp hex
    cases heq
    obtain ⟨m, prio', rfl⟩ := procSetPriority_eq ht
    exact ⟨.inl ⟨rfl, rfl⟩, setProc_spares ⟨rfl, fun hb _ => ⟨rfl, rfl, hb⟩⟩⟩
  | _ => exact absurd hl id

/-- Nobody dies in a step that takes no process down. -/
theorem Undisturbed.dead_before (hl : l.Plain) (hstep : Step s l s')
    (hd : (s'.procs p).state = .dead) : (s.procs p).state = .dead := by
  obtain ⟨L, hinv⟩ := h.inv
  obtain ⟨hen, ev, hex⟩ := hstep
  obtain ⟨t, ev', L', hex', -, heff⟩ := exec_spec hinv hen (h.guard hl)
  rw [hex] at hex'
  cases hex'
  exact heff.alive hl p hd

/-! ## What the roles say -/

/-- A slot under construction is nobody's process yet. -/
theorem Undisturbed.creating (hc : s.act c = .creating p) :
    (∀ c', s.current c' ≠ some p) ∧ (∀ c', s.act c' ≠ .saving p) ∧ (s.procs p).pid ≠ 0 ∧
      (s.procs p).state = .dead ∧ (s.procs p).reaped = false := by
  obtain ⟨L, hinv⟩ := h.inv
  have hhold : (view s L p).hold c = some .creating := Act.on_eq_creating.2 hc
  obtain ⟨aside, hst, hre, -, hpid, -, hold⟩ := (hinv.fits p).of_creating hhold
  refine ⟨aside.off, fun c' hc' => ?_, hpid, hst, hre⟩
  have hsav : (view s L p).hold c' = some .saving := Act.on_eq_saving.2 hc'
  rw [hold c'] at hsav
  split at hsav <;> cases hsav

/-- What is current is not being saved. -/
theorem Undisturbed.current_saved (hc : s.current c = some p) (c' : Fin n) :
    s.act c' ≠ .saving p := by
  obtain ⟨L, hinv⟩ := h.inv
  intro hc'
  have hsav : (view s L p).hold c' = some .saving := Act.on_eq_saving.2 hc'
  have hcur : (view s L p).current c := hc
  have hnone : ∀ {o : Option (Fin n)}, o = none → (view s L p).SavedBy o → False := by
    rintro o rfl hsaved
    rw [hsaved.hold c'] at hsav
    cases hsav
  cases hinv.fits p with
  | free aside | fresh _ aside | doomed aside | dying _ aside | gone _ aside => exact aside.off c hc
  | queued _ off => exact off c hc
  | yielding _ hlock => cases hlock
  | running c₀ current _ _ _ _ _ others hold =>
    by_cases h₀ : c' = c₀
    · subst h₀
      rcases hold with hold | ⟨k, -, hold⟩ | ⟨-, st, k, hold⟩
      · rw [hold] at hsav
        cases hsav
      · rw [hold] at hsav
        cases hsav
      · rw [hold] at hsav
        cases hsav
    · rw [others c' h₀] at hsav
      cases hsav
  | idling c₀ _ current _ _ _ _ o _ away saved =>
    obtain rfl : c = c₀ := current c hcur
    exact hnone (away hcur) saved

theorem Undisturbed.single (hc : s.current c = some p) (hc' : s.current c' = some p) : c = c' := by
  obtain ⟨L, hinv⟩ := h.inv
  exact (hinv.fits p).single (v := view s L p) hc hc'

theorem Undisturbed.idle_pid (hi : s.idle c = some p) : (s.procs p).pid = 0 := by
  obtain ⟨L, hinv⟩ := h.inv
  exact ((hinv.fits p).of_idle (v := view s L p) hi).2.1

/-- A live process is on a CPU, or waits in the queue of its priority and in no other. -/
theorem Undisturbed.filed (hpid : (s.procs p).pid ≠ 0)
    (hd : (s.procs p).state ≠ .dead) (hoff : ∀ c, s.current c ≠ some p) :
    (s.procs p).state.waits ∧ ∃ L, RunQueueSafe s L ∧
      ∀ q : Prio, p ∈ L q ↔ (q : ℕ) = (s.procs p).priority := by
  obtain ⟨L, hinv⟩ := h.inv
  have hsafe := hinv.runQueueSafe fun c p => h.not_enterExit c p .ret
  have hw : (s.procs p).state.waits := by
    cases hinv.fits p with
    | free _ state | fresh _ _ state | dying _ _ state | gone _ _ state => exact absurd state hd
    | queued _ _ _ state | doomed _ state => exact state
    | yielding _ hlock => cases hlock
    | running c₀ current => exact absurd ((current c₀).mpr rfl) (hoff c₀)
    | idling _ _ _ _ pid => exact absurd pid hpid
  exact ⟨hw, L, hsafe, hsafe.filed p hpid hw⟩

end

end Xos.Sched
