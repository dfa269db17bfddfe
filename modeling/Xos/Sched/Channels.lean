import Xos.Sched.RunQueue

/-!
# Wait channels

What the scheduler promises to the code that blocks on it.  `blockedOn s` says which process
sleeps on which channel, and every step of a run that takes no process down changes it in one of
three ways:

* **`sched_block_on`** puts the current process to sleep on its channel;
* **`sched_wake_chan`** wakes every process that sleeps on the channel — all of them, because
  every blocked process is linked (`schedWakeChan_blockedOn`);
* **the rest** wakes processes at most, when their timeout is over (`blockedOn_step`).

The pick and the switch of `__sched_yield_locked` are behind most steps.  What they may do to one
entry of the process table is `Drift`.
-/

namespace Xos.Sched

open Xos.Lib Function

variable {n : ℕ} {s s' : Machine n} {c : Fin n} {cur p : ProcId} {r : Proc} {now : ProcId → ℕ}
  {ev : List Event} {chan : ℕ} {l : Label n}

/-! ## What a pick does to a process -/

/-- From `r` to `r'` a process was at most woken by its timeout, picked or preempted. -/
structure Drift (r r' : Proc) : Prop where
  pid : r'.pid = r.pid
  priority : r'.priority = r.priority
  waitChan : r'.waitChan = r.waitChan
  sleep : r'.sleepUntil = r.sleepUntil ∨ r.state = .blocked ∧ r'.state ≠ .blocked
  blocked : r'.state = .blocked → r.state = .blocked
  ready : r.state = .ready → r'.state = .ready ∨ r'.state = .running
  running : r.state = .running → r'.state = .ready ∨ r'.state = .running

namespace Drift

theorem refl (r : Proc) : Drift r r := ⟨rfl, rfl, rfl, .inl rfl, id, .inl, .inr⟩

theorem trans (h : Drift r r') (h' : Drift r' r'') : Drift r r'' where
  pid := h'.pid.trans h.pid
  priority := h'.priority.trans h.priority
  waitChan := h'.waitChan.trans h.waitChan
  sleep := by
    rcases h.sleep with he | ⟨hb, hn⟩
    · exact h'.sleep.imp (·.trans he) fun hb' => ⟨h.blocked hb'.1, hb'.2⟩
    · exact .inr ⟨hb, fun hc => hn (h'.blocked hc)⟩
  blocked hb := h.blocked (h'.blocked hb)
  ready hr := (h.ready hr).elim h'.ready h'.running
  running hr := (h.running hr).elim h'.ready h'.running

/-- A process that is not blocked may be given the CPU. -/
theorem run (r : Proc) : Drift r { r with state := .running } :=
  ⟨rfl, rfl, rfl, .inl rfl, nofun, fun _ => .inr rfl, fun _ => .inr rfl⟩

theorem preempt : Drift r { r with state := .ready } :=
  ⟨rfl, rfl, rfl, .inl rfl, nofun, fun _ => .inl rfl, fun _ => .inl rfl⟩

theorem switching (r : Proc) (b : Bool) : Drift r { r with switching := b } :=
  ⟨rfl, rfl, rfl, .inl rfl, id, .inl, .inr⟩

end Drift

/-- `Drift` for every process. -/
def Drifts (s s' : Machine n) : Prop := ∀ p, Drift (s.procs p) (s'.procs p)

theorem Drifts.refl (s : Machine n) : Drifts s s := fun _ => Drift.refl _

theorem Drifts.trans (h : Drifts s s') (h' : Drifts s' s'') : Drifts s s'' :=
  fun p => (h p).trans (h' p)

theorem Drifts.setProc (h : Drift (s.procs p) r) : Drifts s (s.setProc p r) := by
  intro x
  obtain rfl | hx := eq_or_ne x p
  · simpa using h
  · simpa [hx] using Drift.refl _

theorem Drifts.of_procs (h : s'.procs = s.procs) : Drifts s s' := fun _ => h ▸ Drift.refl _

theorem wakeExpired_drifts (now : ProcId → ℕ) (s : Machine n) (p : ProcId) :
    Drifts s (wakeExpired now s p) := by
  unfold wakeExpired
  split
  · next h =>
      exact Drifts.setProc ⟨rfl, rfl, rfl, .inr ⟨h.1, by simp⟩, nofun, fun _ => .inl rfl,
        fun _ => .inl rfl⟩
  · exact Drifts.refl s

/-- No CPU changes hands. -/
structure SameHands (s s' : Machine n) : Prop where
  current : s'.current = s.current
  act : s'.act = s.act

/-- Processes drift, and no CPU changes hands. -/
structure Shifts (s s' : Machine n) : Prop extends SameHands s s' where
  drifts : Drifts s s'

theorem Shifts.refl (s : Machine n) : Shifts s s := ⟨⟨rfl, rfl⟩, Drifts.refl s⟩

theorem Shifts.trans (h : Shifts s s') (h' : Shifts s' s'') : Shifts s s'' :=
  ⟨⟨h'.current.trans h.current, h'.act.trans h.act⟩, h.drifts.trans h'.drifts⟩

/-- What a loop over the queues does follows from what its body does. -/
theorem eachLinked_rel {R : Machine n → Machine n → Prop} (hrefl : ∀ s, R s s)
    (htrans : ∀ s t u, R s t → R t u → R s u) (hbody : ∀ s p, R s (body s p))
    (h : eachLinked s body = some s') : R s s' := by
  have hfold : ∀ (l : List ProcId) (t : Machine n), R t (l.foldl body t) := by
    intro l
    induction l with
    | nil => exact hrefl
    | cons p l ih => exact fun t => htrans _ _ _ (hbody t p) (ih _)
  have hqueues : ∀ (qs : List Prio) (t t' : Machine n),
      qs.foldlM (fun s q => (traverse s.links queueFuel (.head q)).map fun l => l.foldl body s) t =
        some t' → R t t' := by
    intro qs
    induction qs with
    | nil =>
      intro t t' ht
      cases ht
      exact hrefl t
    | cons q qs ih =>
      intro t t' ht
      rw [List.foldlM_cons] at ht
      cases htr : traverse t.links queueFuel (.head q) with
      | none => simp [htr] at ht
      | some l =>
        rw [htr] at ht
        exact htrans _ _ _ (hfold l t) (ih _ _ ht)
  exact hqueues allQueues s s' h

theorem wakeSleepers_shifts (h : eachLinked s (wakeExpired now) = some s') : Shifts s s' := by
  refine eachLinked_rel Shifts.refl (fun _ _ _ => .trans) (fun s p => ?_) h
  refine ⟨?_, wakeExpired_drifts now s p⟩
  unfold wakeExpired
  split <;> exact ⟨rfl, rfl⟩

theorem readyDequeue_links (h : readyDequeue s p = some s') : ∃ m, s' = { s with links := m } := by
  obtain ⟨m, -, rfl⟩ := Option.map_eq_some_iff.mp h
  exact ⟨m, rfl⟩

theorem readyEnqueue_links (h : readyEnqueue s p = some s') : ∃ m, s' = { s with links := m } := by
  obtain ⟨m, -, rfl⟩ := Option.map_eq_some_iff.mp h
  exact ⟨m, rfl⟩

theorem pickQueued_links : ∀ {qs : List Prio} {r : Machine n × ProcId},
    pickQueued s qs = some (some r) → ∃ m, r.1 = { s with links := m } := by
  intro qs
  induction qs with
  | nil =>
    intro r h
    cases h
  | cons q qs ih =>
    intro r h
    unfold pickQueued at h
    split at h
    · cases h
    · cases h
      exact ⟨_, rfl⟩
    · exact ih h

theorem pickNextReady_shifts (h : pickNextReady s now = some (s', pick)) : Shifts s s' := by
  obtain ⟨t, ht, h⟩ := Option.bind_eq_some_iff.mp h
  have hd := wakeSleepers_shifts ht
  obtain ⟨r, hr, h⟩ := Option.bind_eq_some_iff.mp h
  cases r with
  | some =>
    cases h
    obtain ⟨m, hm⟩ := pickQueued_links hr
    rw [hm]
    exact ⟨⟨hd.current, hd.act⟩, hd.drifts⟩
  | none =>
    obtain ⟨r, -, h⟩ := Option.bind_eq_some_iff.mp h
    cases r with
    | some | none => cases h; exact hd

theorem handOver_drifts (s : Machine n) (c : Fin n) (cur next : ProcId) :
    Drifts s (handOver s c cur next) := by
  have h1 : Drifts s (s.setState next .running) := Drifts.setProc (Drift.run _)
  exact h1.trans (Drifts.setProc (Drift.switching _ _))

/-- **The switch** keeps the CPU or hands it over, after the queues have changed. -/
theorem switchFrom_cases (h : switchFrom s c cur next = some s') :
    ∃ t, Shifts s t ∧ (s' = t.setAct c .run ∨ ∃ next', s' = handOver t c cur next') := by
  unfold switchFrom at h
  split at h
  · obtain ⟨t, ht, rfl⟩ := Option.map_eq_some_iff.mp h
    obtain ⟨m, rfl⟩ := readyDequeue_links ht
    refine ⟨_, ?_, .inl rfl⟩
    exact ⟨⟨rfl, rfl⟩, Drifts.setProc (Drift.run _)⟩
  split at h
  · cases h
    exact ⟨s, .refl s, .inl rfl⟩
  split at h
  · repeat' split at h
    all_goals cases h
    · exact ⟨s, .refl s, .inr ⟨_, rfl⟩⟩
    all_goals exact ⟨s, .refl s, .inl rfl⟩
  split at h
  · obtain ⟨t, ht, rfl⟩ := Option.map_eq_some_iff.mp h
    obtain ⟨m, rfl⟩ := readyEnqueue_links ht
    refine ⟨_, ?_, .inr ⟨next, rfl⟩⟩
    exact ⟨⟨rfl, rfl⟩, Drifts.setProc Drift.preempt⟩
  · cases h
    exact ⟨s, .refl s, .inr ⟨next, rfl⟩⟩

theorem pickAndSwitch_cases (h : pickAndSwitch s c cur now = some (s', ev)) :
    ∃ t, Shifts s t ∧ (s' = t.setAct c .run ∨ ∃ next, s' = handOver t c cur next) := by
  obtain ⟨⟨t, pick⟩, ht, h⟩ := Option.bind_eq_some_iff.mp h
  obtain ⟨u, hu, h⟩ := Option.bind_eq_some_iff.mp h
  cases h
  obtain ⟨u', hu', he⟩ := switchFrom_cases hu
  exact ⟨u', (pickNextReady_shifts ht).trans hu', he⟩

theorem schedYieldLocked_drifts (h : schedYieldLocked s c now = some (s', ev)) : Drifts s s' := by
  unfold schedYieldLocked at h
  split at h
  · cases h
    exact Drifts.refl s
  split at h
  · cases h
    exact Drifts.of_procs rfl
  obtain ⟨t, ht, rfl | ⟨next, rfl⟩⟩ := pickAndSwitch_cases h
  · exact ht.drifts
  · exact ht.drifts.trans (handOver_drifts _ _ _ _)

/-! ## Who sleeps on what -/

/-- The channel that a process sleeps on. -/
def blockedOn (s : Machine n) (p : ProcId) : Option ℕ :=
  if (s.procs p).state = .blocked then some (s.procs p).waitChan else none

theorem blockedOn_some :
    blockedOn s p = some chan ↔ (s.procs p).state = .blocked ∧ (s.procs p).waitChan = chan := by
  simp [blockedOn]

/-- Processes have been woken at most. -/
def Wakes (w w' : ProcId → Option ℕ) : Prop := ∀ p, w' p = w p ∨ w' p = none

theorem Wakes.refl (w : ProcId → Option ℕ) : Wakes w w := fun _ => .inl rfl

theorem Drift.blockedOn_cases (h : Drift (s.procs p) (s'.procs p)) :
    blockedOn s' p = blockedOn s p ∨ blockedOn s' p = none := by
  unfold blockedOn
  by_cases hb : (s'.procs p).state = .blocked
  · simp [hb, h.blocked hb, h.waitChan]
  · simp [hb]

theorem Drifts.wakes (h : Drifts s s') : Wakes (blockedOn s) (blockedOn s') :=
  fun p => (h p).blockedOn_cases

/-- **`sched_wake_chan` wakes everyone on the channel**, and nobody else. -/
theorem schedWakeChan_blockedOn (h : Undisturbed s) (hex : schedWakeChan s chan = some s')
    (p : ProcId) :
    blockedOn s' p = if blockedOn s p = some chan then none else blockedOn s p := by
  obtain ⟨L, hinv⟩ := h.inv
  have heach := eachLinked_spec hinv.queues (wakeOnChan_wakesOne (n := n) chan).links
  obtain rfl : s' = (L 0 ++ L 1 ++ L 2).foldl (wakeOnChan chan) s :=
    Option.some.inj (hex.symm.trans heach)
  -- the loop looks at every process of the list
  have hloop : ∀ (l : List ProcId) (t : Machine n), (p ∈ l ∨ blockedOn t p ≠ some chan) →
      blockedOn (l.foldl (wakeOnChan chan) t) p =
        if blockedOn t p = some chan then none else blockedOn t p := by
    intro l
    induction l with
    | nil =>
      simp_all
    | cons x l ih =>
      intro t ht
      rw [List.foldl_cons]
      obtain rfl | hx := eq_or_ne x p
      · by_cases hb : blockedOn t x = some chan
        · have hwoken : blockedOn (wakeOnChan chan t x) x = none := by
            simp [wakeOnChan, blockedOn, blockedOn_some.mp hb]
          rw [ih _ (.inr (by simp [hwoken])), hwoken, if_pos hb]
          rfl
        · have hsame : wakeOnChan chan t x = t := if_neg fun hc => hb (blockedOn_some.mpr hc)
          rw [hsame]
          exact ih t (.inr hb)
      · have hsame : blockedOn (wakeOnChan chan t x) p = blockedOn t p := by
          unfold wakeOnChan blockedOn
          split <;> simp [hx.symm]
        rw [ih _ (hsame ▸ ht.imp_left fun hc => (List.mem_cons.mp hc).resolve_left hx.symm), hsame]
  refine hloop _ s ?_
  by_cases hb : blockedOn s p = some chan
  · -- a blocked process is in the queue of its priority
    left
    have hw : (s.procs p).state.waits := .inr (blockedOn_some.mp hb).1
    exact mem_queues.mpr ⟨_, hinv.linked_of_waits hw fun c => h.not_enterExit c p .ret⟩
  · exact .inr hb

/-- The process that a step puts to sleep, and the channel. -/
def Label.sleeper (s : Machine n) : Label n → Option (ProcId × ℕ)
  | .schedBlockOn c chan _ _ _ _ => (s.current c).map (·, chan)
  | .procSleep c _ _ _ _ => (s.current c).map fun cur => (cur, (s.procs cur).waitChan)
  | _ => none

/-- The processes asleep after the first half of a step. -/
def asleepWith (w : ProcId → Option ℕ) : Option (ProcId × ℕ) → ProcId → Option ℕ
  | some (p, chan) => update w p (some chan)
  | none => w

theorem sleep_wakes (hr : r.state = .blocked) (ht : readyEnqueue (s.setProc cur r) cur = some t)
    (h : schedYieldLocked t c now = some (s', ev)) :
    Wakes (asleepWith (blockedOn s) (some (cur, r.waitChan))) (blockedOn s') := by
  intro p
  obtain ⟨m, rfl⟩ := readyEnqueue_links ht
  refine (schedYieldLocked_drifts h p).blockedOn_cases.imp_left fun he => he.trans ?_
  show blockedOn (s.setProc cur r) p = update (blockedOn s) cur (some r.waitChan) p
  by_cases hp : p = cur <;> simp [blockedOn, hp, hr]

/-- What a CPU has current is running. -/
theorem Undisturbed.current_running (h : Undisturbed s) (hc : s.current c = some p) :
    (s.procs p).state = .running := by
  obtain ⟨L, hinv⟩ := h.inv
  exact ((hinv.fits p).of_current hc).resolve_right (h.alive c p hc)

theorem Wakes.of_state (h : ∀ p, (s'.procs p).state = .blocked →
    (s.procs p).state = .blocked ∧ (s'.procs p).waitChan = (s.procs p).waitChan) :
    Wakes (blockedOn s) (blockedOn s') := by
  intro p
  unfold blockedOn
  by_cases hb : (s'.procs p).state = .blocked
  · simp [hb, h p hb]
  · simp [hb]

/-- One entry of the table that is not blocked afterwards, or keeps its state and channel. -/
theorem Wakes.setProc (h : r.state = .blocked →
    (s.procs p).state = .blocked ∧ r.waitChan = (s.procs p).waitChan) :
    Wakes (blockedOn s) (blockedOn (s.setProc p r)) := by
  refine Wakes.of_state fun x hx => ?_
  by_cases hxp : x = p
  · subst hxp
    simpa using h (by simpa using hx)
  · simpa [hxp] using hx

/-- `proc_set_priority` stores a priority and moves the process in the queues. -/
theorem procSetPriority_eq (h : procSetPriority s p prio = some s') :
    ∃ m prio', s' = { s.setProc p { s.procs p with priority := prio' } with links := m } := by
  unfold procSetPriority at h
  split at h
  · cases h
    exact ⟨s.links, (s.procs p).priority, by simp⟩
  dsimp only at h
  have hlast : ∀ m (onQueue : Prop) [Decidable onQueue], (if onQueue then
        readyEnqueue ({ s with links := m }.setProc p { s.procs p with priority := prio }) p
      else some ({ s with links := m }.setProc p { s.procs p with priority := prio })) = some s' →
      ∃ m prio', s' = { s.setProc p { s.procs p with priority := prio' } with links := m } := by
    intro m onQueue _ hs
    split at hs
    · obtain ⟨m', rfl⟩ := readyEnqueue_links hs
      exact ⟨m', prio, rfl⟩
    · cases hs
      exact ⟨m, prio, rfl⟩
  split at h
  · obtain ⟨t, ht, h⟩ := Option.bind_eq_some_iff.mp h
    obtain ⟨m, rfl⟩ := readyDequeue_links ht
    exact hlast m _ h
  · exact hlast s.links _ h

theorem onCurrent_cases (h : onCurrent s c f = some (s', ev)) :
    (∃ cur, s.current c = some cur ∧ f cur = some (s', ev)) ∨ s.current c = none ∧ s' = s := by
  unfold onCurrent at h
  split at h
  · next cur hcur => exact .inl ⟨cur, hcur, h⟩
  next hcur =>
    cases h
    exact .inr ⟨hcur, rfl⟩

section

variable (h : Undisturbed s) (hl : l.Plain) (hex : exec s l = some (s', ev))
include h hl hex

/-- **Everything else wakes at most.**  A step that takes no process down and wakes no channel
puts at most its own process to sleep; any other change wakes a process. -/
theorem blockedOn_step : Wakes (asleepWith (blockedOn s) (l.sleeper s)) (blockedOn s') := by
  cases l with
  | schedYield => exact (schedYieldLocked_drifts hex).wakes
  | procSleep | schedBlockOn =>
    rcases onCurrent_cases hex with ⟨cur, hcur, hex⟩ | ⟨hcur, rfl⟩
    · obtain ⟨t, ht, hy⟩ := Option.bind_eq_some_iff.mp hex
      have hw := sleep_wakes rfl ht hy
      simp only [Label.sleeper, hcur]
      exact hw
    · simp only [Label.sleeper, hcur]
      exact Wakes.refl _
  | clearChan =>
    rcases onCurrent_cases hex with ⟨cur, hcur, hex⟩ | ⟨-, rfl⟩
    · cases hex
      exact Wakes.setProc fun hb => by simp [h.current_running hcur] at hb
    · exact Wakes.refl _
  | schedWakeChan =>
    obtain ⟨t, ht, heq⟩ := Option.map_eq_some_iff.mp hex
    cases heq
    intro p
    rw [schedWakeChan_blockedOn h ht p]
    split
    exacts [.inr rfl, .inl rfl]
  | schedWakeSleepers =>
    obtain ⟨t, ht, heq⟩ := Option.map_eq_some_iff.mp hex
    cases heq
    exact (wakeSleepers_shifts ht).drifts.wakes
  | procSetPriority =>
    obtain ⟨t, ht, heq⟩ := Option.map_eq_some_iff.mp hex
    cases heq
    obtain ⟨m, prio', rfl⟩ := procSetPriority_eq ht
    exact Wakes.setProc fun hb => ⟨hb, rfl⟩
  | procCreate =>
    simp only [exec, procCreate] at hex
    cases hf : freeSlot s <;> rw [hf] at hex <;> cases hex
    exacts [Wakes.refl _, Wakes.setProc fun hb => ⟨hb, rfl⟩]
  | initChild =>
    simp only [exec] at hex
    split at hex
    · rcases onCurrent_cases hex with ⟨cur, -, hex⟩ | ⟨-, rfl⟩
      · cases hex
        exact Wakes.setProc fun hb => ⟨hb, rfl⟩
      · exact Wakes.refl _
    · cases hex
      exact Wakes.refl _
  | procMakeReady =>
    simp only [exec] at hex
    split at hex
    · obtain ⟨t, ht, heq⟩ := Option.map_eq_some_iff.mp hex
      cases heq
      obtain ⟨m, rfl⟩ := readyEnqueue_links ht
      exact Wakes.setProc fun hb => by cases hb
    · cases hex
      exact Wakes.refl _
  | schedAdoptCurrent =>
    simp only [exec] at hex
    split at hex
    · obtain ⟨t, ht, heq⟩ := Option.map_eq_some_iff.mp hex
      cases heq
      obtain ⟨m, rfl⟩ := readyDequeue_links ht
      exact Wakes.setProc fun hb => by cases hb
    · cases hex
      exact Wakes.refl _
  | contextSaved =>
    simp only [exec] at hex
    split at hex <;> cases hex
    exacts [Wakes.setProc fun hb => ⟨hb, rfl⟩, Wakes.refl _]
  | _ => exact absurd hl id

/-- A process that sleeps after a step slept on the same channel before it, or was put to sleep
by it. -/
theorem asleep_before (hp : blockedOn s' p = some chan) :
    blockedOn s p = some chan ∨ l.sleeper s = some (p, chan) := by
  rcases blockedOn_step h hl hex p with he | he <;> rw [hp] at he
  · cases hsl : l.sleeper s with
    | none =>
      rw [hsl] at he
      exact .inl he.symm
    | some r =>
      rw [hsl, asleepWith, update_apply] at he
      split_ifs at he with hpx
      · cases he
        exact .inr (by rw [hpx])
      · exact .inl he.symm
  · cases he

end

/-- After `sched_wake_chan` nobody sleeps on the channel. -/
theorem not_asleep_of_wake (h : Undisturbed s)
    (hex : exec s (.schedWakeChan c chan) = some (s', ev)) (p : ProcId) :
    blockedOn s' p ≠ some chan := by
  obtain ⟨t, ht, heq⟩ := Option.map_eq_some_iff.mp hex
  cases heq
  intro hp
  rw [schedWakeChan_blockedOn h ht p] at hp
  split at hp
  · cases hp
  · next hne => exact hne hp

/-! ## The scheduler behind a kernel service

A service of the kernel (ports, futexes, `poll`) is a system of its own over the machine: its
threads execute the service's code, block and wake through the scheduler, and everything else the
scheduler does goes on in between. -/

/-- `p` is the user process that CPU `c` executes. -/
structure Executes (s : Machine n) (c : Fin n) (p : ProcId) : Prop where
  act : s.act c = .run
  current : s.current c = some p
  user : (s.procs p).pid ≠ 0

instance (s : Machine n) (c : Fin n) (p : ProcId) : Decidable (Executes s c p) :=
  decidable_of_iff (s.act c = .run ∧ s.current c = some p ∧ (s.procs p).pid ≠ 0)
    ⟨fun h => ⟨h.1, h.2.1, h.2.2⟩, fun h => ⟨h.act, h.current, h.user⟩⟩

/-- A step of the scheduler that is no part of the service's code: it takes no process down, and
no thread that is inside the service starts to sleep elsewhere. -/
structure Background (busy : ProcId → Prop) (s : Machine n) (l : Label n) : Prop where
  plain : l.Plain
  sleeper : ∀ p chan, l.sleeper s = some (p, chan) → ¬ busy p

theorem Undisturbed.step (h : Undisturbed s) (hstep : Step s l s') (hl : l.Plain) :
    Undisturbed s' := by
  obtain ⟨hen, ev, hex⟩ := hstep
  obtain ⟨t, ev', hex', ht, -⟩ := h.exec hl hen
  cases hex.symm.trans hex'
  exact ht

theorem Background.asleep_before {busy : ProcId → Prop} (hb : Background busy s l)
    (h : Undisturbed s) (hstep : Step s l s') (hp : busy p) (hs' : blockedOn s' p = some chan) :
    blockedOn s p = some chan := by
  obtain ⟨-, ev, hex⟩ := hstep
  exact (Sched.asleep_before h hb.plain hex hs').resolve_right fun he => hb.sleeper p chan he hp

/-- Only the blocking thread falls asleep, and on its own channel. -/
theorem Executes.asleep_before (hp : Executes s c p) (h : Undisturbed s)
    (hstep : Step s (.schedBlockOn c chan ms hz tick now) s') (hs' : blockedOn s' x = some chan') :
    blockedOn s x = some chan' ∨ x = p ∧ chan' = chan := by
  obtain ⟨-, ev, hex⟩ := hstep
  have hplain : (Label.schedBlockOn c chan ms hz tick now).Plain := trivial
  rcases Sched.asleep_before h hplain hex hs' with he | he
  · exact .inl he
  simp only [Label.sleeper, hp.current] at he
  cases he
  exact .inr ⟨rfl, rfl⟩

/-- The machine at some point of a run that takes no process down. -/
def Reached (s : Machine n) : Prop :=
  ∃ s₀ ls, Booted s₀ ∧ Run Step (fun _ l => l.Plain) s₀ ls s

theorem Reached.undisturbed (h : Reached s) : Undisturbed s := by
  obtain ⟨s₀, ls, h₀, hrun⟩ := h
  exact hrun.invariant h₀.undisturbed fun _ _ _ ht hl (hstep : Step _ _ _) => ht.step hstep hl

/-- The machine after a step. -/
def Machine.after (s : Machine n) (l : Label n) : Machine n := ((exec s l).map Prod.fst).getD s

/-- A step that can be taken leads there. -/
theorem Undisturbed.step_after (h : Undisturbed s) (hen : enabled s l) (hl : l.Plain) :
    Step s l (s.after l) := by
  obtain ⟨s', ev, hex, -⟩ := h.exec hl hen
  refine ⟨hen, ev, ?_⟩
  simp [Machine.after, hex]

theorem Reached.step (h : Reached s) (hstep : Step s l s') (hl : l.Plain) : Reached s' := by
  obtain ⟨s₀, ls, hboot, hrun⟩ := h
  exact ⟨s₀, ls ++ [l], hboot, hrun.trans (.cons hl hstep .nil)⟩

theorem Executes.step_block (hp : Executes s c p) (h : Undisturbed s) (chan ms hz tick : ℕ)
    (now : ProcId → ℕ) : Step s (.schedBlockOn c chan ms hz tick now)
      (s.after (.schedBlockOn c chan ms hz tick now)) := by
  refine h.step_after ⟨hp.act, ?_⟩ trivial
  unfold userCurrent
  rw [hp.current]
  exact hp.user

theorem Executes.step_wake (hp : Executes s c p) (h : Undisturbed s) (chan : ℕ) :
    Step s (.schedWakeChan c chan) (s.after (.schedWakeChan c chan)) :=
  h.step_after hp.act trivial

/-- Two CPUs that execute the processes in slots 2 and 3, which share the page tables `5`. -/
@[irreducible] def twoThreads : Machine 2 :=
  let now : ProcId → ℕ := fun _ => 0
  ([.procCreate 0 5 6, .procMakeReady 0, .procCreate 0 5 7, .procMakeReady 0, .schedYield 0 now,
    .contextSaved 0, .schedYield 1 now, .contextSaved 1] : List (Label 2)).foldl Machine.after
    (boot 2 (by decide) 1 fun _ => 9)

theorem twoThreads_reached : Reached twoThreads := by
  unfold twoThreads
  refine ⟨boot 2 (by decide) 1 fun _ => 9, [.procCreate 0 5 6, .procMakeReady 0, .procCreate 0 5 7,
    .procMakeReady 0, .schedYield 0 fun _ => 0, .contextSaved 0, .schedYield 1 fun _ => 0,
    .contextSaved 1], boot_booted _ _ _, ?_⟩
  exact Run.cons trivial ⟨rfl, _, rfl⟩ <| Run.cons trivial ⟨rfl, _, rfl⟩ <|
    Run.cons trivial ⟨rfl, _, rfl⟩ <| Run.cons trivial ⟨rfl, _, rfl⟩ <|
    Run.cons trivial ⟨.inl rfl, _, rfl⟩ <| Run.cons trivial ⟨rfl, _, rfl⟩ <|
    Run.cons trivial ⟨.inl rfl, _, rfl⟩ <| Run.cons trivial ⟨rfl, _, rfl⟩ .nil

theorem twoThreads_left : Executes twoThreads 0 2 := by decide +kernel

theorem twoThreads_right : Executes twoThreads 1 3 := by decide +kernel

/-- **A wake reaches the sleepers.**  `sched_wake_chan` walks the ready queues only; in every state
of a run that takes no process down it ends the sleep of all processes that are blocked on the
channel, and of no other. -/
theorem wake_exact (h : Reached s) (hstep : Step s (.schedWakeChan c chan) s') (p : ProcId) :
    blockedOn s' p = if blockedOn s p = some chan then none else blockedOn s p := by
  obtain ⟨-, ev, hex⟩ := hstep
  obtain ⟨t, ht, heq⟩ := Option.map_eq_some_iff.mp hex
  cases heq
  exact schedWakeChan_blockedOn h.undisturbed ht p

/-- Process 2 sleeps on channel 8, and process 3 goes to sleep on channel 9. -/
def oneSleeper : Machine 2 :=
  (twoThreads.after (.schedBlockOn 0 8 0 1000 0 fun _ => 0)).after (.contextSaved 0)

def twoSleepers : Machine 2 := oneSleeper.after (.schedBlockOn 1 9 0 1000 0 fun _ => 0)

theorem twoSleepers_reached : Reached twoSleepers := by
  have hfirst := twoThreads_reached.step
    (twoThreads_left.step_block twoThreads_reached.undisturbed 8 0 1000 0 fun _ => 0) trivial
  have hsaved : Reached oneSleeper := hfirst.step (l := .contextSaved 0)
    (hfirst.undisturbed.step_after (by unfold enabled; decide +kernel) trivial) trivial
  have hright : Executes oneSleeper 1 3 := by decide +kernel
  exact hsaved.step (hright.step_block hsaved.undisturbed 9 0 1000 0 fun _ => 0) trivial

/-- The wake of channel 8 ends the sleep of process 2, and process 3 sleeps on. -/
theorem twoSleepers_wake : blockedOn twoSleepers 2 = some 8 ∧ blockedOn twoSleepers 3 = some 9 ∧
    blockedOn (twoSleepers.after (.schedWakeChan 0 8)) 2 = none ∧
    blockedOn (twoSleepers.after (.schedWakeChan 0 8)) 3 = some 9 := by
  have hsleep : blockedOn twoSleepers 2 = some 8 ∧ blockedOn twoSleepers 3 = some 9 := by
    decide +kernel
  have hstep := twoSleepers_reached.undisturbed.step_after (l := .schedWakeChan 0 8)
    (show twoSleepers.act 0 = .run by decide +kernel) trivial
  have hwake := wake_exact twoSleepers_reached hstep
  refine ⟨hsleep.1, hsleep.2, ?_, ?_⟩
  · rw [hwake, if_pos hsleep.1]
  · rw [hwake, if_neg (by rw [hsleep.2]; decide), hsleep.2]

end Xos.Sched
