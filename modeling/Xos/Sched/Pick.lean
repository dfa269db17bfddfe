import Xos.Sched.Roles

/-!
# What a scheduling section does

`__sched_yield_locked` from its pick on, started in any state of the invariant in
which the calling CPU holds no other process in its hands.

* **the waking loops** keep the invariant and only turn linked `BLOCKED` processes
  `READY` — `wakeAll_woken`, `Woken.inv`;
* **the queue scan** takes one `READY`, saved process out of its queue —
  `pickQueued_spec`;
* **the recovery scan** finds nothing as long as no `READY` process is in the hands
  of a `proc_kill` — `stranded_spec`;
* **the switch** gives the picked process the CPU — `pickAndSwitch_spec`.
-/

namespace Xos.Sched

open Xos.Lib Function

variable {n : ℕ} {lock : Option (Fin n)} {s : Machine n} {L : Prio → List ProcId}
  {body : Machine n → ProcId → Machine n} {s' : Machine n} {p : ProcId} {q : Prio}
  {m : Links Prio ProcId} {x : ProcId}

/-! ## Waking -/

theorem Fits.wake (h : Fits lock v) (hb : v.proc.state = .blocked) :
    Fits lock { v with proc := { v.proc with
      state := .ready, sleepUntil := sleep, waitChan := chan } } := by
  have hw : (ProcState.ready).waits := .inl rfl
  cases h with
  | queued o off user _ exiting pid linked saved =>
    exact .queued o off user hw exiting pid linked ⟨saved.flag, saved.hold⟩
  | yielding c locked current user _ exiting pid linked saved =>
    exact .yielding c locked current user hw exiting pid linked ⟨saved.flag, saved.hold⟩
  | doomed aside _ exiting pid switching killer hold =>
    exact .doomed aside.keep hw exiting pid switching killer hold
  | running _ _ _ _ _ state => simp [hb] at state
  | free _ state | fresh _ _ state | idling _ _ _ _ _ state | dying _ _ state
  | gone _ _ state => simp [hb] at state

/-- What a loop over the queues `l` may do to the machine. -/
structure Woken (l : List ProcId) (s s' : Machine n) : Prop where
  links : s'.links = s.links
  current : s'.current = s.current
  idle : s'.idle = s.idle
  act : s'.act = s.act
  procs : ∀ p, s'.procs p = s.procs p ∨ p ∈ l ∧ (s.procs p).state = .blocked ∧
    ∃ sleep chan, s'.procs p =
      { s.procs p with state := .ready, sleepUntil := sleep, waitChan := chan }

theorem Woken.refl (s : Machine n) : Woken [] s s :=
  ⟨rfl, rfl, rfl, rfl, fun _ => .inl rfl⟩

/-- The two loop bodies of the scheduler do nothing, or wake the process they look
at. -/
def WakesOne (body : Machine n → ProcId → Machine n) : Prop :=
  ∀ s p, body s p = s ∨ (s.procs p).state = .blocked ∧ ∃ sleep chan, body s p =
    s.setProc p { s.procs p with state := .ready, sleepUntil := sleep, waitChan := chan }

theorem wakeExpired_wakesOne (now : ProcId → ℕ) :
    WakesOne (wakeExpired (n := n) now) := by
  intro s p
  unfold wakeExpired
  split
  · rename_i h; exact .inr ⟨h.1, 0, (s.procs p).waitChan, rfl⟩
  · exact .inl rfl

theorem wakeOnChan_wakesOne (chan : ℕ) : WakesOne (wakeOnChan (n := n) chan) := by
  intro s p
  unfold wakeOnChan
  split
  · rename_i h; exact .inr ⟨h.1, 0, 0, rfl⟩
  · exact .inl rfl

theorem WakesOne.links (hb : WakesOne body) (s : Machine n) (p : ProcId) :
    (body s p).links = s.links := by
  rcases hb s p with h | ⟨-, _, _, h⟩ <;> simp [h]

theorem WakesOne.wokenOne (hb : WakesOne body) (s : Machine n) (p : ProcId) :
    Woken [p] s (body s p) := by
  rcases hb s p with hs | ⟨hst, sleep, chan, hs⟩ <;> rw [hs]
  · exact ⟨rfl, rfl, rfl, rfl, fun _ => .inl rfl⟩
  refine ⟨rfl, rfl, rfl, rfl, fun x => ?_⟩
  by_cases hx : x = p
  · exact .inr ⟨by simp [hx], hx ▸ hst, sleep, chan, by simp [hx]⟩
  · exact .inl (by simp [hx])

theorem Woken.trans {l₁ l₂ : List ProcId} {s₁ s₂ s₃ : Machine n} (h₁ : Woken l₁ s₁ s₂)
    (h₂ : Woken l₂ s₂ s₃) : Woken (l₁ ++ l₂) s₁ s₃ := by
  refine ⟨h₂.links.trans h₁.links, h₂.current.trans h₁.current, h₂.idle.trans h₁.idle,
    h₂.act.trans h₁.act, fun p => ?_⟩
  rcases h₁.procs p with e₁ | ⟨m₁, b₁, sl, ch, e₁⟩
  · rcases h₂.procs p with e₂ | ⟨m₂, b₂, sl, ch, e₂⟩
    · exact .inl (e₂.trans e₁)
    · rw [e₁] at b₂ e₂
      exact .inr ⟨by simp [m₂], b₂, sl, ch, e₂⟩
  rcases h₂.procs p with e₂ | ⟨-, b₂, -⟩
  · exact .inr ⟨by simp [m₁], b₁, sl, ch, e₂.trans e₁⟩
  · -- a process that was just woken is not `BLOCKED`
    rw [e₁] at b₂; cases b₂

theorem WakesOne.woken (hb : WakesOne body) :
    ∀ (l : List ProcId) (s : Machine n), Woken l s (l.foldl body s) := by
  intro l
  induction l with
  | nil => exact Woken.refl
  | cons p l ih => intro s; exact (hb.wokenOne s p).trans (ih (body s p))

/-- Waking keeps the roles. -/
theorem Woken.inv (hw : Woken l s s') (h : Inv lock s L) :
    Inv lock s' L := by
  have hkeep : ∀ x, (s'.procs x).pid = (s.procs x).pid ∧
      (s'.procs x).priority = (s.procs x).priority ∧
      (s'.procs x).parentPid = (s.procs x).parentPid := by
    intro x
    rcases hw.procs x with he | ⟨-, -, _, _, he⟩ <;> rw [he] <;> exact ⟨rfl, rfl, rfl⟩
  refine ⟨hw.links ▸ h.queues, fun x => ?_, fun x => ?_, fun x => ?_, hw.current ▸ h.current,
    hw.idle ▸ h.idle, fun c x hx => ?_⟩
  · have hview : view s' L x = { view s L x with proc := s'.procs x } := by
      simp [view, hw.current, hw.idle, hw.act]
    rw [hview]
    rcases hw.procs x with he | ⟨-, hb, _, _, he⟩ <;> rw [he]
    exacts [h.fits x, (h.fits x).wake hb]
  · rw [(hkeep x).2.1]; exact h.prio x
  · rw [(hkeep x).1]; exact h.pids x
  · rw [hw.current, (hkeep x).2.2]
    simp only [(hkeep _).1]
    exact h.parent c x (hw.act ▸ hx)

/-- **A waking loop over the queues** comes back and wakes linked processes only. -/
theorem wakeAll_woken (hb : WakesOne body) (h : Queues s.links L) :
    ∃ s', eachLinked s body = some s' ∧ Woken (L 0 ++ L 1 ++ L 2) s s' :=
  ⟨_, eachLinked_spec h hb.links, hb.woken _ s⟩

theorem wakeAll_spec (hb : WakesOne body) (h : Inv lock s L) :
    ∃ s', eachLinked s body = some s' ∧ Inv lock s' L ∧ Woken (L 0 ++ L 1 ++ L 2) s s' := by
  obtain ⟨s', hs', hw⟩ := wakeAll_woken hb h.queues
  exact ⟨s', hs', hw.inv h, hw⟩

theorem wakeJoiner_spec (chan : Option ℕ) (hq : Queues s.links L) :
    ∃ s', wakeJoiner s chan = some s' ∧ Woken (L 0 ++ L 1 ++ L 2) s s' := by
  cases chan with
  | none => exact ⟨s, rfl, rfl, rfl, rfl, rfl, fun _ => .inl rfl⟩
  | some chan => exact wakeAll_woken (wakeOnChan_wakesOne chan) hq

theorem mem_queues : p ∈ L 0 ++ L 1 ++ L 2 ↔ ∃ q, p ∈ L q := by
  simp [Fin.exists_fin_succ]

/-! ## Picking -/

/-- The queue scan: nothing pickable in the queues `qs`, or the first pickable
process of the first queue that has one. -/
theorem pickQueued_spec (h : Queues s.links L) : ∀ qs : List Prio,
    (pickQueued s qs = some none ∧ ∀ q ∈ qs, ∀ p ∈ L q, pickable s p = false) ∨
    ∃ p q m, q ∈ qs ∧ p ∈ L q ∧ pickable s p = true ∧
      pickQueued s qs = some (some ({ s with links := m }, p)) ∧
      Queues m (fun q => (L q).erase p) := by
  intro qs
  induction qs with
  | nil => exact .inl ⟨rfl, by simp⟩
  | cons q qs ih =>
    rcases scan_chain (pickable s) (h.chain q) (length_lt_queueFuel (h.nodup q)) with
      ⟨hs, hnone⟩ | ⟨l₁, p, l₂, hl, hl₁, hp, hs⟩
    · rcases ih with ⟨hrest, hnone'⟩ | ⟨p, q', m, hq', hpq, hpick, hrest, hm⟩
      · exact .inl ⟨by simp [pickQueued, hs, hrest], List.forall_mem_cons.2 ⟨hnone, hnone'⟩⟩
      · exact .inr ⟨p, q', m, List.mem_cons_of_mem _ hq', hpq, hpick,
          by simp [pickQueued, hs, hrest], hm⟩
    · have hpq : p ∈ L q := by rw [hl]; simp
      exact .inr ⟨p, q, unlinkAt s.links (endCell (.head q) l₁) p, List.mem_cons_self .., hpq,
        hp, by simp [pickQueued, hs], h.unlink_erase hl⟩

theorem linkedIn_spec (h : Queues s.links L) (p : ProcId) : ∀ {qs : List Prio} {q : Prio},
    q ∈ qs → p ∈ L q → linkedIn s p qs = some true := by
  intro qs
  induction qs with
  | nil => intro q hq; simp at hq
  | cons q' qs ih =>
    intro q hq hp
    rcases scan_chain (fun x => x == p) (h.chain q') (length_lt_queueFuel (h.nodup q')) with
      ⟨hs, hnone⟩ | ⟨_, _, _, _, _, _, hs⟩
    · rcases List.mem_cons.1 hq with rfl | hq
      · exact absurd (hnone p hp) (by simp)
      · simp [linkedIn, hs, ih hq hp]
    · simp [linkedIn, hs]

/-- No process that a `proc_kill` has unlinked and not yet claimed is `READY`. -/
def Calm (s : Machine n) : Prop :=
  ∀ c p, s.act c = .enterExit p .ret → (s.procs p).state ≠ .ready

theorem pickable_iff :
    pickable s p = true ↔ (s.procs p).state = .ready ∧ (s.procs p).switching = false := by
  simp [pickable]

/-- **The recovery scan finds nothing**: a `READY` process is linked. -/
theorem stranded_spec (h : Inv lock s L) (hcalm : Calm s) : stranded s = some none := by
  have hlinked : ∀ p, pickable s p = true → linkedIn s p allQueues = some true := by
    intro p hp
    have hst := (pickable_iff.1 hp).1
    have hp' := h.linked_of_waits (.inl hst) (fun c hc => hcalm c p hc hst)
    exact linkedIn_spec h.queues p (mem_allQueues _) hp'
  have hgo : ∀ ps, strandedIn s ps = some none := by
    intro ps
    induction ps with
    | nil => rfl
    | cons p ps ih =>
      unfold strandedIn
      split_ifs with hp
      · rw [hlinked p hp.1]; exact ih
      · exact ih
  exact hgo _

/-! ## Switching -/

/-- What a scheduling section on CPU `c`, entered with `cur` current, may do. -/
structure Section (c : Fin n) (cur : ProcId) (L : Prio → List ProcId) (s s' : Machine n) :
    Prop where
  act : s'.act = update s.act c .run ∨ s'.act = update s.act c (.saving cur)
  others : ∀ c', c' ≠ c → s'.current c' = s.current c'
  idle : s'.idle = s.idle
  state : ∀ p, (s'.procs p).state = (s.procs p).state ∨
    (p = cur ∨ ∃ q, p ∈ L q) ∧ (s.procs p).state ≠ .dead ∧ (s'.procs p).state ≠ .dead
  current : ∀ p, s'.current c = some p → p = cur ∨ (s'.procs p).state = .running
  keeps : ∀ p, (s'.procs p).pid = (s.procs p).pid ∧
    (s'.procs p).priority = (s.procs p).priority ∧
    (s'.procs p).parentPid = (s.procs p).parentPid

/-- The conditions of `Inv` that are not about one process survive a section. -/
theorem Inv.of_section (h : Inv lock s L) (hsec : Section c cur L₀ s s') (hq : Queues s'.links L')
    (hcur : ∃ p, s'.current c = some p) (hfits : ∀ p, Fits none (view s' L' p)) :
    Inv none s' L' where
  queues := hq
  fits := hfits
  prio p := by rw [(hsec.keeps p).2.1]; exact h.prio p
  pids p := by rw [(hsec.keeps p).1]; exact h.pids p
  current c' := by
    by_cases hc : c' = c
    · subst hc; exact hcur
    · rw [hsec.others c' hc]; exact h.current c'
  idle c' := by rw [hsec.idle]; exact h.idle c'
  parent c' p hp := by
    have hc : c' ≠ c := by
      rintro rfl
      rcases hsec.act with ha | ha <;> simp [ha] at hp
    have hp' : s.act c' = .creating p := by
      rcases hsec.act with ha | ha <;> simpa [ha, hc] using hp
    rw [(hsec.keeps p).2.2, hsec.others c' hc]
    simp only [(hsec.keeps _).1]
    exact h.parent c' p hp'

section HandOver

variable {c : Fin n} {cur next : ProcId}

theorem view_handOver_next (hne : next ≠ cur) (hact : (s.act c).on next = none) :
    view (handOver s c cur next) L next =
      { view s L next with
        proc := { s.procs next with state := .running }
        current := fun c' => c' = c ∨ s.current c' = some next } := by
  ext c'
  · simp [view, handOver, hne]
  · rfl
  · by_cases hc : c' = c <;> simp [view, handOver, hc]
  · rfl
  · by_cases hc : c' = c <;> simp [view, handOver, hc, hne.symm, hact]

theorem view_handOver_cur (hne : next ≠ cur) :
    view (handOver s c cur next) L cur =
      { view s L cur with
        proc := { s.procs cur with switching := true }
        current := fun c' => c' ≠ c ∧ s.current c' = some cur
        hold := update (view s L cur).hold c (some .saving) } := by
  ext c'
  · simp [view, handOver, hne.symm]
  · rfl
  · by_cases hc : c' = c <;> simp [view, handOver, hc, hne]
  · rfl
  · by_cases hc : c' = c <;> simp [view, handOver, hc]

theorem view_handOver_of_ne (hn : p ≠ next) (hp : p ≠ cur) (hcur : s.current c = some cur)
    (hact : (s.act c).on p = none) :
    view (handOver s c cur next) L p = view s L p := by
  refine view_congr ?_ (fun _ => Iff.rfl) (fun c' => ?_) rfl (fun c' => ?_)
  · simp [handOver, hn, hp]
  · by_cases hc : c' = c <;> simp [handOver, hc, hcur, hn.symm, hp.symm]
  · by_cases hc : c' = c <;> simp [handOver, hc, hp.symm, hact]

theorem Section.handOver (hstate : (s.procs next).state = .running ∨
      (∃ q, next ∈ L q) ∧ (s.procs next).state = .ready) :
    Section c cur L s (handOver s c cur next) where
  act := .inr (by simp [Sched.handOver])
  others c' hc := by simp [Sched.handOver, hc]
  idle := rfl
  state p := by
    by_cases hp : p = next
    · subst hp
      rcases hstate with hr | ⟨hq, hr⟩
      · exact .inl (by by_cases hc : p = cur <;> simp_all [Sched.handOver])
      · exact .inr ⟨.inr hq, by simp [hr], by
          by_cases hc : p = cur <;> simp [Sched.handOver, hc]⟩
    · exact .inl (by by_cases hc : p = cur <;> simp_all [Sched.handOver])
  current p hp := by
    by_cases hc : next = cur
    · left; simpa [Sched.handOver, hc] using hp.symm
    · obtain rfl : next = p := by simpa [Sched.handOver] using hp
      simp [Sched.handOver, hc]
  keeps p := by
    by_cases hc : p = cur <;> by_cases hp : p = next <;> simp_all [Sched.handOver]

end HandOver

/-! ### The roles around a switch -/

section SwitchRoles

variable {c : Fin n} {v : View n}

/-- The process that gives up the CPU. -/
theorem Fits.giveUp (h : Fits (some c) v) (hc : v.current c)
    (hr : v.proc.state ≠ .running ∨ v.proc.pid = 0) :
    Fits none { v with
      proc := { v.proc with switching := true }
      current := fun c' => c' ≠ c ∧ v.current c'
      hold := update v.hold c (some .saving) } := by
  cases h with
  | yielding c₀ locked current user state exiting pid linked saved =>
    cases locked
    refine .queued (some c) (fun c' hc' => hc'.1 ((current c').1 hc'.2)) user state exiting pid
      linked ⟨rfl, fun c' => ?_⟩
    by_cases hc' : c' = c
    · simp [hc']
    · simp [hc', Ne.symm hc', saved.hold c']
  | running c₀ current user unlinked pid state switching others =>
    obtain rfl := (current c).1 hc
    have hdead : v.proc.state = .dead ∧ v.proc.reaped = false :=
      state.resolve_left fun h => hr.resolve_right pid h.1
    refine .gone (some c) ⟨fun c' hc' => hc'.1 ((current c').1 hc'.2), unlinked, user⟩
      hdead.1 hdead.2 pid rfl (fun c' => ?_)
    by_cases hc' : c' = c
    · simp [hc']
    · simp [hc', Ne.symm hc', others c' hc']
  | idling c₀ idle current unlinked pid state exiting o mine away saved =>
    obtain rfl := current c hc
    refine .idling c idle (fun c' hc' => current c' hc'.2) unlinked pid state exiting (some c)
      (fun c' hc' => (Option.some.inj hc').symm) (fun hc' => absurd rfl hc'.1)
      ⟨rfl, fun c' => ?_⟩
    obtain rfl := away hc
    by_cases hc' : c' = c
    · simp [hc']
    · simp [hc', Ne.symm hc', saved.hold c']
  | free aside | fresh _ aside | doomed aside | dying _ aside | gone _ aside =>
    exact absurd hc (aside.off c)
  | queued _ off => exact absurd hc (off c)

/-- The process the queue scan took out of its queue gets the CPU. -/
theorem Fits.takeOn (h : Fits (some c) v) (hq : v.linked q) (hs : v.proc.switching = false)
    (hcur : ∀ c', v.current c' → c' = c) :
    Fits none { v with
      proc := { v.proc with state := .running }
      linked := fun _ => False
      current := fun c' => c' = c ∨ v.current c' } := by
  have hcur' : ∀ c', c' = c ∨ v.current c' ↔ c' = c :=
    fun c' => ⟨fun hc' => hc'.elim id (hcur c'), .inl⟩
  cases h with
  | queued o off user state exiting pid linked saved =>
    obtain rfl : o = none := by simpa using saved.flag.symm.trans hs
    exact .running c hcur' user (fun _ => id) pid (.inl ⟨rfl, exiting⟩) hs
      (fun c' _ => by simpa using saved.hold c') (.inl (by simpa using saved.hold c))
  | yielding c₀ locked current user state exiting pid linked saved =>
    exact .running c hcur' user (fun _ => id) pid (.inl ⟨rfl, exiting⟩) hs
      (fun c' _ => by simpa using saved.hold c') (.inl (by simpa using saved.hold c))
  | free aside | fresh _ aside | doomed aside | dying _ aside | gone _ aside =>
    exact absurd hq (aside.unlinked q)
  | running _ _ _ unlinked | idling _ _ _ unlinked => exact absurd hq (unlinked q)

/-- The idle process gets the CPU. -/
theorem Fits.takeOnIdle (h : Fits lock v) (hi : v.idle c) (hh : v.hold c = none) :
    Fits none { v with
      proc := { v.proc with state := .running }
      current := fun c' => c' = c ∨ v.current c' } := by
  cases h with
  | idling c₀ idle current unlinked pid state exiting o mine away saved =>
    obtain rfl := (idle c).1 hi
    obtain rfl : o = none := by
      cases o with
      | none => rfl
      | some c' =>
        obtain rfl := mine c' rfl
        simpa [hh] using saved.hold c'
    exact .idling c idle (fun c' hc' => hc'.elim id (current c')) unlinked pid rfl exiting none
      mine (fun _ => rfl) ⟨saved.flag, saved.hold⟩
  | free aside | fresh _ aside | doomed aside | dying _ aside | gone _ aside =>
    exact absurd hi (aside.user c)
  | queued _ _ user | yielding _ _ _ user | running _ _ user => exact absurd hi (user c)

/-- A running user process goes back to its queue, still on its CPU. -/
theorem Fits.requeue (h : Fits lock v) (hr : v.proc.state = .running) (hc : v.current c)
    (hh : v.hold c = none) (hpid : v.proc.pid ≠ 0) (hst : st.waits) :
    Fits (some c) { v with
      proc := { v.proc with state := st, sleepUntil := sleep, waitChan := chan }
      linked := fun q => q = queueOf v.proc.priority } := by
  cases h with
  | running c₀ current user unlinked pid state switching others =>
    obtain rfl := (current c).1 hc
    have hexit : v.proc.exiting = false := by simpa [hr] using state
    refine .yielding c rfl current user hst hexit pid (fun _ => Iff.rfl) ⟨switching, fun c' => ?_⟩
    by_cases hc' : c' = c
    · simpa [hc'] using hh
    · simpa using others c' hc'
  | idling _ _ _ _ pid => exact absurd pid hpid
  | free aside | fresh _ aside | doomed aside | dying _ aside | gone _ aside =>
    exact absurd hc (aside.off c)
  | queued _ off => exact absurd hc (off c)
  | yielding _ _ _ _ state => simp [hr, ProcState.waits] at state

end SwitchRoles

/-! ### Views under the list routines -/

theorem view_unlink_of_ne (h : p ≠ x) :
    view { s with links := m } (fun q => (L q).erase x) p = view s L p :=
  view_congr rfl (fun _ => List.mem_erase_of_ne h) (fun _ => Iff.rfl) rfl (fun _ => rfl)

theorem view_unlink_self (hL : ∀ q, (L q).Nodup) (x : ProcId) :
    view { s with links := m } (fun q => (L q).erase x) x =
      { view s L x with linked := fun _ => False } := by
  ext q
  all_goals try rfl
  simp [view, (hL q).not_mem_erase]

theorem view_append_of_ne (h : p ≠ x) :
    view { s with links := m } (update L q (L q ++ [x])) p = view s L p := by
  refine view_congr rfl (fun q' => ?_) (fun _ => Iff.rfl) rfl (fun _ => rfl)
  by_cases hq : q' = q <;> simp [hq, h]

theorem view_append_self (hx : ∀ q, x ∉ L q) :
    view { s with links := m } (update L q (L q ++ [x])) x =
      { view s L x with linked := fun q' => q' = q } := by
  ext q'
  all_goals try rfl
  by_cases hq : q' = q <;> simp [view, hq, hx q']

/-! ### The switch -/

section Switch

variable {c : Fin n} {cur : ProcId} {next : ProcId}

/-- CPU `c` is busy with no process. -/
def FreeHands (s : Machine n) (c : Fin n) : Prop := ∀ p, (s.act c).on p = none

theorem Section.setRun (c : Fin n) (cur : ProcId) (L : Prio → List ProcId)
    (hcur : s.current c = some cur) : Section c cur L s (s.setAct c .run) where
  act := .inl rfl
  others _ _ := rfl
  idle := rfl
  state _ := .inl rfl
  current _ hp := .inl (Option.some.inj (hp.symm.trans hcur))
  keeps _ := ⟨rfl, rfl, rfl⟩

theorem view_setRun (h : FreeHands s c) (L : Prio → List ProcId) (p : ProcId) :
    view (s.setAct c .run) L p = view s L p :=
  view_setAct_of_ne (by rw [h p]; rfl)

/-- CPU `c` is about to be handed to `next`, which is already out of its queue. -/
structure Picked (c : Fin n) (next : ProcId) (s : Machine n) (L : Prio → List ProcId) :
    Prop where
  queues : Queues s.links L
  others : ∀ p, p ≠ next → Fits (some c) (view s L p)
  unlinked : ∀ q, next ∉ L q
  next : Fits none { view s L next with
    proc := { s.procs next with state := .running }
    current := fun c' => c' = c ∨ s.current c' = some next }

theorem Picked.of_idle (h : Inv (some c) s L) (hi : s.idle c = some i) (hfree : FreeHands s c) :
    Picked c i s L where
  queues := h.queues
  others p _ := h.fits p
  unlinked := ((h.fits i).of_idle hi).2.2
  next := (h.fits i).takeOnIdle hi (hfree i)

theorem Picked.of_queued (h : Inv (some c) s L) (hq : next ∈ L q) (hpick : pickable s next = true)
    (hm : Queues m (fun q => (L q).erase next)) :
    Picked c next { s with links := m } (fun q => (L q).erase next) where
  queues := hm
  others p hp := by rw [view_unlink_of_ne hp]; exact h.fits p
  unlinked q := (h.queues.nodup q).not_mem_erase
  next := by
    rw [view_unlink_self h.queues.nodup]
    obtain ⟨-, -, -, -, hoff⟩ := (h.fits next).of_linked hq
    exact (h.fits next).takeOn hq (pickable_iff.1 hpick).2
      (fun c' hc' => (Option.some.inj (hoff c' hc')).symm)

/-- A running user process is filed under `READY` before it gives up the CPU. -/
theorem Picked.requeue (h : Picked c next s L) (hcur : s.current c = some cur)
    (hfree : FreeHands s c) (hne : next ≠ cur) (hrun : (s.procs cur).state = .running)
    (hpid : (s.procs cur).pid ≠ 0) :
    ∃ m L', readyEnqueue (s.setState cur .ready) cur =
        some { s.setState cur .ready with links := m } ∧
      Picked c next { s.setState cur .ready with links := m } L' := by
  have hunl : ∀ q, cur ∉ L q := by
    intro q hq
    obtain ⟨hw, -⟩ := (h.others cur hne.symm).of_linked hq
    rcases hw with hw | hw <;> exact absurd (hrun.symm.trans hw) (by decide)
  obtain ⟨m, henq, hm⟩ := readyEnqueue_spec (s := s.setState cur .ready) h.queues hunl
  refine ⟨m, _, henq, hm, fun p hp => ?_, fun q hq => ?_, ?_⟩
  · by_cases hp' : p = cur
    · subst hp'
      rw [view_append_self hunl, Machine.setState, view_setProc_self]
      simp only [Machine.setProc_procs, update_self]
      exact (h.others p hp).requeue hrun hcur (hfree p) hpid (.inl rfl)
    · rw [view_append_of_ne hp', Machine.setState, view_setProc_of_ne hp']
      exact h.others p hp
  · rw [update_apply] at hq
    split at hq
    · rcases List.mem_append.1 hq with hq | hq
      exacts [h.unlinked _ hq, hne (List.mem_singleton.1 hq)]
    · exact h.unlinked q hq
  · rw [view_append_of_ne hne, Machine.setState, view_setProc_of_ne hne]
    simpa [hne] using h.next

/-- The hand-over settles both processes. -/
theorem Picked.handOver (h₀ : Inv lock s₀ L₀) (hsec : Section c cur L₁ s₀ (handOver s c cur next))
    (h : Picked c next s L) (hcur : s.current c = some cur) (hfree : FreeHands s c)
    (hne : next ≠ cur) (hr : (s.procs cur).state ≠ .running ∨ (s.procs cur).pid = 0) :
    Inv none (Sched.handOver s c cur next) L := by
  refine h₀.of_section hsec (h.queues.store_next h.unlinked none)
    ⟨next, by simp [Sched.handOver]⟩ (fun p => ?_)
  by_cases hp : p = next
  · subst hp
    rw [view_handOver_next hne (hfree p)]
    exact h.next
  by_cases hp' : p = cur
  · subst hp'
    rw [view_handOver_cur hne]
    exact (h.others p hp).giveUp hcur hr
  · rw [view_handOver_of_ne hp hp' hcur (hfree p)]
    exact (h.others p hp).outOfSection (fun hc => hp' (Option.some.inj (hc.symm.trans hcur)))

section

variable (h : Inv (some c) s L) (hcur : s.current c = some cur) (hfree : FreeHands s c)
include h hcur hfree

/-- The pick came back with the current process because nothing else is ready. -/
theorem switchFrom_stay (hnone : ∀ q, ∀ p ∈ L q, pickable s p = false) :
    ∃ s', switchFrom s c cur cur = some s' ∧ Inv none s' L ∧ Section c cur L s s' := by
  rcases (h.fits cur).current_cases hcur with ⟨hrun, hcurOk⟩ | ⟨hpid, hrun, hready⟩
  · -- it runs, and goes on
    replace hrun : (s.procs cur).state = .running := hrun
    have hsec := Section.setRun c cur L hcur
    refine ⟨s.setAct c .run, by simp [switchFrom, hrun],
      h.of_section hsec h.queues ⟨cur, hcur⟩ (fun p => ?_), hsec⟩
    rw [view_setRun hfree]
    by_cases hp : p = cur
    · subst hp; exact hcurOk
    · exact (h.fits p).outOfSection (fun hc => hp (Option.some.inj (hc.symm.trans hcur)))
  -- it cannot go on, and makes way for the idle process
  replace hrun : (s.procs cur).state ≠ .running := hrun
  replace hpid : (s.procs cur).pid ≠ 0 := hpid
  have hready' : (s.procs cur).state ≠ .ready := by
    intro hr
    obtain ⟨⟨q, hq⟩, hsw⟩ := hready hr
    simpa [pickable_iff.2 ⟨hr, hsw⟩] using hnone q cur hq
  obtain ⟨i, hi⟩ := h.idle c
  obtain ⟨hirun, hipid, -⟩ := (h.fits i).of_idle hi
  have hne : i ≠ cur := by rintro rfl; exact hpid hipid
  have hsec : Section c cur L s (handOver s c cur i) := Section.handOver (.inl hirun)
  exact ⟨handOver s c cur i, by simp [switchFrom, hpid, hrun, hready', hi, hne],
    (Picked.of_idle h hi hfree).handOver h hsec hcur hfree hne (.inl hrun), hsec⟩

/-- The queue scan came back with the current process itself, which was woken in the
meantime. -/
theorem switchFrom_self (hq : cur ∈ L q) (hpick : pickable s cur = true)
    (hm : Queues m (fun q => (L q).erase cur)) :
    ∃ s' L', switchFrom { s with links := m } c cur cur = some s' ∧ Inv none s' L' ∧
      Section c cur L s s' := by
  obtain ⟨hst, -⟩ := pickable_iff.1 hpick
  have hpid : (s.procs cur).pid ≠ 0 := ((h.fits cur).of_linked hq).2.1
  have hpk := Picked.of_queued h hq hpick hm
  obtain ⟨m', hdeq, hm'⟩ := readyDequeue_spec (s := { s with links := m }) hm cur
  have hL : (fun q => ((L q).erase cur).erase cur) = fun q => (L q).erase cur := by
    funext q'
    exact List.erase_of_not_mem (hpk.unlinked q')
  rw [hL] at hm'
  let s₁ : Machine n := ({ s with links := m' } : Machine n).setState cur .running
  have hs₁ : s₁ = ({ s with links := m' } : Machine n).setProc cur
    { s.procs cur with state := .running } := rfl
  have hsec : Section c cur L s (s₁.setAct c .run) :=
    { act := .inl rfl
      others := fun _ _ => rfl
      idle := rfl
      state := fun p => by
        by_cases hp : p = cur
        · exact .inr ⟨.inl hp, by simp [hp, hst], by simp [s₁, hp]⟩
        · left; simp [s₁, hp]
      current := fun p hp => .inl (Option.some.inj (hp.symm.trans hcur))
      keeps := fun p => by by_cases hp : p = cur <;> simp [s₁, hp] }
  refine ⟨s₁.setAct c .run, _, ?_, h.of_section hsec hm' ⟨cur, hcur⟩ (fun p => ?_), hsec⟩
  · simp [switchFrom, hst, hpid, hdeq, s₁]
  · rw [view_setRun (s := s₁) hfree]
    by_cases hp : p = cur
    · subst hp
      have hown : (fun c' => c' = c ∨ s.current c' = some p) = fun c' => s.current c' = some p := by
        funext c'
        exact propext ⟨fun hc => hc.elim (fun he => he ▸ hcur) id, .inr⟩
      have hnext := hpk.next
      rw [show (fun c' => c' = c ∨ ({ s with links := m } : Machine n).current c' = some p) =
        fun c' => s.current c' = some p from hown] at hnext
      rw [hs₁, view_setProc_self]
      exact hnext
    · rw [hs₁, view_setProc_of_ne hp]
      exact (hpk.others p hp).outOfSection
        (fun hc => hp (Option.some.inj (hc.symm.trans hcur)))

/-- The queue scan came back with another process. -/
theorem switchFrom_other (hq : next ∈ L q) (hne : next ≠ cur) (hpick : pickable s next = true)
    (hm : Queues m (fun q => (L q).erase next)) :
    ∃ s' L', switchFrom { s with links := m } c cur next = some s' ∧ Inv none s' L' ∧
      Section c cur L s s' := by
  obtain ⟨-, hpid, -⟩ := (h.fits next).of_linked hq
  replace hpid : (s.procs next).pid ≠ 0 := hpid
  obtain ⟨hst, -⟩ := pickable_iff.1 hpick
  have hpk := Picked.of_queued h hq hpick hm
  by_cases hrun : (s.procs cur).state = .running ∧ (s.procs cur).pid ≠ 0
  · obtain ⟨m', L', henq, hpk'⟩ := hpk.requeue hcur hfree hne hrun.1 hrun.2
    have hsec : Section c cur L s (handOver { s.setState cur .ready with links := m' } c cur
        next) := by
      have hsec₁ : Section c cur L ({ s.setState cur .ready with links := m' } : Machine n)
        (handOver { s.setState cur .ready with links := m' } c cur next) :=
        Section.handOver (.inr ⟨⟨q, hq⟩, by simp [hne, hst]⟩)
      refine ⟨hsec₁.act, hsec₁.others, hsec₁.idle, fun p => ?_, hsec₁.current, fun p => ?_⟩
      · by_cases hp : p = cur
        · subst hp
          exact .inr ⟨.inl rfl, by simp [hrun.1], by simp [handOver, hne.symm]⟩
        · simpa [hp] using hsec₁.state p
      · by_cases hp : p = cur <;> simpa [hp] using hsec₁.keeps p
    refine ⟨_, L', ?_, hpk'.handOver h hsec hcur hfree hne (.inl (by simp)), hsec⟩
    simp only [switchFrom, hne, hpid, hrun, ne_eq,
      henq]
    rfl
  · have hsec : Section c cur L s (handOver { s with links := m } c cur next) := by
      have hsec₁ : Section c cur L ({ s with links := m } : Machine n)
        (handOver { s with links := m } c cur next) := Section.handOver (.inr ⟨⟨q, hq⟩, hst⟩)
      exact ⟨hsec₁.act, hsec₁.others, hsec₁.idle, hsec₁.state, hsec₁.current, hsec₁.keeps⟩
    refine ⟨_, _, ?_, hpk.handOver h hsec hcur hfree hne ?_, hsec⟩
    · simp [switchFrom, hne, hpid, hrun]
    · by_cases hr : (s.procs cur).state = .running
      · exact .inr (by simpa [hr] using hrun)
      · exact .inl hr

end

/-- What was woken on the way is part of the section. -/
theorem Section.of_woken (hw : Woken (L 0 ++ L 1 ++ L 2) s s₁) (h : Section c cur L s₁ s') :
    Section c cur L s s' where
  act := by rw [← hw.act]; exact h.act
  others := by rw [← hw.current]; exact h.others
  idle := h.idle.trans hw.idle
  state p := by
    rcases hw.procs p with he | ⟨hl, hb, _, _, he⟩
    · rw [← he]; exact h.state p
    refine .inr ⟨.inr (mem_queues.1 hl), by rw [hb]; decide, ?_⟩
    rcases h.state p with hs | hs
    exacts [by simp [hs, he], hs.2.2]
  current := h.current
  keeps p := by
    rcases hw.procs p with he | ⟨-, -, _, _, he⟩ <;> simpa [he] using h.keeps p

/-- **`__sched_yield_locked` from its pick on.**  In any state of the invariant in
which no `READY` process is in the hands of a `proc_kill`, the section comes back,
does not use the recovery scan, and restores the invariant. -/
theorem pickAndSwitch_spec (h : Inv (some c) s L) (hcur : s.current c = some cur)
    (hfree : FreeHands s c) (hcalm : Calm s) (now : ProcId → ℕ) :
    ∃ s' L', pickAndSwitch s c cur now = some (s', []) ∧ Inv none s' L' ∧
      Section c cur L s s' := by
  obtain ⟨s₁, hwake, h₁, hw⟩ := wakeAll_spec (wakeExpired_wakesOne now) h
  have hcur₁ : s₁.current c = some cur := by rw [hw.current]; exact hcur
  have hfree₁ : FreeHands s₁ c := by intro p; rw [hw.act]; exact hfree p
  have hcalm₁ : Calm s₁ := by
    intro c' p hp hr
    rw [hw.act] at hp
    rcases hw.procs p with he | ⟨hl, -⟩
    · exact hcalm c' p hp (he ▸ hr)
    · obtain ⟨q, hq⟩ := mem_queues.1 hl
      exact h.not_linked_of_enterExit hp q hq
  rcases pickQueued_spec h₁.queues allQueues with
    ⟨hpick, hnone⟩ | ⟨next, q, m, -, hq, hready, hpick, hm⟩
  · obtain ⟨s', hsw, hinv, hsec⟩ :=
      switchFrom_stay h₁ hcur₁ hfree₁ (fun q => hnone q (mem_allQueues q))
    refine ⟨s', L, ?_, hinv, hsec.of_woken hw⟩
    simp [pickAndSwitch, pickNextReady, hwake, hpick, stranded_spec h₁ hcalm₁, Pick.proc,
      Pick.events, hsw]
  by_cases hne : next = cur
  · subst hne
    obtain ⟨s', L', hsw, hinv, hsec⟩ := switchFrom_self h₁ hcur₁ hfree₁ hq hready hm
    refine ⟨s', L', ?_, hinv, hsec.of_woken hw⟩
    simp [pickAndSwitch, pickNextReady, hwake, hpick, Pick.proc, Pick.events, hsw]
  · obtain ⟨s', L', hsw, hinv, hsec⟩ := switchFrom_other h₁ hcur₁ hfree₁ hq hne hready hm
    refine ⟨s', L', ?_, hinv, hsec.of_woken hw⟩
    simp [pickAndSwitch, pickNextReady, hwake, hpick, Pick.proc, Pick.events, hsw]

end Switch

end Xos.Sched
