import Xos.Sched.Pick

/-!
# How roles change

One lemma per store that gives a process another role, outside the scheduling
sections: creation, the two ways into `proc_exit`, its stages, and collection by
the parent.  `Inv.touch` turns such a lemma into one about the whole machine.
-/

namespace Xos.Sched

open Xos.Lib Function

variable {n : ℕ} {lock : Option (Fin n)} {v : View n} {r : Proc} {c : Fin n} {k : After}

/-! ## Stores that leave the role alone -/

/-- A role only depends on these six fields. -/
structure SameRole (r r' : Proc) : Prop where
  state : r'.state = r.state
  reaped : r'.reaped = r.reaped
  exiting : r'.exiting = r.exiting
  switching : r'.switching = r.switching
  pid : r'.pid = r.pid
  priority : r'.priority = r.priority

/-- A store that leaves the role alone, and the priority of a process that is in a queue. -/
theorem Fits.store (h : Fits lock v) (h₁ : r.state = v.proc.state) (h₂ : r.reaped = v.proc.reaped)
    (h₃ : r.exiting = v.proc.exiting) (h₄ : r.switching = v.proc.switching)
    (h₅ : r.pid = v.proc.pid) (h₆ : ∀ q, v.linked q → r.priority = v.proc.priority) :
    Fits lock { v with proc := r } := by
  cases h with
  | free aside state reaped saved =>
    exact .free aside.keep (h₁.trans state) (h₂.trans reaped) ⟨h₄.trans saved.flag, saved.hold⟩
  | fresh c aside state reaped exiting pid switching hold =>
    exact .fresh c aside.keep (h₁.trans state) (h₂.trans reaped)
      (h₃.trans exiting) (h₅ ▸ pid) (h₄.trans switching) hold
  | queued o off user state exiting pid linked saved =>
    have h₆ := h₆ _ ((linked _).2 rfl)
    exact .queued o off user (h₁ ▸ state) (h₃.trans exiting) (h₅ ▸ pid) (h₆ ▸ linked)
      ⟨h₄.trans saved.flag, saved.hold⟩
  | yielding c locked current user state exiting pid linked saved =>
    have h₆ := h₆ _ ((linked _).2 rfl)
    exact .yielding c locked current user (h₁ ▸ state) (h₃.trans exiting) (h₅ ▸ pid)
      (h₆ ▸ linked) ⟨h₄.trans saved.flag, saved.hold⟩
  | running c current user unlinked pid state switching others hold =>
    exact .running c current user unlinked (h₅ ▸ pid) (by simpa only [h₁, h₂, h₃] using state)
      (h₄.trans switching) others (by simpa only [h₃] using hold)
  | idling c idle current unlinked pid state exiting o mine away saved =>
    exact .idling c idle current unlinked (h₅.trans pid) (h₁.trans state) (h₃.trans exiting) o
      mine away ⟨h₄.trans saved.flag, saved.hold⟩
  | doomed aside state exiting pid switching killer hold =>
    exact .doomed aside.keep (h₁ ▸ state) (h₃.trans exiting)
      (h₅ ▸ pid) (h₄.trans switching) killer hold
  | dying c aside state exiting reaped pid switching hold others =>
    exact .dying c aside.keep (h₁.trans state) (h₃.trans exiting)
      (h₂.trans reaped) (h₅ ▸ pid) (h₄.trans switching) hold others
  | gone o aside state reaped pid flag hold =>
    exact .gone o aside.keep (h₁.trans state) (h₂.trans reaped)
      (h₅ ▸ pid) (h₄.trans flag) (by simpa only [h₃] using hold)

theorem Fits.data (h : Fits lock v) (hr : SameRole v.proc r) : Fits lock { v with proc := r } :=
  h.store hr.state hr.reaped hr.exiting hr.switching hr.pid fun _ _ => hr.priority

/-- A process that is on no queue can have any priority. -/
theorem Fits.setPriority (h : Fits none v) (hw : ¬ v.proc.state.waits) (prio : ℕ) :
    Fits none { v with proc := { v.proc with priority := prio } } :=
  h.store rfl rfl rfl rfl rfl fun _ hq => absurd (h.of_linked hq).1 hw

/-- What CPU `c` is in the middle of with a dead process. -/
theorem gone_hold (hold : ∀ c, if o = some c then v.hold c = some .saving else
      v.hold c = none ∨ v.hold c = some (.enterExit .ret) ∧ v.proc.exiting = true)
    (hc : v.hold c = some x) :
    x = .saving ∧ o = some c ∨ x = .enterExit .ret ∧ o ≠ some c ∧ v.proc.exiting = true := by
  have := hold c
  rw [hc] at this
  split_ifs at this with ho
  · exact .inl ⟨Option.some.inj this, ho⟩
  obtain h | ⟨h, he⟩ := this
  · cases h
  · exact .inr ⟨Option.some.inj h, ho, he⟩

/-- What CPU `c` is in the middle of with a process that `c₀` takes through `proc_exit`. -/
theorem dying_hold (hold : ∃ st k, v.hold c₀ = some (.inExit st k))
    (others : ∀ c, c ≠ c₀ → v.hold c = none ∨ v.hold c = some (.enterExit .ret))
    (hc : v.hold c = some x) :
    c = c₀ ∧ (∃ st k, x = .inExit st k) ∨ c ≠ c₀ ∧ x = .enterExit .ret := by
  obtain rfl | hne := eq_or_ne c c₀
  · exact .inl ⟨rfl, by simpa [hc] using hold⟩
  · exact .inr ⟨hne, by simpa [hc] using others c hne⟩

/-- The one CPU that is in the middle of something. -/
theorem eq_of_hold (others : ∀ c', c' ≠ c₀ → v.hold c' = none) (hc : v.hold c = some x) :
    c = c₀ := by
  by_contra hne
  simp [others c hne] at hc

/-! ## The end of a context switch -/

section

variable (h : Fits none v)
include h

/-- `context_switch` has saved the registers of the process. -/
theorem Fits.saveDone (hc : v.hold c = some .saving) : Fits none { v with
      proc := { v.proc with switching := false }
      hold := update v.hold c none } := by
  have hupd : ∀ {o : Option (Fin n)} (c' : Fin n), v.SavedBy o →
      update v.hold c none c' = none := by
    intro o c' hs
    by_cases hc' : c' = c
    · subst hc'; simp
    · rw [update_of_ne hc', hs.hold c', (hs.of_hold hc).2, if_neg]
      exact fun he => hc' (Option.some.inj he).symm
  cases h with
  | free _ _ _ saved => cases (saved.of_hold hc).2
  | fresh c₀ aside state reaped exiting pid switching hold =>
    simp [hold c] at hc
  | queued o off user state exiting pid linked saved =>
    exact .queued none off user state exiting pid linked ⟨rfl, fun c' => by simp [hupd c' saved]⟩
  | yielding _ h => cases h
  | running c₀ current user unlinked pid state switching others hold =>
    obtain rfl := eq_of_hold others hc
    simp [hc] at hold
  | idling c₀ idle current unlinked pid state exiting o mine away saved =>
    exact .idling c₀ idle current unlinked pid state exiting none nofun (fun _ => rfl)
      ⟨rfl, fun c' => by simp [hupd c' saved]⟩
  | doomed _ _ _ _ _ _ hold => simpa [hc] using hold c
  | dying c₀ _ _ _ _ _ _ hold others =>
    obtain ⟨-, -, -, ⟨⟩⟩ | ⟨-, ⟨⟩⟩ := dying_hold hold others hc
  | gone o aside state reaped pid flag hold =>
    obtain ⟨-, rfl⟩ | ⟨⟨⟩, -⟩ := gone_hold hold hc
    refine .gone none aside.keep state reaped pid rfl (fun c' => ?_)
    obtain rfl | hc' := eq_or_ne c' c
    · simp
    · simpa [hc', Ne.symm hc'] using hold c'

/-! ## Creation -/

/-- `proc_create` hands out a free slot on CPU `c`. -/
theorem Fits.create (hs : v.proc.state = .dead) (hr : v.proc.reaped = true)
    (h₁ : r.state = .dead) (h₂ : r.reaped = false) (h₃ : r.exiting = false) (h₄ : r.pid ≠ 0)
    (h₅ : r.switching = false) :
    Fits none { v with
      proc := r
      hold := update v.hold c (some .creating) } := by
  cases h with
  | free aside _ _ saved =>
    refine .fresh c aside.keep h₁ h₂ h₃ h₄ h₅ (fun c' => ?_)
    by_cases hc' : c' = c
    · subst hc'; simp
    · simp [hc', saved.hold c']
  | fresh _ _ _ reaped | dying _ _ _ _ reaped | gone _ _ _ reaped => simp [hr] at reaped
  | queued _ _ _ state | doomed _ state => simp [hs, ProcState.waits] at state
  | yielding _ h => cases h
  | running _ _ _ _ _ state => simp [hs, hr] at state
  | idling _ _ _ _ _ state => simp [hs] at state

section

variable (hc : v.hold c = some .creating)
include hc

/-- What is known of a slot under construction. -/
theorem Fits.of_creating :
    v.Aside ∧ v.proc.state = .dead ∧ v.proc.reaped = false ∧ v.proc.exiting = false ∧
      v.proc.pid ≠ 0 ∧ v.proc.switching = false ∧
      ∀ c', v.hold c' = if c' = c then some .creating else none := by
  cases h with
  | fresh c₀ aside state reaped exiting pid switching hold =>
    obtain rfl : c = c₀ := by simpa [hold c] using hc
    exact ⟨aside, state, reaped, exiting, pid, switching, hold⟩
  | free _ _ _ saved | queued _ _ _ _ _ _ _ saved | idling _ _ _ _ _ _ _ _ _ _ saved =>
    cases (saved.of_hold hc).1
  | yielding _ h => cases h
  | running c₀ _ _ _ _ _ _ others hold =>
    obtain rfl := eq_of_hold others hc
    simp [hc] at hold
  | doomed _ _ _ _ _ _ hold => simpa [hc] using hold c
  | dying c₀ _ _ _ _ _ _ hold others =>
    obtain ⟨-, -, -, ⟨⟩⟩ | ⟨-, ⟨⟩⟩ := dying_hold hold others hc
  | gone _ _ _ _ _ _ hold => obtain ⟨⟨⟩, -⟩ | ⟨⟨⟩, -⟩ := gone_hold hold hc

/-- `proc_make_ready`: the slot becomes a queued process. -/
theorem Fits.makeReady : Fits none { v with
      proc := { v.proc with state := .ready }
      linked := fun q => q = queueOf v.proc.priority
      hold := update v.hold c none } := by
  obtain ⟨aside, -, -, exiting, pid, switching, hold⟩ := h.of_creating hc
  refine .queued none aside.off aside.user (.inl rfl) exiting pid (fun _ => Iff.rfl)
    ⟨switching, fun c' => ?_⟩
  by_cases hc' : c' = c <;> simp [hc', hold c']

/-- `sched_adopt_current`: the slot becomes the process the CPU runs. -/
theorem Fits.adopt : Fits none { v with
      proc := { v.proc with state := .running }
      current := fun c' => c' = c
      hold := update v.hold c none } := by
  obtain ⟨aside, -, -, exiting, pid, switching, hold⟩ := h.of_creating hc
  refine .running c (fun _ => Iff.rfl) aside.user aside.unlinked pid (.inl ⟨rfl, exiting⟩)
    switching (fun c' hc' => ?_) (.inl (by simp))
  simp [hc', hold c']

end

/-- The idle process loses the CPU without a context switch. -/
theorem Fits.abandonIdle (hi : v.idle c) :
    Fits none { v with current := fun c' => c' ≠ c ∧ v.current c' } := by
  cases h with
  | idling c₀ idle current unlinked pid state exiting o mine away saved =>
    obtain rfl := (idle c).1 hi
    exact .idling c idle (fun c' hc' => current c' hc'.2) unlinked pid state exiting o mine
      (fun hc => absurd rfl hc.1) ⟨saved.flag, saved.hold⟩
  | free aside | fresh _ aside | doomed aside | dying _ aside | gone _ aside =>
    exact absurd hi (aside.user c)
  | queued _ _ user | running _ _ user => exact absurd hi (user c)
  | yielding _ h => cases h

/-! ## Into `proc_exit` -/

/-- A user process that starts its own `proc_exit`. -/
theorem Fits.enterSelf (hc : v.current c) (hpid : v.proc.pid ≠ 0) (hk : k ≠ .ret) :
    Fits none { v with hold := update v.hold c (some (.enterExit k)) } := by
  cases h with
  | running c₀ current user unlinked pid state switching others =>
    obtain rfl := (current c).1 hc
    refine .running c current user unlinked pid state switching (fun c' hc' => ?_)
      (.inr (.inl ⟨k, hk, by simp⟩))
    simp [hc', others c' hc']
  | idling _ _ _ _ pid => exact absurd pid hpid
  | free aside | fresh _ aside | doomed aside | dying _ aside | gone _ aside =>
    exact absurd hc (aside.off c)
  | queued _ off => exact absurd hc (off c)
  | yielding _ h => cases h

/-- A running process that another CPU marks `DEAD`. -/
theorem Fits.markDead (hr : v.proc.state = .running) (hpid : v.proc.pid ≠ 0) :
    Fits none { v with proc := { v.proc with
      state := .dead, exiting := false, reaped := false } } := by
  cases h with
  | running c current user unlinked pid state switching others hold =>
    refine .running c current user unlinked pid (.inr ⟨rfl, rfl⟩) switching others ?_
    rcases hold with h | h | ⟨hexit, -⟩
    · exact .inl h
    · exact .inr (.inl h)
    · -- a process past the claim of its exit is not `RUNNING`
      simp [hexit, hr] at state
  | idling _ _ _ _ pid => exact absurd pid hpid
  | queued _ _ _ state | doomed _ state => simp [hr, ProcState.waits] at state
  | yielding _ h => cases h
  | free _ state | fresh _ _ state | dying _ _ state | gone _ _ state => simp [hr] at state

/-- A waiting process, its context saved, that `proc_kill` on CPU `c` has unlinked. -/
theorem Fits.doom (hw : v.proc.state.waits) (hsw : v.proc.switching = false) : Fits none { v with
      linked := fun _ => False
      hold := update v.hold c (some (.enterExit .ret)) } := by
  have hkiller : ∃ c', update v.hold c (some (.enterExit .ret)) c' =
      some (.enterExit .ret) := ⟨c, by simp⟩
  cases h with
  | queued o off user state exiting pid linked saved =>
    obtain rfl : o = none := by
      have := saved.flag.symm.trans hsw
      simpa using this
    refine .doomed ⟨off, fun _ => id, user⟩ state exiting pid hsw hkiller (fun c' => ?_)
    by_cases hc' : c' = c
    · exact .inr (by simp [hc'])
    · exact .inl (by simpa [hc'] using saved.hold c')
  | doomed aside state exiting pid switching killer hold =>
    refine .doomed ⟨aside.off, fun _ => id, aside.user⟩ state exiting pid hsw hkiller (fun c' => ?_)
    by_cases hc' : c' = c
    · exact .inr (by simp [hc'])
    · simpa [hc'] using hold c'
  | yielding _ h => cases h
  | running _ _ _ _ _ state => rcases hw with hw | hw <;> simp [hw] at state
  | free _ state | fresh _ _ state | idling _ _ _ _ _ state | dying _ _ state
  | gone _ _ state => rcases hw with hw | hw <;> simp [hw] at state

section

variable (hc : v.hold c = some (.enterExit k))
include hc

/-- Who can be about to enter `proc_exit`: the process itself, or a killer. -/
theorem Fits.of_enterExit : v.proc.pid ≠ 0 ∧ v.proc.switching = false ∧ (∀ q, ¬ v.linked q) ∧
      (v.current c ∧ k ≠ .ret ∨ (∀ c', ¬ v.current c') ∧ k = .ret) ∨
    v.proc.state = .dead ∧ v.proc.exiting = true := by
  cases h with
  | running c₀ current user unlinked pid state switching others hold =>
    obtain rfl := eq_of_hold others hc
    exact .inl ⟨pid, switching, unlinked, .inl ⟨(current c).2 rfl, by simpa [hc] using hold⟩⟩
  | doomed aside state exiting pid switching killer hold =>
    exact .inl ⟨pid, switching, aside.unlinked, .inr ⟨aside.off, by simpa [hc] using hold c⟩⟩
  | dying c₀ aside state exiting => exact .inr ⟨state, exiting⟩
  | gone o aside state reaped pid flag hold =>
    obtain ⟨⟨⟩, -⟩ | ⟨-, -, h⟩ := gone_hold hold hc
    exact .inr ⟨state, h⟩
  | free _ _ _ saved | queued _ _ _ _ _ _ _ saved | idling _ _ _ _ _ _ _ _ _ _ saved =>
    cases (saved.of_hold hc).1
  | fresh _ _ _ _ _ _ _ hold => simp [hold c] at hc
  | yielding _ h => cases h

/-- `proc_exit` finds the exit claimed already and returns. -/
theorem Fits.leaveExit (he : v.proc.exiting = true) :
    Fits none { v with hold := update v.hold c none } := by
  cases h with
  | running c₀ current user unlinked pid state switching others =>
    obtain rfl := eq_of_hold others hc
    refine .running c current user unlinked pid state switching (fun c' hc' => ?_) (.inl (by simp))
    simp [hc', others c' hc']
  | doomed _ _ exiting | queued _ _ _ _ exiting | idling _ _ _ _ _ _ exiting =>
    simp [he] at exiting
  | dying c₀ aside state exiting reaped pid switching hold others =>
    obtain ⟨-, -, -, ⟨⟩⟩ | ⟨hne, -⟩ := dying_hold hold others hc
    refine .dying c₀ aside.keep state exiting reaped pid switching
      (by simpa [hne.symm] using hold) (fun c' hc' => ?_)
    by_cases hcc : c' = c
    · simp [hcc]
    · simpa [hcc] using others c' hc'
  | gone o aside state reaped pid flag hold =>
    obtain ⟨⟨⟩, -⟩ | ⟨-, ho, -⟩ := gone_hold hold hc
    refine .gone o aside.keep state reaped pid flag (fun c' => ?_)
    by_cases hcc : c' = c
    · simp [hcc, ho]
    · simpa [hcc] using hold c'
  | free _ _ _ saved => cases (saved.of_hold hc).2
  | fresh _ _ _ _ _ _ _ hold => simp [hold c] at hc
  | yielding _ h => cases h

/-- `proc_exit` claims the exit. -/
theorem Fits.claim (he : v.proc.exiting = false) : Fits none { v with
      proc := { v.proc with exiting := true, state := .dead, reaped := false }
      hold := update v.hold c (some (.inExit .wake k)) } := by
  cases h with
  | running c₀ current user unlinked pid state switching others =>
    obtain rfl := eq_of_hold others hc
    refine .running c current user unlinked pid (.inr ⟨rfl, rfl⟩) switching (fun c' hc' => ?_)
      (.inr (.inr ⟨rfl, .wake, k, by simp⟩))
    simp [hc', others c' hc']
  | doomed aside state exiting pid switching killer hold =>
    refine .dying c aside.keep rfl rfl rfl pid switching ⟨.wake, k, by simp⟩ (fun c' hc' => ?_)
    simpa [hc'] using hold c'
  | dying _ _ _ exiting => simp [he] at exiting
  | gone o aside state reaped pid flag hold =>
    obtain ⟨⟨⟩, -⟩ | ⟨-, -, h⟩ := gone_hold hold hc
    simp [he] at h
  | free _ _ _ saved | queued _ _ _ _ _ _ _ saved | idling _ _ _ _ _ _ _ _ _ _ saved =>
    cases (saved.of_hold hc).1
  | fresh _ _ _ _ _ _ _ hold => simp [hold c] at hc
  | yielding _ h => cases h

end

/-! ## Through `proc_exit` -/

/-- While CPU `c` is past the claim, no other CPU has the process in any way that
matters. -/
theorem Fits.of_inExit (hc : v.hold c = some (.inExit st k)) :
    v.proc.state = .dead ∧ v.proc.exiting = true ∧ v.proc.switching = false ∧
      (∀ q, ¬ v.linked q) ∧ (∀ c', v.current c' → c' = c) ∧
      ∀ c', c' ≠ c → v.hold c' = none ∨ v.hold c' = some (.enterExit .ret) := by
  cases h with
  | running c₀ current user unlinked pid state switching others hold =>
    obtain rfl := eq_of_hold others hc
    have hexit : v.proc.exiting = true := by simpa [hc] using hold
    exact ⟨(state.resolve_left (by simp [hexit])).1, hexit, switching, unlinked,
      fun c' => (current c').1, fun c' hc' => .inl (others c' hc')⟩
  | dying c₀ aside state exiting reaped pid switching hold others =>
    obtain ⟨rfl, -⟩ | ⟨-, ⟨⟩⟩ := dying_hold hold others hc
    exact ⟨state, exiting, switching, aside.unlinked, fun c' hc' => absurd hc' (aside.off c'),
      others⟩
  | doomed _ _ _ _ _ _ hold => simpa [hc] using hold c
  | gone _ _ _ _ _ _ hold => obtain ⟨⟨⟩, -⟩ | ⟨⟨⟩, -⟩ := gone_hold hold hc
  | free _ _ _ saved | queued _ _ _ _ _ _ _ saved | idling _ _ _ _ _ _ _ _ _ _ saved =>
    cases (saved.of_hold hc).1
  | fresh _ _ _ _ _ _ _ hold => simp [hold c] at hc
  | yielding _ h => cases h

/-- On to the next stage, or out of `proc_exit`. -/
theorem Fits.advance (hc : v.hold c = some (.inExit st k))
    (ho : o = none ∨ ∃ st', o = some (.inExit st' k)) :
    Fits none { v with hold := update v.hold c o } := by
  obtain ⟨hdead, hexit, hsw, hunl, hcur, hothers⟩ := h.of_inExit hc
  cases h with
  | running c₀ current user unlinked pid state switching others =>
    obtain rfl := eq_of_hold others hc
    refine .running c current user unlinked pid state switching (fun c' hc' => ?_) ?_
    · simp [hc', others c' hc']
    · rcases ho with rfl | ⟨st', rfl⟩
      · exact .inl (by simp)
      · exact .inr (.inr ⟨hexit, st', k, by simp⟩)
  | dying c₀ aside state exiting reaped pid switching hold others =>
    obtain ⟨rfl, -⟩ | ⟨-, ⟨⟩⟩ := dying_hold hold others hc
    rcases ho with rfl | ⟨st', rfl⟩
    · refine .gone none aside.keep state reaped pid hsw (fun c' => ?_)
      by_cases hcc : c' = c
      · simp [hcc]
      · rcases others c' hcc with h | h <;> simp [hcc, h, hexit]
    · refine .dying c aside.keep state exiting reaped pid switching
        ⟨st', k, by simp⟩ (fun c' hc' => ?_)
      simpa [hc'] using others c' hc'
  | doomed _ _ exiting | fresh _ _ _ _ exiting | queued _ _ _ _ exiting
  | idling _ _ _ _ _ _ exiting => simp [hexit] at exiting
  | gone _ _ _ _ _ _ hold => obtain ⟨⟨⟩, -⟩ | ⟨⟨⟩, -⟩ := gone_hold hold hc
  | free _ _ _ saved => cases (saved.of_hold hc).2
  | yielding _ h => cases h

/-- `proc_waitpid` collects a dead process that no CPU has anything to do with. -/
theorem Fits.collect (hs : v.proc.state = .dead) (hoff : ∀ c, ¬ v.current c)
    (hsw : v.proc.switching = false) (hfresh : ∀ c, v.hold c ≠ some .creating)
    (henter : ∀ c k, v.hold c ≠ some (.enterExit k))
    (hin : ∀ c st k, v.hold c ≠ some (.inExit st k)) :
    Fits none { v with proc := { v.proc with reaped := true } } := by
  cases h with
  | free aside state _ saved =>
    exact .free aside.keep state rfl ⟨saved.flag, saved.hold⟩
  | gone o aside state reaped pid flag hold =>
    obtain rfl : o = none := by simpa using flag.symm.trans hsw
    refine .free aside.keep state rfl ⟨flag, fun c => ?_⟩
    obtain h | ⟨h, -⟩ := by simpa using hold c
    · simpa using h
    · exact absurd h (henter c _)
  | fresh c _ _ _ _ _ _ hold => exact absurd (by simpa using hold c) (hfresh c)
  | queued _ _ _ state | doomed _ state => simp [hs, ProcState.waits] at state
  | yielding _ h => cases h
  | running c current => exact absurd ((current c).2 rfl) (hoff c)
  | idling _ _ _ _ _ state => simp [hs] at state
  | dying c _ _ _ _ _ _ hold =>
    obtain ⟨st, k, h⟩ := hold
    exact absurd h (hin c st k)

end

end Xos.Sched
