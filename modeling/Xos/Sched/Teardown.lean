import Xos.Sched.RunQueue

/-!
# Teardown safety

Runs in which processes also exit, are killed and are waited for.  The code
publishes `DEAD` at the start of `proc_exit` and nothing ties `proc_waitpid` or
`proc_create` to its end, so a slot can be handed out while a CPU still runs on it
(`slot_reused_while_running`).  `Guard` names the orders that have to be kept from
outside; under it

* what `proc_exit` frees is in no other CPU's hands, and a slot that `proc_create`
  hands out is in nobody's — the first half of `teardown_safe`;
* a process whose teardown has begun stays as it was or dead until its slot is
  started anew — the second half.
-/

namespace Xos.Sched

open Xos.Lib

variable {n : ℕ} {s s' s₀ : Machine n} {L : Prio → List ProcId} {p : ProcId}

/-! ## The failing order -/

/-- **The failing order.**  The first process forks a child, which runs on CPU 1 and
exits; as soon as the claim of the exit has published `DEAD`, the parent's `waitpid`
collects the child and its next `fork` gets the same slot, while CPU 1 still has it
current and is inside `proc_exit` on it. -/
theorem slot_reused_while_running : ∃ s s' : Machine 2, ∃ ev,
      Run Step (fun _ _ => True) (boot 2 (by decide) 7 (fun _ => 9))
        [.procCreate 0 21 22, .schedAdoptCurrent 0,
          .procCreate 0 31 32, .initChild 0 0, .procMakeReady 0,
          .schedYield 1 (fun _ => 0), .contextSaved 1,
          .sysExit 1 0, .exitClaim 1, .reap 0 3] s ∧
      enabled s (.procCreate 0 41 42) ∧ exec s (.procCreate 0 41 42) = some (s', ev) ∧
      Event.reuse 3 ∈ ev ∧ s.current 1 = some 3 ∧ s.act 1 = .inExit 3 .wake .yield := by
  have hpid : ∀ k : ℕ, k + 1 ≠ 0 := fun _ => Nat.succ_ne_zero _
  exact ⟨_, _, _,
    -- the first process
    Run.cons trivial ⟨rfl, _, rfl⟩ <| Run.cons trivial ⟨⟨rfl, rfl⟩, _, rfl⟩ <|
    -- its `fork`
    Run.cons trivial ⟨rfl, _, rfl⟩ <| Run.cons trivial ⟨⟨rfl, hpid 1⟩, _, rfl⟩ <|
    Run.cons trivial ⟨rfl, _, rfl⟩ <|
    -- the child on CPU 1, up to the claim of its exit
    Run.cons trivial ⟨.inl rfl, _, rfl⟩ <| Run.cons trivial ⟨rfl, _, rfl⟩ <|
    Run.cons trivial ⟨⟨rfl, hpid 2⟩, _, rfl⟩ <| Run.cons trivial ⟨trivial, _, rfl⟩ <|
    -- the parent collects it
    Run.cons trivial ⟨⟨rfl, rfl, rfl, hpid 1, rfl⟩, _, rfl⟩ .nil,
    rfl, rfl, List.mem_singleton.2 rfl, rfl, rfl⟩

/-! ## What the guard gives -/

/-- A CPU about to call `proc_exit` takes no other step. -/
theorem enabled_enterExit (hen : enabled s l) (hc : s.act l.cpu = .enterExit p k) :
    l = .exitClaim l.cpu := by
  cases l with
  | exitClaim => rfl
  | _ => simp_all [enabled, Label.cpu, Act.created, Act.saved]

/-- After the claim, or the return from an exit claimed before, the process is
dead. -/
theorem exitClaim_dead (h : Inv none s L) : ((exitClaim s c p k).procs p).state = .dead := by
  by_cases he : (s.procs p).exiting = true
  · obtain ⟨a, ha, -⟩ := afterExit_eq s c k
    simp only [exitClaim, he, ha]
    exact (h.fits p).dead_of_exiting he
  · simp [exitClaim, he]

/-- A teardown that has begun goes on, and the process is as it was or dead. -/
theorem Torn.step (h : Inv none s L) (hen : enabled s l) (hex : exec s l = some (s', ev))
    (heff : Effect s l s' ev) (hp : Torn s p) (hns : ¬ (l.Starts ∧ s.act l.cpu = .creating p)) :
    Torn s' p ∧ ((s'.procs p).state = (s.procs p).state ∨ (s'.procs p).state = .dead) := by
  rcases heff.torn p hp with hst | hd | hstart
  · refine ⟨?_, .inl hst⟩
    rcases hp with hd | ⟨c, k, hc⟩
    · exact .inl (hst.trans hd)
    by_cases hcl : c = l.cpu
    · -- its holder moves: that is the claim
      subst hcl
      have hl := enabled_enterExit hen hc
      rw [hl] at hex
      simp only [exec, hc, Option.some.injEq, Prod.mk.injEq] at hex
      exact .inl (hex.1 ▸ exitClaim_dead h)
    · obtain ⟨a, ha, -⟩ := heff.act
      exact .inr ⟨c, k, by rw [ha, Function.update_of_ne hcl]; exact hc⟩
  · exact ⟨.inl hd, .inr hd⟩
  · exact absurd hstart hns

/-- Every state of a guarded run meets the invariant. -/
theorem Run.inv (h₀ : Booted s₀) (hrun : Run Step Guard s₀ ls s) : ∃ L, Inv none s L := by
  refine hrun.invariant (I := fun s => ∃ L, Inv none s L) ⟨_, Inv.booted h₀⟩ ?_
  rintro t l t' ⟨L, hinv⟩ hg ⟨hen, ev, hex⟩
  obtain ⟨t₁, ev₁, L', hex₁, hinv', -⟩ := exec_spec hinv hen hg
  rw [hex] at hex₁
  cases hex₁
  exact ⟨L', hinv'⟩

/-- **Teardown safety.**  In every state that a guarded run reaches: what the next
guarded step frees or hands out is in no (other) CPU's hands; and a process whose
teardown has begun keeps its state or is dead, however the guarded run goes on, until
a CPU that got its slot from `proc_create` starts it anew. -/
theorem teardown_safe (h₀ : Booted s₀) {ls : List (Label n)} (hrun : Run Step Guard s₀ ls s) :
    (∀ l s' ev, enabled s l → Guard s l → exec s l = some (s', ev) → ∀ e ∈ ev, e.Safe s l.cpu) ∧
    ∀ p, Torn s p → ∀ ls' t,
      Run Step (fun u l => Guard u l ∧ ¬ (l.Starts ∧ u.act l.cpu = .creating p)) s ls' t →
        (t.procs p).state = (s.procs p).state ∨ (t.procs p).state = .dead := by
  obtain ⟨L, hinv⟩ := Run.inv h₀ hrun
  refine ⟨fun l s' ev hen hg hex => ?_, fun p hp ls' t hrun' => ?_⟩
  · obtain ⟨s₁, ev₁, L', hex₁, -, heff⟩ := exec_spec hinv hen hg
    rw [hex] at hex₁
    cases hex₁
    exact heff.events
  · have hall : (∃ L, Inv none t L) ∧ Torn t p ∧
        ((t.procs p).state = (s.procs p).state ∨ (t.procs p).state = .dead) := by
      refine hrun'.invariant (I := fun t => (∃ L, Inv none t L) ∧ Torn t p ∧
        ((t.procs p).state = (s.procs p).state ∨ (t.procs p).state = .dead))
        ⟨⟨L, hinv⟩, hp, .inl rfl⟩ ?_
      rintro u l u' ⟨⟨L₁, hu⟩, hpu, hst⟩ ⟨hg, hns⟩ ⟨hen, ev, hex⟩
      obtain ⟨u₁, ev₁, L', hex₁, hinv', heff⟩ := exec_spec hu hen hg
      rw [hex] at hex₁
      cases hex₁
      obtain ⟨hp', hst'⟩ := hpu.step hu hen hex heff hns
      refine ⟨⟨L', hinv'⟩, hp', ?_⟩
      rcases hst' with hst' | hst'
      · rw [hst']; exact hst
      · exact .inr hst'
    exact hall.2.2

/-- A ready process is killed by the other CPU, which frees its page tables. -/
theorem teardown_safe_kill :
    ∃ s : Machine 2, ∃ s' ev, Run Step Guard (boot 2 (by decide) 7 (fun _ => 9))
        [.procCreate 0 21 22, .procMakeReady 0, .procKill 1 2, .exitClaim 1, .exitStage 1 none] s ∧
      exec s (.exitStage 1 none) = some (s', ev) ∧ ev = [.freeTables 2 21] ∧
      (∀ e ∈ ev, e.Safe s 1) ∧ Torn s 2 := by
  have hrun : ∃ s : Machine 2, ∃ s' ev, Run Step Guard (boot 2 (by decide) 7 (fun _ => 9))
        [.procCreate 0 21 22, .procMakeReady 0, .procKill 1 2, .exitClaim 1, .exitStage 1 none] s ∧
      exec s (.exitStage 1 none) = some (s', ev) ∧ ev = [.freeTables 2 21] ∧
      enabled s (.exitStage 1 none) ∧ (s.procs 2).state = .dead := by
    have hready : ProcState.ready ≠ .dead := by decide
    exact ⟨_, _, _, Run.cons trivial ⟨rfl, _, rfl⟩ <| Run.cons trivial ⟨rfl, _, rfl⟩ <|
      Run.cons (.inr (.inr ⟨hready, rfl⟩)) ⟨⟨rfl, Nat.succ_ne_zero 1⟩, _, rfl⟩ <|
      Run.cons trivial ⟨trivial, _, rfl⟩ <| Run.cons trivial ⟨trivial, _, rfl⟩ .nil,
      rfl, rfl, trivial, rfl⟩
  obtain ⟨s, s', ev, hrun, hex, hev, hen, hd⟩ := hrun
  exact ⟨s, s', ev, hrun, hex, hev,
    (teardown_safe (boot_booted _ _ _) hrun).1 _ s' ev hen trivial hex, .inl hd⟩

end Xos.Sched
