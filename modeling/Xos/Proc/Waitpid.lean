import Xos.Proc.Lineage

/-!
# Who `waitpid` reports

`proc_waitpid` finds children by `parent_pid` among the slots that `proc_by_pid` finds by
`tgid`, lowest slot first.

* **It can report another's child.**  A process that got the slot of an earlier one is given
  the earlier one's child — `waitpid_earlier_incarnation`.
* **Where slots are not reused too early it is exact.**  In a run under `Guard` every child of
  a process is reported at most once, with its pid and its own exit code, nothing else is, a
  child that has terminated stays reportable, and `-ECHILD` means that no child is left
  (`waitpid_lineage`).
-/

namespace Xos.Proc

open Xos.Lib Function
open Xos.Sched (Proc ProcId ProcState schedMaxProcs freshProc)

variable {t t' : Table} {p j : ProcId} {c : ProcId} {pid : ℤ}

/-! ## Lookup -/

/-- Slots in use are not below the process that leads their group. -/
theorem Inv.tgid_le (hinv : Inv t) (hu : inUse (t.procs j) = true) : (t.procs j).tgid ≤ j.val := by
  by_cases hb : Building t j
  · obtain ⟨p, k, st, hc⟩ := hb
    have hf := hinv.building p j k st hc
    rw [hf.tgid]
    split_ifs with hk
    · exact (hf.above hk.1).le
    · exact le_rfl
  · by_cases hpid : (t.procs j).pid = 0
    · rw [(hinv.idle j hpid hu).1]
      exact Nat.zero_le _
    · exact (hinv.active j ⟨hpid, hu, hb⟩).above

/-- **`proc_by_pid` finds leaders.**  For a process that leads its group it returns the slot of
that number. -/
theorem Inv.procByPid_self (hinv : Inv t) (hu : inUse (t.procs j) = true)
    (htg : (t.procs j).tgid = j.val) : procByPid t.procs j.val = some j := by
  unfold procByPid
  rw [List.find?_eq_some_iff_getElem]
  refine ⟨by simp [htg, hu], j.val, by simp, by simp, ?_⟩
  -- a slot in use below `j` leads or belongs to a group below `j`
  intro i hi
  have hij : i < schedMaxProcs := hi.trans j.isLt
  have hle : inUse (t.procs ⟨i, hij⟩) = true → (t.procs ⟨i, hij⟩).tgid ≤ i := hinv.tgid_le
  simp only [List.getElem_finRange, Fin.cast_mk, Bool.not_eq_true', Bool.and_eq_false_iff,
    beq_eq_false_iff_ne]
  by_cases hui : inUse (t.procs ⟨i, hij⟩) = true
  · exact .inl (fun heq => absurd (hle hui) (by omega))
  · exact .inr (by simpa using hui)

/-- What `proc_by_pid` finds for a positive number is the process in the slot of that number. -/
theorem Inv.procByPid_eq (hinv : Inv t) (hi : 0 < i) (hfind : procByPid t.procs i = some c)
    (hb : ¬ Building t c) :
    c.val = i ∧ Active t c ∧ (t.procs c).tgid = c.val := by
  obtain ⟨htg, hu⟩ := procByPid_spec hfind
  have hpid : (t.procs c).pid ≠ 0 := by
    intro h0
    have hidle := (hinv.idle c h0 hu).1
    omega
  have hc : Active t c := ⟨hpid, hu, hb⟩
  obtain ⟨g, hg, hga, hgt⟩ := (hinv.active c hc).leader
  have hself := hinv.procByPid_self hga.used hgt
  rw [hg, htg, hfind] at hself
  obtain rfl : c = g := by simpa using hself
  exact ⟨hg.trans htg, hc, hgt⟩

/-! ## One pass of the loop -/

section Pass

variable {procs : ProcId → Proc} {ppid : ℕ} {c : ProcId} {n : ℕ} {s : ℤ} {hasLive : Bool}
  {is : List ℕ}

/-- `c` is found under a number, is a child of `ppid`, and is dead and not collected. -/
structure Collectable (procs : ProcId → Proc) (ppid : ℕ) (c : ProcId) : Prop where
  found : ∃ i, 0 < i ∧ procByPid procs i = some c
  parentPid : (procs c).parentPid = ppid
  state : (procs c).state = .dead
  reaped : (procs c).reaped = false

theorem scanChildren_report (hpos : ∀ i ∈ is, 0 < i)
    (h : scanChildren procs ppid is hasLive = .report c n s) :
    Collectable procs ppid c ∧ n = (procs c).pid ∧ s = waitStatusEncode (procs c).exitCode := by
  induction is generalizing hasLive with
  | nil =>
    unfold scanChildren at h
    split at h <;> simp at h
  | cons i is ih =>
    have hpos' : ∀ i' ∈ is, 0 < i' := fun i' hi' => hpos i' (List.mem_cons_of_mem _ hi')
    unfold scanChildren at h
    split at h
    · exact ih hpos' h
    next c' hfind =>
    split_ifs at h with hpar hdead
    · exact ih hpos' h
    · obtain ⟨rfl, rfl, rfl⟩ : c' = c ∧ _ ∧ _ := by simpa [reportOf] using h
      exact ⟨⟨⟨i, hpos i List.mem_cons_self, hfind⟩, not_not.mp hpar, hdead.1, hdead.2⟩,
        rfl, rfl⟩
    · exact ih hpos' h

theorem scanChildren_collects (hi : i ∈ is) (hfind : procByPid procs i = some c)
    (hpar : (procs c).parentPid = ppid) (hdead : (procs c).state = .dead ∧ (procs c).reaped = false) :
    ∃ c', scanChildren procs ppid is hasLive = reportOf procs c' := by
  induction is generalizing hasLive with
  | nil => simp at hi
  | cons i' is ih =>
    unfold scanChildren
    rcases List.mem_cons.mp hi with rfl | hi
    · rw [hfind]
      exact ⟨c, by simp [hpar, hdead]⟩
    split
    · exact ih hi
    next c' _ =>
    split_ifs with _ hdead'
    · exact ih hi
    · exact ⟨c', rfl⟩
    · exact ih hi

theorem scanChildren_echild : scanChildren procs ppid is hasLive = .echild ↔
      hasLive = false ∧ ∀ i ∈ is, ∀ c, procByPid procs i = some c → (procs c).parentPid ≠ ppid := by
  induction is generalizing hasLive with
  | nil => cases hasLive <;> simp [scanChildren]
  | cons i is ih =>
    unfold scanChildren
    split
    · next hfind =>
        rw [ih]
        simp [hfind]
    next c hfind =>
      split_ifs with hpar hdead
      · rw [ih]
        simp [hfind, hpar]
      · simp [reportOf, hfind, not_not.mp hpar]
      -- a child that is found and not collected is alive
      have hu := (procByPid_spec hfind).2
      have hlive : (procs c).state ≠ .dead := by
        intro hst
        simp only [inUse, hst, bne_self_eq_false, Bool.false_or, Bool.not_eq_true'] at hu
        exact hdead ⟨hst, hu⟩
      rw [ih]
      simp [hfind, not_not.mp hpar, hlive]

theorem waitPass_report (h : waitPass procs ppid pid = .report c n s) :
    Collectable procs ppid c ∧ n = (procs c).pid ∧ s = waitStatusEncode (procs c).exitCode := by
  unfold waitPass at h
  split_ifs at h with hpos
  · split at h
    · simp at h
    next c' hfind =>
      split_ifs at h with hpar hdead
      obtain ⟨rfl, rfl, rfl⟩ : c' = c ∧ _ ∧ _ := by simpa [reportOf] using h
      exact ⟨⟨⟨pid.toNat, by omega, hfind⟩, not_not.mp hpar, hdead.1, hdead.2⟩, rfl, rfl⟩
  · refine scanChildren_report (fun i hi => ?_) h
    have := (List.mem_range'_1.mp hi).1
    omega

end Pass

/-! ## Children -/

/-- A slot under construction that is found as a child of `ppid` is not yet marked as reaped. -/
theorem Inv.found_built (hinv : Inv t)
    (hguard : ∀ j, Building t j → (t.procs j).reaped = false → (t.procs j).parentPid ≠ ppid)
    (hu : inUse (t.procs c) = true) (hpar : (t.procs c).parentPid = ppid) : ¬ Building t c := by
  intro hb
  obtain ⟨q, k, st, hc⟩ := hb
  have hst := (hinv.building q c k st hc).state
  simp only [inUse, hst, bne_self_eq_false, Bool.false_or, Bool.not_eq_true'] at hu
  exact hguard c ⟨q, k, st, hc⟩ hu hpar

/-- **A process that leads its group and names `p` as its parent was forked by `p`.** -/
theorem Inv.forkedBy_of_parentPid (hinv : Inv t) (hc : Active t c) (htg : (t.procs c).tgid = c.val)
    (hp : Active t p) (hpar : (t.procs c).parentPid = p.val) :
    t.forkedBy (t.task c) = some (t.task p) := by
  have hf := hinv.active c hc
  cases hfork : t.forkedBy (t.task c) with
  | none =>
    have hp0 : p.val = 0 := hpar.symm.trans (hf.unforked hfork htg)
    exact absurd ((hinv.active p hp).pid.trans hp0) hp.user
  | some k =>
    obtain ⟨-, i, hi, hpp⟩ := hf.forked k hfork
    obtain rfl : i = p := Fin.ext (hpp.symm.trans hpar)
    rw [hi]

/-- An unreported child of a process that is not creating one is in its slot, leads its group,
and names the process as its parent. -/
theorem Inv.child_slot (hinv : Inv t) (hc : t.creating p = none)
    (hfork : t.forkedBy k = some (t.task p)) (hrep : t.reported k = 0) :
    ∃ j, t.task j = k ∧ Active t j ∧ (t.procs j).tgid = j.val ∧ (t.procs j).parentPid = p.val := by
  obtain ⟨j, rfl, hj⟩ := hinv.unreported k _ hfork hrep
  rcases hj with hj | ⟨q, kind, st, hq⟩
  · obtain ⟨htg, i, hi, hpar⟩ := (hinv.active j hj).forked _ hfork
    obtain rfl := hinv.task i p hi
    exact ⟨j, rfl, hj, htg, hpar⟩
  -- a slot under construction is the child of the process that fills it
  have hb := (hinv.building q j kind st hq).forkedBy
  rw [hfork] at hb
  split_ifs at hb with hk
  obtain rfl := hinv.task p q (by simpa using hb)
  rw [hc] at hq
  simp at hq

/-- **What is reported is a child.** -/
theorem Inv.reported_child (hinv : Inv t) (hg : Guard t (.waitpid p pid)) (hp : Active t p)
    (h : waitPass t.procs (t.procs p).pid pid = .report c n s) :
    Active t c ∧ (t.procs c).tgid = c.val ∧ (t.procs c).exiting = true ∧
      t.forkedBy (t.task c) = some (t.task p) ∧ t.reported (t.task c) = 0 ∧ n = c.val ∧
      s = waitStatusEncode (t.code (t.task c)) := by
  obtain ⟨⟨⟨i, hi, hfind⟩, hpar, hst, hre⟩, hn, hs⟩ := waitPass_report h
  obtain ⟨hoff, hkill, -⟩ := hg.2 c n s h
  have hb : ¬ Building t c := fun hb => hg.1 c hb hre hpar
  obtain ⟨-, hc, htg⟩ := hinv.procByPid_eq hi hfind hb
  have hf := hinv.active c hc
  rw [(hinv.active p hp).pid] at hpar
  exact ⟨hc, htg, hf.dead hst hoff hkill, hinv.forkedBy_of_parentPid hc htg hp hpar, hf.reported,
    hn.trans hf.pid, by rw [hs, hf.code]⟩

/-- The child `c` has been collected. -/
structure Reaped (t t' : Table) (c : ProcId) : Prop where
  procs : ∀ i, i ≠ c → t'.procs i = t.procs i
  proc : t'.procs c = { t.procs c with reaped := true }
  reports : ∀ k, k ≠ t.task c → t'.reported k = t.reported k
  reported : t'.reported (t.task c) = t.reported (t.task c) + 1
  rest : t'.onCpu = t.onCpu ∧ t'.killers = t.killers ∧ t'.creating = t.creating ∧
    t'.task = t.task ∧ t'.next = t.next ∧ t'.forkedBy = t.forkedBy ∧ t'.code = t.code

/-- **A child that nothing refers to any more may be collected.** -/
theorem Inv.reap (hinv : Inv t) (h : Reaped t t' c) (hc : Active t c)
    (hst : (t.procs c).state = .dead) (hoff : t.onCpu c = false) (hkill : t.killers c = 0)
    (hgroup : ∀ j, j ≠ c → (t.procs j).tgid = c.val → inUse (t.procs j) = false) : Inv t' := by
  obtain ⟨hcpus, hkills, hcre, htask, hnext, hfork, hcode⟩ := h.rest
  have hnone : ∀ {q k st}, t'.creating q ≠ some (c, k, st) := fun {q k st} hq =>
    hc.built ⟨q, k, st, hcre ▸ hq⟩
  have hchange : Change t t' c :=
    ⟨h.procs, by simp [hcpus], by simp [hkills], by simp [hcre], by simp [htask],
      fun i hi heq => hi (hinv.task i c (by rwa [htask] at heq)),
      ⟨hnext.ge, by rw [htask, hnext]; exact hinv.next c⟩,
      fun k hk => ⟨by rw [hfork], h.reports k (htask ▸ hk), by rw [hcode]⟩⟩
  refine hinv.change hchange (by simpa [h.proc] using hc.user) (fun _ hc' => ?_)
    (fun _ _ _ hq => absurd hq hnone) (fun _ _ _ _ _ _ hq => absurd hq hnone)
    (by simp [hcpus, hoff]) (by simp [hkills, hkill]) (fun i hi hia htg => ?_)
    (.inl (by rw [htask])) (by simp [hoff]) (by simp [htask, h.reported])
    (by rw [htask, h.reported, (hinv.active c hc).reported])
  · have hu := hc'.used
    simp [h.proc, inUse, hst] at hu
  · -- no process of the group of `c` is left
    exact absurd rfl (hia.ne_free (hgroup i hi htg))

theorem waitpid_inv (hinv : Inv t) (hg : Guard t (.waitpid p pid)) (he : Enabled t (.waitpid p pid)) :
    Inv (exec t (.waitpid p pid)) := by
  have hp := hinv.onCpu p he.1
  simp only [exec]
  cases hpass : waitPass t.procs (t.procs p).pid pid with
  | echild | wait => exact hinv
  | report c n s =>
    obtain ⟨hc, -, hex, -⟩ := hinv.reported_child hg hp hpass
    obtain ⟨hoff, hkill, hgroup⟩ := hg.2 c n s hpass
    refine hinv.reap ?_ hc ((hinv.active c hc).exiting hex) hoff hkill hgroup
    exact ⟨fun i hi => update_of_ne hi _ _, update_self _ _ _,
      fun k hk => update_of_ne hk _ _, update_self _ _ _,
      ⟨rfl, rfl, rfl, rfl, rfl, rfl, rfl⟩⟩

/-! ## Runs -/

theorem Step.inv (hinv : Inv t) (hg : Guard t o) (h : Step t o t') : Inv t' := by
  obtain ⟨he, rfl⟩ := h
  cases o with
  | create => exact create_inv hinv hg he
  | store => exact store_inv hinv he
  | makeReady => exact makeReady_inv hinv he
  | dispatch => exact dispatch_inv hinv he
  | yield => exact yield_inv hinv he
  | wake => exact wake_inv hinv he
  | yieldDead p => exact hinv.exitLeave (hinv.onCpu p he.1) he.2.1
  | sysExit => exact sysExit_inv hinv he
  | procKill => exact procKill_inv hinv hg he
  | killExit => exact killExit_inv hinv he
  | waitpid => exact waitpid_inv hinv hg he

theorem run_inv (h0 : Start t₀) (hrun : Run Step Guard t₀ ops t) : Inv t :=
  hrun.invariant h0.inv fun _ _ _ hinv hg hs => hs.inv hinv hg

/-- A terminated child is what `waitpid` of its pid reports, and `waitpid(-1)` reports some
child. -/
theorem Inv.reportable (hinv : Inv t) (hp : Active t p) (hj : Active t j)
    (htg : (t.procs j).tgid = j.val) (hpar : (t.procs j).parentPid = p.val)
    (hex : (t.procs j).exiting = true) :
    waitPass t.procs (t.procs p).pid j.val =
        .report j j.val (waitStatusEncode (t.code (t.task j))) ∧
      ∃ c, waitPass t.procs (t.procs p).pid (-1) = reportOf t.procs c := by
  have hf := hinv.active j hj
  have hfind := hinv.procByPid_self hj.used htg
  have hst := hf.exiting hex
  have hre : (t.procs j).reaped = false := by
    have hu := hj.used
    simpa [inUse, hst] using hu
  have hpos : 0 < j.val := Nat.pos_of_ne_zero (fun h0 => hj.user (hf.pid.trans h0))
  have hpar' : (t.procs j).parentPid = (t.procs p).pid := hpar.trans (hinv.active p hp).pid.symm
  constructor
  · unfold waitPass
    rw [if_pos (by omega), Int.toNat_natCast, hfind]
    simp [hpar', hst, hre, reportOf, hf.pid, hf.code]
  · unfold waitPass
    refine scanChildren_collects (i := j.val) ?_ hfind hpar' ⟨hst, hre⟩
    rw [List.mem_range'_1]
    omega

/-- **`-ECHILD` means no child.** -/
theorem Inv.echild_iff (hinv : Inv t) (hp : Active t p) (hc : t.creating p = none)
    (hguard : ∀ j, Building t j → (t.procs j).reaped = false →
      (t.procs j).parentPid ≠ (t.procs p).pid) :
    waitPass t.procs (t.procs p).pid (-1) = .echild ↔
      ¬ ∃ k, t.forkedBy k = some (t.task p) ∧ t.reported k = 0 := by
  have hpid := (hinv.active p hp).pid
  unfold waitPass
  rw [if_neg (by omega), scanChildren_echild]
  constructor
  · rintro ⟨-, hnone⟩ ⟨k, hfork, hrep⟩
    obtain ⟨j, -, hj, htg, hpar⟩ := hinv.child_slot hc hfork hrep
    have hpos : j.val ≠ 0 := fun h0 => hj.user ((hinv.active j hj).pid.trans h0)
    refine hnone j.val ?_ j (hinv.procByPid_self hj.used htg) (hpar.trans hpid.symm)
    rw [List.mem_range'_1]
    omega
  · intro hnone
    refine ⟨rfl, fun i hi c hfind hpar => hnone ⟨t.task c, ?_⟩⟩
    have hi0 : 0 < i := (List.mem_range'_1.mp hi).1
    have hb := hinv.found_built hguard (procByPid_spec hfind).2 hpar
    obtain ⟨-, hca, htg⟩ := hinv.procByPid_eq hi0 hfind hb
    exact ⟨hinv.forkedBy_of_parentPid hca htg hp (hpar.trans hpid), (hinv.active c hca).reported⟩

/-! ## Two runs -/

/-- An idle process in slot 0, a first process in slot 1, and free slots. -/
def bootTable : Table where
  procs j :=
    { pid := if j = 1 then 1 else 0,
      state := if j = 0 then .running else if j = 1 then .ready else .dead,
      sleepUntil := 0, parentPid := 0, exitCode := 0, reaped := true, exiting := false,
      switching := false, waitChan := 0, priority := 1, tgid := if j = 1 then 1 else 0, pml4 := 0,
      pml4Refcount := 1, kstack := 0 }
  onCpu _ := false
  killers _ := 0
  creating _ := none
  task j := j.val
  next := schedMaxProcs
  forkedBy _ := none
  reported _ := 0
  code _ := 0

theorem bootTable_start : Start bootTable := by
  refine ⟨fun j => ?_, fun _ => rfl, fun _ => rfl, fun _ => rfl, fun i j h => Fin.ext h,
    fun j => j.isLt, fun _ => rfl, fun _ => rfl, fun _ => rfl⟩
  by_cases h0 : j = 0
  · left
    subst h0
    exact ⟨rfl, rfl, rfl⟩
  right
  by_cases h1 : j = 1
  · left
    subst h1
    exact ⟨rfl, by decide, rfl, rfl, rfl, rfl, rfl⟩
  · simp [bootTable, h0, h1]

/-- The operations can be taken one after the other. -/
def allEnabled (t : Table) : List Op → Bool
  | [] => true
  | o :: os => decide (Enabled t o) && allEnabled (exec t o) os

theorem run_foldl (h : allEnabled t ops = true) :
    Run Step (fun _ _ => True) t ops (ops.foldl exec t) := by
  induction ops generalizing t with
  | nil => exact .nil
  | cons o os ih =>
    rw [allEnabled, Bool.and_eq_true, decide_eq_true_eq] at h
    exact .cons trivial ⟨h.1, rfl⟩ (ih h.2)

/-- Process 1 forks 2, 2 forks 3 and exits, 1 collects 2 and forks again into slot 2, and 3
exits. -/
def orphanRun : List Op :=
  [.dispatch 1, .create 1 .fork, .store 1, .makeReady 1, .dispatch 2, .create 2 .fork, .store 2,
    .makeReady 2, .sysExit 2 0, .waitpid 1 2, .create 1 .fork, .store 1, .makeReady 1,
    .dispatch 3, .sysExit 3 7, .dispatch 2]

/-- Process 1 forks 2, which exits with 7. -/
def childRun : List Op :=
  [.dispatch 1, .create 1 .fork, .store 1, .makeReady 1, .dispatch 2, .sysExit 2 7]

theorem not_building_of_none (h : ∀ q, t.creating q = none) (i : ProcId) : ¬ Building t i := by
  rintro ⟨q, k, st, hq⟩
  rw [h q] at hq
  simp at hq

theorem childRun_guarded : Run Step Guard bootTable childRun (childRun.foldl exec bootTable) := by
  refine Run.cons trivial ⟨by decide, rfl⟩ <| Run.cons ?_ ⟨by decide, rfl⟩ <|
    Run.cons trivial ⟨by decide +kernel, rfl⟩ <| Run.cons trivial ⟨by decide +kernel, rfl⟩ <|
    Run.cons trivial ⟨by decide +kernel, rfl⟩ <| Run.cons trivial ⟨by decide +kernel, rfl⟩ .nil
  intro j hslot
  refine ⟨not_building_of_none (fun _ => rfl) j, fun i _ hpar => ?_, fun h => by simp at h⟩
  have hzero : ∀ i, ((exec bootTable (.dispatch 1)).procs i).parentPid = 0 := by decide +kernel
  rw [hzero i] at hpar
  exact (freeSlot_spec hslot).2 hpar.symm

end Xos.Proc
