import Xos.Lib.Run
import Xos.Proc.Table

/-!
# Lineage

`parent_pid` is a slot number and slots are reused, so it says who forked a process only
while nobody's slot is given away too early.  `Guard` is such a use of the table: a slot is
handed out only when nothing still names it, a thread sits above its leader, a kill does not
hit a slot under construction, and a child is collected only when it has left its CPU, no
kill of it is under way and its threads are gone.

* **the invariant** — `Inv`: what holds of a slot under construction (`BuildFacts`), of a slot
  that holds a process (`ActiveFacts`), and of the history;
* **the steps** — a step that changes the state of one process (`Inv.touch`), one that hands
  out a slot (`Inv.created`), and one that stores into a slot under construction
  (`Inv.filled`) keep it.
-/

namespace Xos.Proc

open Xos.Lib Function
open Xos.Sched (Proc ProcId ProcState schedMaxProcs freshProc)

variable {t t' : Table} {p j : ProcId} {k : Kind} {st : Stage} {v : Proc} {kind : Kind}
  {c : Option (ProcId × Kind × Stage)}

/-! ## The condition -/

/-- A process is filling the slot in `fork` or `clone`. -/
def Building (t : Table) (j : ProcId) : Prop := ∃ p k st, t.creating p = some (j, k, st)

/-- A slot that holds a process: not an idle one, not free, and not under construction. -/
structure Active (t : Table) (j : ProcId) : Prop where
  user : (t.procs j).pid ≠ 0
  used : inUse (t.procs j) = true
  built : ¬ Building t j

/-- The condition under which an operation is taken. -/
def Guard (t : Table) : Op → Prop
  | .create p kind => ∀ j, freeSlot t.procs = some j →
      ¬ Building t j ∧
      (∀ i, inUse (t.procs i) = true ∨ Building t i → (t.procs i).parentPid ≠ j.val) ∧
      (kind = .clone true → (t.procs p).tgid < j.val)
  | .procKill _ pid => ∀ j, procByPid t.procs pid = some j → ¬ Building t j
  | .waitpid p pid =>
    (∀ j, Building t j → (t.procs j).reaped = false →
      (t.procs j).parentPid ≠ (t.procs p).pid) ∧
    ∀ c n st, waitPass t.procs (t.procs p).pid pid = .report c n st →
      t.onCpu c = false ∧ t.killers c = 0 ∧
        ∀ j, j ≠ c → (t.procs j).tgid = c.val → inUse (t.procs j) = false
  | _ => True

/-! ## The invariant -/

/-- What holds of a slot `j` that `p` is filling. -/
structure BuildFacts (t : Table) (p j : ProcId) (k : Kind) (st : Stage) : Prop where
  parent : t.onCpu p = true
  state : (t.procs j).state = .dead
  exiting : (t.procs j).exiting = false
  onCpu : t.onCpu j = false
  killers : t.killers j = 0
  pid : (t.procs j).pid = j.val
  slot : j.val ≠ 0
  reported : t.reported (t.task j) = 0
  code : (t.procs j).exitCode = t.code (t.task j)
  forkedBy : t.forkedBy (t.task j) = if k = .clone true then none else some (t.task p)
  tgid : (t.procs j).tgid = if k = .clone true ∧ st = .done then (t.procs p).tgid else j.val
  reaped : (t.procs j).reaped = true ↔ st = .reapedStored ∨ (k = .clone true ∧ st = .done)
  parentPid : k ≠ .clone true → st = .done → (t.procs j).parentPid = p.val
  above : k = .clone true → (t.procs p).tgid < j.val

/-- What holds of a slot that holds a process. -/
structure ActiveFacts (t : Table) (j : ProcId) : Prop where
  pid : (t.procs j).pid = j.val
  leader : ∃ g : ProcId, g.val = (t.procs j).tgid ∧ Active t g ∧ (t.procs g).tgid = g.val
  above : (t.procs j).tgid ≤ j.val
  exiting : (t.procs j).exiting = true → (t.procs j).state = .dead
  running : (t.procs j).state = .running → t.onCpu j = true
  dead : (t.procs j).state = .dead → t.onCpu j = false → t.killers j = 0 →
    (t.procs j).exiting = true
  reported : t.reported (t.task j) = 0
  code : (t.procs j).exitCode = t.code (t.task j)
  forked : ∀ k, t.forkedBy (t.task j) = some k →
    (t.procs j).tgid = j.val ∧ ∃ i : ProcId, t.task i = k ∧ (t.procs j).parentPid = i.val
  unforked : t.forkedBy (t.task j) = none → (t.procs j).tgid = j.val →
    (t.procs j).parentPid = 0

/-- The invariant of guarded runs. -/
structure Inv (t : Table) : Prop where
  active : ∀ j, Active t j → ActiveFacts t j
  building : ∀ p j k st, t.creating p = some (j, k, st) → BuildFacts t p j k st
  builder : ∀ p p' j k k' st st', t.creating p = some (j, k, st) →
    t.creating p' = some (j, k', st') → p = p'
  onCpu : ∀ p, t.onCpu p = true → Active t p
  killers : ∀ j, 0 < t.killers j → Active t j
  idle : ∀ j, (t.procs j).pid = 0 → inUse (t.procs j) = true →
    (t.procs j).tgid = 0 ∧ (t.procs j).state = .running
  task : ∀ i j, t.task i = t.task j → i = j
  next : ∀ j, t.task j < t.next
  history : ∀ k, t.next ≤ k → t.forkedBy k = none ∧ t.reported k = 0
  unreported : ∀ k k', t.forkedBy k = some k' → t.reported k = 0 →
    ∃ j, t.task j = k ∧ (Active t j ∨ Building t j)
  once : ∀ k, t.reported k ≤ 1

theorem Start.inv (h : Start t) : Inv t where
  active j hj := by
    rcases h.slot j with ⟨h0, -⟩ | ⟨hpid, -, htg, hst, hpp, hex, hcode⟩ | ⟨hst, hr⟩
    · exact absurd h0 hj.user
    · exact ⟨hpid, ⟨j, htg.symm, hj, htg⟩, htg.le, by simp [hex], by simp [hst], by simp [hst],
        h.reported _, by rw [hcode, h.code], by simp [h.forkedBy], fun _ _ => hpp⟩
    · have hu := hj.used
      simp [inUse, hst, hr] at hu
  building := by simp [h.creating]
  builder := by simp [h.creating]
  onCpu := by simp [h.onCpu]
  killers := by simp [h.killers]
  idle j hpid hu := by
    rcases h.slot j with ⟨-, hidle⟩ | ⟨hpid', hnz, -⟩ | ⟨hst, hr⟩
    · exact hidle
    · exact absurd (hpid'.symm.trans hpid) hnz
    · simp [inUse, hst, hr] at hu
  task := h.task
  next := h.next
  history k _ := ⟨h.forkedBy k, h.reported k⟩
  unreported := by simp [h.forkedBy]
  once := by simp [h.reported]

/-! ## Slots a step leaves alone -/

/-- `t'` has in slot `j` the same process with the same history. -/
structure SameSlot (t t' : Table) (j : ProcId) : Prop where
  proc : t'.procs j = t.procs j
  onCpu : t'.onCpu j = t.onCpu j
  killers : t'.killers j = t.killers j
  task : t'.task j = t.task j
  forkedBy : t'.forkedBy (t.task j) = t.forkedBy (t.task j)
  reported : t'.reported (t.task j) = t.reported (t.task j)
  code : t'.code (t.task j) = t.code (t.task j)

theorem ActiveFacts.same (hf : ActiveFacts t j) (h : SameSlot t t' j)
    (hlead : ∀ g, g.val = (t.procs j).tgid → Active t g →
      Active t' g ∧ (t'.procs g).tgid = (t.procs g).tgid)
    (hpar : ∀ i : ProcId, (t.procs j).parentPid = i.val → t'.task i = t.task i) :
    ActiveFacts t' j := by
  obtain ⟨g, hg, hga, hgt⟩ := hf.leader
  obtain ⟨hga', hgt'⟩ := hlead g hg hga
  constructor <;> simp only [h.proc, h.onCpu, h.killers, h.task, h.reported, h.code, h.forkedBy]
  case leader => exact ⟨g, hg, hga', hgt'.trans hgt⟩
  case forked =>
    intro k hk
    obtain ⟨htg, i, hi, hpp⟩ := hf.forked k hk
    exact ⟨htg, i, (hpar i hpp).trans hi, hpp⟩
  exacts [hf.pid, hf.above, hf.exiting, hf.running, hf.dead, hf.reported, hf.code, hf.unforked]

theorem BuildFacts.same (hf : BuildFacts t p j k st) (h : SameSlot t t' j)
    (hcpu : t'.onCpu p = true) (htgid : (t'.procs p).tgid = (t.procs p).tgid)
    (htask : t'.task p = t.task p) : BuildFacts t' p j k st := by
  refine ⟨hcpu, ?_, ?_, ?_, ?_, ?_, hf.slot, ?_, ?_, ?_, ?_, ?_, ?_, ?_⟩
  all_goals simp only [h.proc, h.onCpu, h.killers, h.task, h.reported, h.code, h.forkedBy, htgid,
    htask]
  exacts [hf.state, hf.exiting, hf.onCpu, hf.killers, hf.pid, hf.reported, hf.code, hf.forkedBy,
    hf.tgid, hf.reaped, hf.parentPid, hf.above]
/-! ## Steps that change one slot -/

/-- `t'` differs from `t` in slot `j`, in who fills it, and in the history of the process there. -/
structure Change (t t' : Table) (j : ProcId) : Prop where
  procs : ∀ i, i ≠ j → t'.procs i = t.procs i
  cpus : ∀ i, i ≠ j → t'.onCpu i = t.onCpu i
  kills : ∀ i, i ≠ j → t'.killers i = t.killers i
  creating : ∀ q i k st, i ≠ j →
    (t'.creating q = some (i, k, st) ↔ t.creating q = some (i, k, st))
  tasks : ∀ i, i ≠ j → t'.task i = t.task i
  fresh : ∀ i, i ≠ j → t.task i ≠ t'.task j
  next : t.next ≤ t'.next ∧ t'.task j < t'.next
  history : ∀ k, k ≠ t'.task j → t'.forkedBy k = t.forkedBy k ∧ t'.reported k = t.reported k ∧
    t'.code k = t.code k

section

variable (h : Change t t' j) {i : ProcId} (hi : i ≠ j)
include h hi

theorem Change.building_iff : Building t' i ↔ Building t i := by
  simp only [Building, h.creating _ i _ _ hi]

theorem Change.active_iff : Active t' i ↔ Active t i := by
  have hb := (h.building_iff hi).not
  have hproc := h.procs i hi
  exact ⟨fun ha => ⟨hproc ▸ ha.user, hproc ▸ ha.used, hb.mp ha.built⟩,
    fun ha => ⟨hproc.symm ▸ ha.user, hproc.symm ▸ ha.used, hb.mpr ha.built⟩⟩

theorem Change.sameSlot : SameSlot t t' i := by
  obtain ⟨hfork, hrep, hcode⟩ := h.history _ (h.fresh i hi)
  exact ⟨h.procs i hi, h.cpus i hi, h.kills i hi, h.tasks i hi, hfork, hrep, hcode⟩

end

/-- **A step that changes one slot** keeps the invariant when the facts about this slot hold after
it, and the slot goes on holding its process or was one that nothing named. -/
theorem Inv.change (hinv : Inv t) (h : Change t t' j) (hpid : (t'.procs j).pid ≠ 0)
    (hself : (∀ i, i ≠ j → Active t i → Active t' i) → Active t' j → ActiveFacts t' j)
    (hbuild : ∀ q k st, t'.creating q = some (j, k, st) → BuildFacts t' q j k st)
    (hbuilder : ∀ q q' k k' st st', t'.creating q = some (j, k, st) →
      t'.creating q' = some (j, k', st') → q = q')
    (hcpu : t'.onCpu j = true → Active t' j) (hkill : 0 < t'.killers j → Active t' j)
    (hgroup : ∀ i, i ≠ j → Active t i → (t.procs i).tgid = j.val →
      Active t' j ∧ (t'.procs j).tgid = (t.procs j).tgid)
    (hnamed : t'.task j = t.task j ∨ ¬ (Active t j ∨ Building t j) ∧
      ∀ i, Active t i → (t.procs i).parentPid ≠ j.val)
    (hbusy : t.onCpu j = true → t.creating j ≠ none →
      t'.onCpu j = true ∧ (t'.procs j).tgid = (t.procs j).tgid ∧ t'.task j = t.task j)
    (hunreported : ∀ k, t'.forkedBy (t'.task j) = some k → t'.reported (t'.task j) = 0 →
      Active t' j ∨ Building t' j) (honce : t'.reported (t'.task j) ≤ 1) : Inv t' where
  active i hi := by
    obtain rfl | hij := eq_or_ne i j
    · exact hself (fun _ h' => (h.active_iff h').mpr) hi
    have hi' := (h.active_iff hij).mp hi
    refine (hinv.active i hi').same (h.sameSlot hij) (fun g hg hga => ?_) fun p hp => ?_
    · obtain rfl | hgj := eq_or_ne g j
      · exact hgroup i hij hi' hg.symm
      · exact ⟨(h.active_iff hgj).mpr hga, by rw [h.procs g hgj]⟩
    · obtain rfl | hpj := eq_or_ne p j
      · exact hnamed.resolve_right fun hno => hno.2 i hi' hp
      · exact h.tasks p hpj
  building q i k st hq := by
    obtain rfl | hij := eq_or_ne i j
    · exact hbuild q k st hq
    have hq' := (h.creating q i k st hij).mp hq
    have hf := hinv.building q i k st hq'
    obtain rfl | hqj := eq_or_ne q j
    · obtain ⟨h₁, h₂, h₃⟩ := hbusy hf.parent (by simp [hq'])
      exact hf.same (h.sameSlot hij) h₁ h₂ h₃
    · exact hf.same (h.sameSlot hij) (h.cpus q hqj ▸ hf.parent) (by rw [h.procs q hqj])
        (h.tasks q hqj)
  builder q q' i k k' st st' hq hq' := by
    obtain rfl | hij := eq_or_ne i j
    · exact hbuilder q q' k k' st st' hq hq'
    · rw [h.creating _ i _ _ hij] at hq hq'
      exact hinv.builder q q' i k k' st st' hq hq'
  onCpu q hq := by
    obtain rfl | hqj := eq_or_ne q j
    · exact hcpu hq
    · exact (h.active_iff hqj).mpr (hinv.onCpu q (h.cpus q hqj ▸ hq))
  killers i hi := by
    obtain rfl | hij := eq_or_ne i j
    · exact hkill hi
    · exact (h.active_iff hij).mpr (hinv.killers i (h.kills i hij ▸ hi))
  idle i hp hu := by
    have hij : i ≠ j := fun heq => hpid (heq ▸ hp)
    rw [h.procs i hij] at hp hu ⊢
    exact hinv.idle i hp hu
  task i i' heq := by
    by_cases hij : i = j <;> by_cases hij' : i' = j
    · rw [hij, hij']
    · rw [hij, h.tasks i' hij'] at heq
      exact absurd heq.symm (h.fresh i' hij')
    · rw [hij', h.tasks i hij] at heq
      exact absurd heq (h.fresh i hij)
    · rw [h.tasks i hij, h.tasks i' hij'] at heq
      exact hinv.task i i' heq
  next i := by
    obtain rfl | hij := eq_or_ne i j
    · exact h.next.2
    · exact h.tasks i hij ▸ (hinv.next i).trans_le h.next.1
  history k hk := by
    obtain ⟨hfork, hrep, -⟩ := h.history k (h.next.2.trans_le hk).ne'
    exact hfork ▸ hrep ▸ hinv.history k (h.next.1.trans hk)
  unreported k k' hk hr := by
    obtain rfl | hkj := eq_or_ne k (t'.task j)
    · exact ⟨j, rfl, hunreported k' hk hr⟩
    obtain ⟨hfork, hrep, -⟩ := h.history k hkj
    obtain ⟨i, rfl, hi⟩ := hinv.unreported k k' (hfork ▸ hk) (hrep ▸ hr)
    have hij : i ≠ j := by
      rintro rfl
      exact hnamed.elim (fun heq => hkj heq.symm) fun hno => hno.1 hi
    exact ⟨i, h.tasks i hij, by rwa [h.active_iff hij, h.building_iff hij]⟩
  once k := by
    obtain rfl | hkj := eq_or_ne k (t'.task j)
    · exact honce
    · exact (h.history k hkj).2.1 ▸ hinv.once k

/-! ## Steps that touch one process -/

/-- `t'` differs from `t` in the state of the process in slot `p` only. -/
structure Touch (t t' : Table) (p : ProcId) : Prop where
  procs : ∀ j, j ≠ p → t'.procs j = t.procs j
  cpus : ∀ j, j ≠ p → t'.onCpu j = t.onCpu j
  kills : ∀ j, j ≠ p → t'.killers j = t.killers j
  creating : t'.creating = t.creating
  task : t'.task = t.task
  next : t'.next = t.next
  forkedBy : t'.forkedBy = t.forkedBy
  reported : t'.reported = t.reported
  codes : ∀ k, k ≠ t.task p → t'.code k = t.code k
  pid : (t'.procs p).pid = (t.procs p).pid
  tgid : (t'.procs p).tgid = (t.procs p).tgid
  parentPid : (t'.procs p).parentPid = (t.procs p).parentPid
  code : (t'.procs p).exitCode = t'.code (t.task p)
  used : inUse (t'.procs p) = true
  exiting : (t'.procs p).exiting = true → (t'.procs p).state = .dead
  running : (t'.procs p).state = .running → t'.onCpu p = true
  dead : (t'.procs p).state = .dead → t'.onCpu p = false → t'.killers p = 0 →
    (t'.procs p).exiting = true
  busy : t.creating p ≠ none → t'.onCpu p = true

theorem Touch.active (h : Touch t t' p) (hp : Active t p) : Active t' p :=
  ⟨h.pid ▸ hp.user, h.used, by simpa only [Building, h.creating] using hp.built⟩

section

variable (hinv : Inv t)
include hinv

/-- **A step that touches one process keeps the invariant.** -/
theorem Inv.touch (hp : Active t p) (h : Touch t t' p) : Inv t' := by
  have hp' := h.active hp
  have hf := hinv.active p hp
  have htask : t'.task p = t.task p := by rw [h.task]
  have hnone : ∀ {q k st}, t'.creating q ≠ some (p, k, st) := fun {q k st} hq =>
    hp'.built ⟨q, k, st, hq⟩
  have hchange : Change t t' p := ⟨h.procs, h.cpus, h.kills, by simp [h.creating], by simp [h.task],
      fun i hi heq => hi (hinv.task i p (heq.trans htask)),
      ⟨h.next.ge, by rw [htask, h.next]; exact hinv.next p⟩,
      fun k hk => ⟨by rw [h.forkedBy], by rw [h.reported], h.codes k (htask ▸ hk)⟩⟩
  refine hinv.change hchange hp'.user (fun hkeep _ => ?_) (fun _ _ _ hq => absurd hq hnone)
    (fun _ _ _ _ _ _ hq => absurd hq hnone) (fun _ => hp') (fun _ => hp')
    (fun _ _ _ _ => ⟨hp', h.tgid⟩) (.inl htask) (fun _ hc => ⟨h.busy hc, h.tgid, htask⟩)
    (fun _ _ _ => .inl hp') (by rw [h.reported]; exact hinv.once _)
  obtain ⟨g, hg, hga, hgt⟩ := hf.leader
  refine ⟨h.pid.trans hf.pid, ⟨g, by rw [h.tgid, hg], ?_⟩, h.tgid.trans_le hf.above, h.exiting,
    h.running, h.dead, ?_, ?_, ?_, ?_⟩
  · obtain rfl | hgp := eq_or_ne g p
    · exact ⟨hp', h.tgid.trans hgt⟩
    · exact ⟨hkeep g hgp hga, by rw [h.procs g hgp, hgt]⟩
  all_goals simp only [h.reported, h.task, h.forkedBy, h.tgid, h.parentPid]
  exacts [hf.reported, h.code, hf.forked, hf.unforked]

theorem Inv.parked (h : t.creating p ≠ none) : t.onCpu p = true := by
  cases hc : t.creating p with
  | none => exact absurd hc h
  | some v =>
    obtain ⟨j, k, st⟩ := v
    exact (hinv.building p j k st hc).parent

/-- A slot whose state is not `DEAD` and whose process is not an idle one is active. -/
theorem Inv.active_of_state (hpid : (t.procs p).pid ≠ 0)
    (hst : (t.procs p).state ≠ .dead) : Active t p := by
  refine ⟨hpid, by simp [inUse, hst], ?_⟩
  rintro ⟨q, k, st, hc⟩
  exact hst (hinv.building q p k st hc).state

section

variable (hp : Active t p)
include hp

theorem Inv.exiting_false (hst : (t.procs p).state ≠ .dead) : (t.procs p).exiting = false := by
  by_contra hex
  exact hst ((hinv.active p hp).exiting (by simpa using hex))

theorem Touch.refl : Touch t t p :=
  have hf := hinv.active p hp
  ⟨fun _ _ => rfl, fun _ _ => rfl, fun _ _ => rfl, rfl, rfl, rfl, rfl, rfl, fun _ _ => rfl, rfl, rfl,
    rfl, hf.code, hp.used, hf.exiting, hf.running, hf.dead, hinv.parked⟩

/-- A store into the slot of a process that leaves its identity alone. -/
theorem touch_setProc (hid : v.pid = (t.procs p).pid ∧ v.tgid = (t.procs p).tgid ∧
      v.parentPid = (t.procs p).parentPid ∧ v.exitCode = (t.procs p).exitCode)
    (hused : inUse v = true) (hexit : v.exiting = true → v.state = .dead)
    (hrun : v.state = .running → t.onCpu p = true)
    (hdead : v.state = .dead → t.onCpu p = false → t.killers p = 0 → v.exiting = true) :
    Touch t (t.setProc p v) p := by
  have hv : (t.setProc p v).procs p = v := update_self ..
  exact { Touch.refl hinv hp with
    procs := fun j hj => update_of_ne hj _ _
    pid := by rw [hv, hid.1]
    tgid := by rw [hv, hid.2.1]
    parentPid := by rw [hv, hid.2.2.1]
    code := by rw [hv, hid.2.2.2]; exact (hinv.active p hp).code
    used := by rwa [hv]
    exiting := by rwa [hv]
    running := by rwa [hv]
    dead := by rwa [hv] }

theorem exitClaim_touch : Touch t (exitClaim t p) p := by
  unfold exitClaim
  split
  · exact .refl hinv hp
  · exact touch_setProc hinv hp ⟨rfl, rfl, rfl, rfl⟩ (by simp [inUse]) (fun _ => rfl) (by simp)
      (fun _ _ _ => rfl)

/-- After the claim the process is dead and nobody will claim it again. -/
theorem exitClaim_exiting :
    ((exitClaim t p).procs p).exiting = true ∧ ((exitClaim t p).procs p).state = .dead := by
  unfold exitClaim
  split
  · next hex => exact ⟨hex, (hinv.active p hp).exiting hex⟩
  · simp [Table.setProc]

theorem leave_touch (hrun : (t.procs p).state ≠ .running)
    (hdead : (t.procs p).state = .dead → (t.procs p).exiting = true)
    (hc : t.creating p = none) : Touch t (t.leave p) p :=
  { Touch.refl hinv hp with
    cpus := fun _ hj => update_of_ne hj _ _
    running := fun h => absurd h hrun
    dead := fun h _ _ => hdead h
    busy := fun h => absurd hc h }

/-- `proc_exit` of a process that then leaves its CPU. -/
theorem Inv.exitLeave (hc : t.creating p = none) : Inv ((exitClaim t p).leave p) := by
  have htouch := exitClaim_touch hinv hp
  have hinv' := hinv.touch hp htouch
  obtain ⟨hex, hst⟩ := exitClaim_exiting hinv hp
  refine hinv'.touch (htouch.active hp) (leave_touch hinv' (htouch.active hp) ?_ (fun _ => hex) ?_)
  · rw [hst]; decide
  · rw [htouch.creating, hc]

end

theorem dispatch_inv (he : Enabled t (.dispatch p)) : Inv (exec t (.dispatch p)) := by
  obtain ⟨hst, hpid⟩ := he
  have hlive : (t.procs p).state ≠ .dead := by rw [hst]; decide
  have hp := hinv.active_of_state hpid hlive
  have hex := hinv.exiting_false hp hlive
  refine hinv.touch hp ⟨fun j hj => update_of_ne hj _ _,
    fun j hj => update_of_ne hj _ _, fun _ _ => rfl, rfl, rfl, rfl, rfl, rfl,
    fun _ _ => rfl, ?_, ?_, ?_, ?_, ?_, ?_, ?_, ?_, ?_⟩
  all_goals simp [exec, Table.setProc, inUse, hex, (hinv.active p hp).code]

theorem yield_inv (he : Enabled t (.yield p blocked)) : Inv (exec t (.yield p blocked)) := by
  obtain ⟨hcpu, hc, hst⟩ := he
  have hp := hinv.onCpu p hcpu
  have hex := hinv.exiting_false hp (by rw [hst]; decide)
  have htouch : Touch t (t.setProc p { t.procs p with
      state := if blocked then .blocked else .ready }) p := by
    refine touch_setProc hinv hp ⟨rfl, rfl, rfl, rfl⟩ ?_ ?_ (fun _ => hcpu) ?_
    · cases blocked <;> rfl
    · simp [hex]
    · cases blocked <;> simp
  have hp' := htouch.active hp
  have hinv' := hinv.touch hp htouch
  refine hinv'.touch hp' (leave_touch hinv' hp' ?_ ?_ hc)
  all_goals cases blocked <;> simp [Table.setProc]

theorem wake_inv (he : Enabled t (.wake p)) : Inv (exec t (.wake p)) := by
  have hst : (t.procs p).state = .blocked := he
  have hlive : (t.procs p).state ≠ .dead := by rw [hst]; decide
  have hpid : (t.procs p).pid ≠ 0 := by
    intro h0
    simpa [hst] using (hinv.idle p h0 (by simp [inUse, hst])).2
  have hp := hinv.active_of_state hpid hlive
  have hex := hinv.exiting_false hp hlive
  exact hinv.touch hp (touch_setProc hinv hp ⟨rfl, rfl, rfl, rfl⟩ rfl (by simp [hex]) (by simp)
    (by simp))

theorem sysExit_inv (he : Enabled t (.sysExit p code)) : Inv (exec t (.sysExit p code)) := by
  obtain ⟨hcpu, hc⟩ := he
  have hp := hinv.onCpu p hcpu
  have hf := hinv.active p hp
  let u : Table := { t.setProc p { t.procs p with exitCode := code } with
    code := update t.code (t.task p) code }
  have htouch : Touch t u p := by
    refine ⟨fun j hj => update_of_ne hj _ _, fun _ _ => rfl, fun _ _ => rfl, rfl, rfl,
      rfl, rfl, rfl, fun k hk => update_of_ne hk _ _, ?_, ?_, ?_, ?_, ?_, ?_, ?_, ?_,
      hinv.parked⟩
    all_goals simp only [u, Table.setProc, update_self]
    exacts [hp.used, hf.exiting, hf.running, hf.dead]
  exact (hinv.touch hp htouch).exitLeave (htouch.active hp) hc

end

theorem procByPid_spec (h : procByPid procs pid = some j) :
    (procs j).tgid = pid ∧ inUse (procs j) = true := by
  have hj := List.find?_some h
  simpa only [Bool.and_eq_true, beq_iff_eq] using hj

theorem procKill_inv (hinv : Inv t) (hg : Guard t (.procKill p pid))
    (he : Enabled t (.procKill p pid)) : Inv (exec t (.procKill p pid)) := by
  obtain ⟨hcpu, hc⟩ := he
  show Inv (procKill t p pid)
  unfold procKill
  split
  · exact hinv
  next j hfind =>
  have hbuilt := hg j hfind
  split_ifs with hquit hself hrun
  · exact hinv
  all_goals
    rw [not_or] at hquit
    have hj : Active t j := ⟨hquit.1, (procByPid_spec hfind).2, hbuilt⟩
    have hf := hinv.active j hj
  · exact hinv.exitLeave hj (hself ▸ hc)
  · refine hinv.touch hj (touch_setProc hinv hj ⟨rfl, rfl, rfl, rfl⟩ (by simp [inUse]) (by simp)
      (by simp) ?_)
    -- the victim is still on its CPU, so it will reach `proc_exit` itself
    simp [hf.running hrun]
  · exact hinv.touch hj { Touch.refl hinv hj with
      kills := fun i hi => update_of_ne hi _ _
      dead := by simp }

theorem killExit_inv (hinv : Inv t) (he : Enabled t (.killExit p)) :
    Inv (exec t (.killExit p)) := by
  have hp := hinv.killers p he
  have htouch := exitClaim_touch hinv hp
  have hp' := htouch.active hp
  have hinv' := hinv.touch hp htouch
  exact hinv'.touch hp' { Touch.refl hinv' hp' with
    kills := fun j hj => (update_of_ne hj _ _).trans (htouch.kills j hj).symm
    dead := fun _ _ _ => (exitClaim_exiting hinv hp).1 }

/-! ## Construction -/

theorem freeSlot_spec (h : freeSlot t.procs = some j) : inUse (t.procs j) = false ∧ j.val ≠ 0 := by
  refine ⟨by simpa using List.find?_some h, ?_⟩
  -- the search starts at slot 1
  have htail : (List.finRange (255 + 1)).tail = (List.finRange 255).map Fin.succ := by
    rw [List.finRange_succ, List.tail_cons]
  have hmem : j ∈ (List.finRange (255 + 1)).tail := List.mem_of_find?_eq_some h
  rw [htail] at hmem
  obtain ⟨i, -, rfl⟩ := List.mem_map.1 hmem
  simp

theorem Active.ne_free (h : Active t p) (hj : inUse (t.procs j) = false) : p ≠ j := by
  rintro rfl
  simp [h.used] at hj

theorem Active.ne_building (h : Active t p) (hj : Building t j) : p ≠ j := by
  rintro rfl
  exact h.built hj

/-- `p` has been given the free slot `j`. -/
structure Created (t t' : Table) (p j : ProcId) (kind : Kind) : Prop where
  procs : ∀ i, i ≠ j → t'.procs i = t.procs i
  proc : t'.procs j = freshProc (t.procs j) j 0 0
  cpus : t'.onCpu = t.onCpu
  kills : t'.killers = t.killers
  others : ∀ q, q ≠ p → t'.creating q = t.creating q
  creating : t'.creating p = some (j, kind, .created)
  tasks : ∀ i, i ≠ j → t'.task i = t.task i
  task : t'.task j = t.next
  next : t'.next = t.next + 1
  forks : ∀ k, k ≠ t.next → t'.forkedBy k = t.forkedBy k
  forkedBy : t'.forkedBy t.next = if kind = .clone true then none else some (t.task p)
  reports : ∀ k, k ≠ t.next → t'.reported k = t.reported k
  reported : t'.reported t.next = 0
  codes : ∀ k, k ≠ t.next → t'.code k = t.code k
  code : t'.code t.next = 0

theorem create_created (h : freeSlot t.procs = some j) : Created t (create t p kind) p j kind := by
  unfold create
  rw [h]
  exact ⟨fun i hi => update_of_ne hi _ _, update_self _ _ _, rfl, rfl,
    fun q hq => update_of_ne hq _ _, update_self _ _ _,
    fun i hi => update_of_ne hi _ _, update_self _ _ _, rfl,
    fun i hi => update_of_ne hi _ _, update_self _ _ _,
    fun i hi => update_of_ne hi _ _, update_self _ _ _,
    fun i hi => update_of_ne hi _ _, update_self _ _ _⟩

/-- **A slot that nothing names may be handed out.** -/
theorem Inv.created (hinv : Inv t) (h : Created t t' p j kind) (hcpu : t.onCpu p = true)
    (hc : t.creating p = none) (hfree : inUse (t.procs j) = false) (hj0 : j.val ≠ 0)
    (hjb : ¬ Building t j)
    (hnamed : ∀ i, inUse (t.procs i) = true ∨ Building t i → (t.procs i).parentPid ≠ j.val)
    (habove : kind = .clone true → (t.procs p).tgid < j.val) : Inv t' := by
  have hpj := (hinv.onCpu p hcpu).ne_free hfree
  have hidle : ¬ Active t j := fun ha => ha.ne_free hfree rfl
  have hoff : t.onCpu j = false := by
    by_contra hon
    exact hidle (hinv.onCpu j (by simpa using hon))
  have hunkilled : t.killers j = 0 := by
    by_contra hk
    exact hidle (hinv.killers j (Nat.pos_of_ne_zero hk))
  have hfiller : ∀ q k st, t'.creating q = some (j, k, st) → q = p := fun q k st hq => by
    by_contra hqp
    exact hjb ⟨q, k, st, h.others q hqp ▸ hq⟩
  have hchange : Change t t' j := by
    refine ⟨h.procs, by simp [h.cpus], by simp [h.kills], fun q i k st hij => ?_, h.tasks,
      fun i _ => h.task ▸ (hinv.next i).ne, by rw [h.task, h.next]; omega, fun k hk => ?_⟩
    · obtain rfl | hqp := eq_or_ne q p
      · simp [h.creating, hc, Ne.symm hij]
      · rw [h.others q hqp]
    · rw [h.task] at hk
      exact ⟨h.forks k hk, h.reports k hk, h.codes k hk⟩
  refine hinv.change hchange (by simpa [h.proc, freshProc] using hj0)
    (fun _ hj => absurd ⟨p, kind, _, h.creating⟩ hj.built) (fun q k st hq => ?_)
    (fun q q' k k' st st' hq hq' => (hfiller q k st hq).trans (hfiller q' k' st' hq').symm)
    (by simp [h.cpus, hoff]) (by simp [h.kills, hunkilled]) (fun i _ hi htg => ?_)
    (.inr ⟨not_or.mpr ⟨hidle, hjb⟩, fun i hi => hnamed i (.inl hi.used)⟩) (by simp [hoff])
    (fun _ _ _ => .inr ⟨p, kind, _, h.creating⟩) (by simp [h.task, h.reported])
  · obtain rfl := hfiller q k st hq
    rw [h.creating] at hq
    obtain ⟨rfl, rfl⟩ : kind = k ∧ Stage.created = st := by simpa using hq
    have hdead : (t.procs j).state = .dead ∧ (t.procs j).reaped = true := by
      simpa [inUse] using hfree
    refine ⟨by rw [h.cpus]; exact hcpu, ?_, ?_, by rw [h.cpus]; exact hoff,
      by rw [h.kills]; exact hunkilled, ?_, hj0, ?_, ?_, ?_, ?_, ?_, by simp, ?_⟩
    case refine_7 | refine_8 => rw [h.proc]; simp [freshProc]
    all_goals simp only [h.proc, h.task, h.code, h.reported, h.forkedBy, h.tasks q hpj,
      h.procs q hpj, freshProc]
    exacts [hdead.1, habove]
  · -- the leader of a group is in place
    obtain ⟨g, hg, hga, -⟩ := (hinv.active i hi).leader
    exact absurd (Fin.ext (hg.trans htg)) (hga.ne_free hfree)

theorem create_inv (hinv : Inv t) (hg : Guard t (.create p kind)) (he : Enabled t (.create p kind)) :
    Inv (exec t (.create p kind)) := by
  obtain ⟨hcpu, hc⟩ := he
  show Inv (create t p kind)
  cases hslot : freeSlot t.procs with
  | none =>
    unfold create
    rw [hslot]
    exact hinv
  | some j =>
    obtain ⟨hfree, hj0⟩ := freeSlot_spec hslot
    obtain ⟨hjb, hnamed, habove⟩ := hg j hslot
    exact hinv.created (create_created hslot) hcpu hc hfree hj0 hjb hnamed habove

/-- `p` has stored into the slot `j` it is filling: the process there is now `v`, and `p` has
come to `c`. -/
structure Filled (t t' : Table) (p j : ProcId) (v : Proc)
    (c : Option (ProcId × Kind × Stage)) : Prop where
  procs : ∀ i, i ≠ j → t'.procs i = t.procs i
  proc : t'.procs j = v
  others : ∀ q, q ≠ p → t'.creating q = t.creating q
  creating : t'.creating p = c
  rest : t'.onCpu = t.onCpu ∧ t'.killers = t.killers ∧ t'.task = t.task ∧ t'.next = t.next ∧
    t'.forkedBy = t.forkedBy ∧ t'.reported = t.reported ∧ t'.code = t.code

/-- **A store into a slot under construction** keeps the invariant when the facts about this
slot hold after it: for the next stage, or, if the construction is over, as those of a
process. -/
theorem Inv.filled (hinv : Inv t) (hc : t.creating p = some (j, k, st)) (h : Filled t t' p j v c)
    (hstage : ∀ i k' st', c = some (i, k', st') → i = j ∧ BuildFacts t' p j k' st')
    (hv : v.pid = j.val)
    (hdone : c = none → inUse v = true ∧ ((∀ i, Active t i → Active t' i) → Active t' j →
      ActiveFacts t' j)) : Inv t' := by
  obtain ⟨hcpu, hkill, htask, hnext, hfork, hrep, hcode⟩ := h.rest
  have hf := hinv.building p j k st hc
  have hjb : Building t j := ⟨p, k, st, hc⟩
  have hpid : (t'.procs j).pid ≠ 0 := by rw [h.proc, hv]; exact hf.slot
  have hfiller : ∀ q k' st', t'.creating q = some (j, k', st') → q = p := fun q k' st' hq => by
    by_contra hqp
    exact hqp (hinv.builder q p j k' k st' st (h.others q hqp ▸ hq) hc)
  have hchange : Change t t' j := by
    refine ⟨h.procs, by simp [hcpu], by simp [hkill], fun q i k' st' hij => ?_, by simp [htask],
      fun i hi heq => hi (hinv.task i j (by rwa [htask] at heq)),
      ⟨hnext.ge, by rw [htask, hnext]; exact hinv.next j⟩, by simp [hfork, hrep, hcode]⟩
    obtain rfl | hqp := eq_or_ne q p
    · rw [h.creating, hc]
      exact ⟨fun hq => absurd (hstage i k' st' hq).1 hij, by simp [Ne.symm hij]⟩
    · rw [h.others q hqp]
  have hend : ¬ Building t' j → c = none := by
    intro hb
    cases hcc : c with
    | none => rfl
    | some x =>
      obtain ⟨i', k', st'⟩ := x
      obtain ⟨rfl, -⟩ := hstage i' k' st' hcc
      exact absurd ⟨p, k', st', by rw [h.creating, hcc]⟩ hb
  refine hinv.change hchange hpid (fun hkeep hj => (hdone (hend hj.built)).2
    (fun i hi => hkeep i (hi.ne_building hjb) hi) hj) (fun q k' st' hq => ?_)
    (fun q q' k k' st st' hq hq' => (hfiller q k st hq).trans (hfiller q' k' st' hq').symm)
    (by simp [hcpu, hf.onCpu]) (by simp [hkill, hf.killers]) (fun i _ hi htg => ?_)
    (.inl (by rw [htask])) (by simp [hf.onCpu]) (fun _ _ _ => ?_)
    (by rw [hrep]; exact hinv.once _)
  · obtain rfl := hfiller q k' st' hq
    exact (hstage j k' st' (h.creating ▸ hq)).2
  · obtain ⟨g, hg, hga, -⟩ := (hinv.active i hi).leader
    exact absurd (Fin.ext (hg.trans htg)) (hga.ne_building hjb)
  · by_cases hb : Building t' j
    · exact .inr hb
    · exact .inl ⟨hpid, h.proc ▸ (hdone (hend hb)).1, hb⟩

/-- The fields that `fill` does not store. -/
theorem fill_frame (parent child : Proc) (k : Kind) (st : Stage) :
    (fill parent child k st).1.pid = child.pid ∧
    (fill parent child k st).1.state = child.state ∧
    (fill parent child k st).1.exiting = child.exiting ∧
    (fill parent child k st).1.exitCode = child.exitCode := by
  unfold fill
  split <;> exact ⟨rfl, rfl, rfl, rfl⟩

/-- The lineage that `fill` stores. -/
theorem BuildFacts.fill (hf : BuildFacts t p j k st) (hst : st ≠ .done)
    (hpid : (t.procs p).pid = p.val) :
    let r := fill (t.procs p) (t.procs j) k st
    (r.1.tgid = if k = .clone true ∧ r.2 = .done then (t.procs p).tgid else j.val) ∧
    (r.1.reaped = true ↔ r.2 = .reapedStored ∨ (k = .clone true ∧ r.2 = .done)) ∧
    (k ≠ .clone true → r.2 = .done → r.1.parentPid = p.val) := by
  have htg := hf.tgid
  have hre := hf.reaped
  have hp := hf.pid
  rcases k with _ | thread
  · cases st <;> simp_all [Proc.fill]
  · cases thread <;> cases st <;> simp_all [Proc.fill]

theorem store_inv (hinv : Inv t) (he : Enabled t (.store p)) : Inv (exec t (.store p)) := by
  obtain ⟨j, k, st, hc, hst⟩ := he
  have hf := hinv.building p j k st hc
  have hp := hinv.onCpu p hf.parent
  have hpj := hp.ne_building ⟨p, k, st, hc⟩
  obtain ⟨htgid, hreaped, hparent⟩ := hf.fill hst (hinv.active p hp).pid
  obtain ⟨hpid, hstate, hexiting, hcode⟩ := fill_frame (t.procs p) (t.procs j) k st
  simp only [exec, hc]
  generalize fill (t.procs p) (t.procs j) k st = r at *
  have hfill : Filled t ({ t.setProc j r.1 with
      creating := update t.creating p (some (j, k, r.2)) }) p j r.1
      (some (j, k, r.2)) :=
    ⟨fun i hi => update_of_ne hi _ _, update_self _ _ _,
      fun q hq => update_of_ne hq _ _, update_self _ _ _,
      ⟨rfl, rfl, rfl, rfl, rfl, rfl, rfl⟩⟩
  refine hinv.filled hc hfill ?_ (hpid.trans hf.pid) (fun hn => by simp at hn)
  intro i k' st' heq
  obtain ⟨rfl, rfl, rfl⟩ : j = i ∧ k = k' ∧ r.2 = st' := by simpa using heq
  refine ⟨rfl, hf.parent, ?_, ?_, hf.onCpu, hf.killers, ?_, hf.slot, hf.reported, ?_, hf.forkedBy,
    ?_, ?_, ?_, ?_⟩
  all_goals simp only [Table.setProc, update_self, update_of_ne hpj, hstate, hexiting, hpid, hcode]
  exacts [hf.state, hf.exiting, hf.pid, hf.code, htgid, hreaped, hparent, hf.above]

theorem makeReady_inv (hinv : Inv t) (he : Enabled t (.makeReady p)) :
    Inv (exec t (.makeReady p)) := by
  obtain ⟨j, k, hc⟩ := he
  have hf := hinv.building p j k .done hc
  have hp := hinv.onCpu p hf.parent
  simp only [exec, hc]
  have hfill : Filled t ({ t.setProc j { t.procs j with state := .ready } with
      creating := update t.creating p none }) p j
      { t.procs j with state := .ready } none :=
    ⟨fun i hi => update_of_ne hi _ _, update_self _ _ _,
      fun q hq => update_of_ne hq _ _, update_self _ _ _,
      ⟨rfl, rfl, rfl, rfl, rfl, rfl, rfl⟩⟩
  generalize ({ t.setProc j { t.procs j with state := .ready } with
      creating := update t.creating p none } : Table) = u at *
  obtain ⟨hcpu, hkill, htask, -, hfork, hrep, hcode⟩ := hfill.rest
  refine hinv.filled hc hfill (fun i k' st' hn => by simp at hn) hf.pid
    (fun _ => ⟨rfl, fun hmono hj => ?_⟩)
  have hlineage : (∃ g : ProcId, g.val = (t.procs j).tgid ∧ Active u g ∧
        (u.procs g).tgid = g.val) ∧ (t.procs j).tgid ≤ j.val ∧
      (∀ k', t.forkedBy (t.task j) = some k' → (t.procs j).tgid = j.val ∧
        ∃ i, t.task i = k' ∧ (t.procs j).parentPid = i.val) ∧
      (t.forkedBy (t.task j) = none → (t.procs j).tgid = j.val → (t.procs j).parentPid = 0) := by
    have htgid := hf.tgid
    have hforked := hf.forkedBy
    by_cases hk : k = .clone true
    · simp only [hk, if_true] at htgid hforked
      have habove := hf.above hk
      rw [htgid, hforked]
      -- a thread is in the group of its parent, whose leader is in place
      obtain ⟨g, hg, hga, hgt⟩ := (hinv.active p hp).leader
      have hgj := hga.ne_building ⟨p, k, _, hc⟩
      refine ⟨⟨g, hg, hmono g hga, ?_⟩, habove.le, fun k' hk' => by simp at hk', ?_⟩
      · rw [hfill.procs g hgj]; exact hgt
      · exact fun _ hself => absurd hself (Nat.ne_of_lt habove)
    · simp only [hk, if_false] at htgid hforked
      have hparent := hf.parentPid hk rfl
      rw [htgid, hforked]
      refine ⟨⟨j, rfl, hj, ?_⟩, le_rfl, fun k' hk' => ⟨rfl, p, ?_, hparent⟩, fun hn => by simp at hn⟩
      · rw [hfill.proc]; exact htgid
      · simpa using hk'
  obtain ⟨hlead, habove, hforked, hunforked⟩ := hlineage
  constructor <;> simp only [hfill.proc, hrep, htask, hcode, hfork]
  case exiting | running | dead => simp [hf.exiting]
  exacts [hf.pid, hlead, habove, hf.reported, hf.code, hforked, hunforked]

end Xos.Proc
