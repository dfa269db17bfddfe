import Xos.Lib.Run
import Xos.Mem.Provenance

/-!
# Reference counts over whole runs

The calls of the physical memory manager, with a log beside it that counts for every frame how
often `pmm_ref_frame` and `pmm_unref_frame` were called since the frame was allocated.

* **`refcount_exact`** — while no count is taken to `REF_MAX`, a frame goes back to the pool with
  the call that drops its last reference, and with no other;
* **`saturated_frame_freed`** — a count that has stopped growing at `REF_MAX` still falls, because
  `pmm_unref_frame` decrements every count above one before it looks for `REF_MAX`: the frame is
  freed while a reference is left.
-/

namespace Xos.Mem.Counting

open Xos.Lib Function

/-- The manager, and for every frame that was ever allocated the numbers of `pmm_ref_frame` and
`pmm_unref_frame` calls since then. -/
structure State where
  pmm : Pmm
  log : ℕ → Option (ℕ × ℕ)

inductive Label where
  | allocFrame
  | allocContig (n : ℕ)
  | ref (f : ℕ)
  | unref (f : ℕ)
  deriving DecidableEq

/-- The state after an allocation: the frames whose bits it set have a new log. -/
def State.allocated (s : State) (p : Pmm) : State where
  pmm := p
  log f := if s.pmm.used f = false ∧ p.used f = true then some (0, 0) else s.log f

/-- The calls. -/
def exec (s : State) : Label → State
  | .allocFrame => s.allocated s.pmm.allocFrame.2
  | .allocContig n => s.allocated (s.pmm.allocContig n).2
  | .ref f =>
    { pmm := s.pmm.refFrame f
      log := update s.log f ((s.log f).map fun c => (c.1 + 1, c.2)) }
  | .unref f =>
    { pmm := s.pmm.unrefFrame f
      log := update s.log f ((s.log f).map fun c => (c.1, c.2 + 1)) }

def Step (s : State) (l : Label) (t : State) : Prop := exec s l = t

/-- Right after `pmm_init`, what is used has one owner. -/
def start (p : Pmm) : State where
  pmm := p
  log f := if p.used f then some (0, 0) else none

/-- Somebody has a reference to the frame. -/
def Held (s : State) (f : ℕ) : Prop :=
  f < s.pmm.total ∧ ∃ c, s.log f = some c ∧ c.2 ≤ c.1

/-- References are added to and dropped from frames that the caller holds. -/
def Guard (s : State) : Label → Prop
  | .ref f => Held s f
  | .unref f => Held s f
  | _ => True

/-- And no count is taken to `REF_MAX`. -/
def Unsaturated (s : State) (l : Label) : Prop :=
  Guard s l ∧ ∀ f, l = .ref f → s.pmm.refcnt f + 1 < refMax

variable {s t : State} {l : Label} {ls : List Label} {f g : ℕ} {p : Pmm}

/-! ## The invariant -/

/-- What the count and the bit of a frame say, by its log. -/
def Tally (s : State) (f : ℕ) : Prop :=
  match s.log f with
  | none => s.pmm.used f = false
  | some (r, u) => u ≤ r + 1 ∧ s.pmm.refcnt f = r + 1 - u ∧ (s.pmm.used f = true ↔ u ≤ r)

theorem Tally.of_none (h : Tally s f) (hl : s.log f = none) : s.pmm.used f = false := by
  unfold Tally at h
  rwa [hl] at h

theorem Tally.of_some (h : Tally s f) (hl : s.log f = some (r, u)) :
    u ≤ r + 1 ∧ s.pmm.refcnt f = r + 1 - u ∧ (s.pmm.used f = true ↔ u ≤ r) := by
  unfold Tally at h
  rwa [hl] at h

theorem Tally.mk_some (hl : s.log f = some (r, u)) (h1 : u ≤ r + 1)
    (h2 : s.pmm.refcnt f = r + 1 - u) (h3 : s.pmm.used f = true ↔ u ≤ r) : Tally s f := by
  unfold Tally
  rw [hl]
  exact ⟨h1, h2, h3⟩

/-- A frame that a call leaves alone keeps its tally. -/
theorem Tally.congr (h : Tally s f) (hl : t.log f = s.log f) (hu : t.pmm.used f = s.pmm.used f)
    (hc : t.pmm.refcnt f = s.pmm.refcnt f) : Tally t f := by
  unfold Tally at h ⊢
  rw [hl, hu, hc]
  exact h

structure Inv (s : State) : Prop where
  total : s.pmm.total ≤ maxFrames
  tally : ∀ f, f < s.pmm.total → Tally s f

section

variable (hI : Inv s)
include hI

/-- An allocation that sets the bits of `S`, all of them free, with count one. -/
theorem Inv.allocated {S : Set ℕ} (htotal : p.total = s.pmm.total)
    (hfree : ∀ f, f ∈ S → s.pmm.used f = false)
    (hnew : ∀ f, f ∈ S → p.used f = true ∧ p.refcnt f = 1)
    (hold : ∀ f, f ∉ S → p.used f = s.pmm.used f ∧ p.refcnt f = s.pmm.refcnt f) :
    Inv (s.allocated p) := by
  refine ⟨htotal.trans_le hI.total, fun f hf => ?_⟩
  have hf : f < s.pmm.total := htotal ▸ hf
  by_cases hS : f ∈ S
  · obtain ⟨hu, hc⟩ := hnew f hS
    have hlog : (s.allocated p).log f = some (0, 0) := if_pos ⟨hfree f hS, hu⟩
    exact Tally.mk_some hlog (by omega) hc (by simp [State.allocated, hu])
  obtain ⟨hu, hc⟩ := hold f hS
  have hlog : (s.allocated p).log f = s.log f := if_neg fun ⟨h1, h2⟩ => by
    simp [hu, h1] at h2
  exact (hI.tally f hf).congr hlog hu hc

theorem Inv.allocFrame : Inv (exec s .allocFrame) := by
  rcases s.pmm.allocFrame_cases with ⟨f, -, hu, heq⟩ | heq
  · refine hI.allocated (S := {f}) (by rw [heq]; rfl) (fun g hg => ?_) (fun g hg => ?_)
      fun g hg => ?_
    · obtain rfl := hg
      exact hu
    · obtain rfl := hg
      rw [heq]
      simp
    · have hg : g ≠ f := hg
      rw [heq]
      simp [hg]
  · refine hI.allocated (S := ∅) (by rw [heq]) nofun nofun fun g _ => ?_
    rw [heq]
    exact ⟨rfl, rfl⟩

theorem Inv.allocContig {n : ℕ} : Inv (exec s (.allocContig n)) := by
  rcases allocContig_cases s.pmm n with ⟨a, -, hfree, heq⟩ | heq
  · refine hI.allocated (S := {f | a ≤ f ∧ f < a + n}) (by rw [heq]; rfl)
      (fun g hg => hfree g hg.1 hg.2) (fun g hg => ?_) fun g hg => ?_
    · rw [heq]
      exact ⟨takeRange_used.mpr (.inr hg), if_pos hg⟩
    · rw [heq]
      exact ⟨if_neg hg, if_neg hg⟩
  · refine hI.allocated (S := ∅) (by rw [heq]) nofun nofun fun g _ => ?_
    rw [heq]
    exact ⟨rfl, rfl⟩

theorem Inv.ref (hg : Unsaturated s (.ref f)) : Inv (exec s (.ref f)) := by
  obtain ⟨⟨hf, ⟨r, u⟩, hlog, hle⟩, hsat⟩ := hg
  obtain ⟨-, hcnt, hused⟩ := (hI.tally f hf).of_some hlog
  have hmax := hsat f rfl
  have heq := Pmm.refFrame_of_lt hf hI.total (by omega) (by omega)
  refine ⟨Pmm.refFrame_total.trans_le hI.total, fun g hg => ?_⟩
  have hg : g < s.pmm.total := Pmm.refFrame_total ▸ hg
  by_cases hgf : g = f
  · subst hgf
    have hlog' : (exec s (.ref g)).log g = some (r + 1, u) := by
      simp [exec, hlog]
    refine Tally.mk_some hlog' (by omega) ?_ ?_
    · show (s.pmm.refFrame g).refcnt g = _
      rw [heq]
      simp only [update_self]
      omega
    · show (s.pmm.refFrame g).used g = true ↔ _
      rw [Pmm.refFrame_used, hused]
      omega
  · refine (hI.tally g hg).congr (update_of_ne hgf _ _) ?_ ?_
    · exact congrFun Pmm.refFrame_used g
    · show (s.pmm.refFrame f).refcnt g = _
      rw [heq]
      exact update_of_ne hgf _ _

theorem Inv.unref (hh : Held s f) : Inv (exec s (.unref f)) := by
  obtain ⟨hf, ⟨r, u⟩, hlog, hle⟩ := hh
  obtain ⟨-, hcnt, hused⟩ := (hI.tally f hf).of_some hlog
  have hu : s.pmm.used f = true := hused.mpr hle
  refine ⟨Pmm.unrefFrame_total.trans_le hI.total, fun g hg => ?_⟩
  have hg : g < s.pmm.total := Pmm.unrefFrame_total ▸ hg
  obtain ⟨hcnt', hused'⟩ := Pmm.unrefFrame_spec hf hI.total hu (by omega)
  by_cases hgf : g = f
  · subst hgf
    have hlog' : (exec s (.unref g)).log g = some (r, u + 1) := by
      simp [exec, hlog]
    refine Tally.mk_some hlog' (by omega) ?_ ?_
    · show (s.pmm.unrefFrame g).refcnt g = _
      rw [hcnt', update_self]
      omega
    · show (s.pmm.unrefFrame g).used g = true ↔ _
      rw [hused', update_self, decide_eq_true_iff]
      omega
  · refine (hI.tally g hg).congr (update_of_ne hgf _ _) ?_ ?_
    · exact (congrFun hused' g).trans (update_of_ne hgf _ _)
    · exact (congrFun hcnt' g).trans (update_of_ne hgf _ _)

/-- **One call.** -/
theorem Inv.exec (hg : Unsaturated s l) : Inv (exec s l) := by
  cases l with
  | allocFrame => exact hI.allocFrame
  | allocContig => exact hI.allocContig
  | ref => exact hI.ref hg
  | unref => exact hI.unref hg.1

end

theorem exec_total (s : State) (l : Label) : (exec s l).pmm.total = s.pmm.total := by
  cases l with
  | allocFrame =>
    show (s.pmm.allocFrame.2).total = _
    rcases s.pmm.allocFrame_cases with ⟨f, -, -, heq⟩ | heq
    · rw [heq]
      rfl
    · rw [heq]
  | allocContig n =>
    show ((s.pmm.allocContig n).2).total = _
    rcases allocContig_cases s.pmm n with ⟨a, -, -, heq⟩ | heq
    · rw [heq]
      rfl
    · rw [heq]
  | ref => exact Pmm.refFrame_total
  | unref => exact Pmm.unrefFrame_total

/-- Only `pmm_unref_frame` clears a bit, and only that of its frame. -/
theorem exec_clears (hu : s.pmm.used f = true) (hc : (exec s l).pmm.used f = false) :
    l = .unref f := by
  cases l with
  | allocFrame =>
    have hc : s.pmm.allocFrame.2.used f = false := hc
    rcases s.pmm.allocFrame_cases with ⟨g, -, hg, heq⟩ | heq
    · rw [heq] at hc
      by_cases hfg : f = g
      · subst hfg
        simp at hc
      · simp [update_of_ne hfg, hu] at hc
    · simp [heq, hu] at hc
  | allocContig n =>
    have hc : (s.pmm.allocContig n).2.used f = false := hc
    rcases allocContig_cases s.pmm n with ⟨a, -, -, heq⟩ | heq
    · simp [heq, takeRange_used.mpr (.inl hu)] at hc
    · simp [heq, hu] at hc
  | ref g =>
    have hc : (s.pmm.refFrame g).used f = false := hc
    simp [hu] at hc
  | unref g =>
    by_contra hne
    have hfg : f ≠ g := fun heq => hne (by rw [heq])
    have hc : (s.pmm.unrefFrame g).used f = false := hc
    have hsame : (s.pmm.unrefFrame g).used f = s.pmm.used f := by
      unfold Pmm.unrefFrame
      split
      · rfl
      split
      · split
        · rfl
        split
        · rfl
        · exact update_of_ne hfg _ _
      · exact update_of_ne hfg _ _
    simp [hsame, hu] at hc

/-! ## Boot -/

theorem freeRegions_total (memmap : List Region) (p : Pmm) (hp : p.total ≤ maxFrames) :
    (memmap.foldl freeRegion p).total ≤ maxFrames := by
  induction memmap generalizing p with
  | nil => exact hp
  | cons e es ih =>
    refine ih _ ?_
    unfold freeRegion
    split
    · exact max_le hp (min_le_right _ _)
    · exact hp

/-- **After `pmm_init`.** -/
theorem Inv.start (h : pmmInit memmap = some (table, p)) : Inv (start p) := by
  have hbits : (pmmBitmap memmap).total ≤ maxFrames := freeRegions_total memmap _ (Nat.zero_le _)
  have hp : p.total ≤ maxFrames ∧ ∀ f, p.refcnt f = if f < p.total ∧ p.used f then 1 else 0 := by
    unfold pmmInit at h
    dsimp only at h
    rcases allocContig_cases (pmmBitmap memmap) (((pmmBitmap memmap).total + 4095) / 4096) with
      ⟨a, -, -, heq⟩ | heq
    · rw [heq] at h
      split at h
      · cases h
      next hcall =>
        cases hcall
        cases h
        exact ⟨hbits, fun _ => rfl⟩
    · simp [heq] at h
  refine ⟨hp.1, fun f hf => ?_⟩
  unfold Tally
  cases hu : p.used f with
  | true =>
    have hlog : (Counting.start p).log f = some (0, 0) := if_pos hu
    rw [hlog]
    refine ⟨by omega, ?_, by simp [Counting.start, hu]⟩
    show p.refcnt f = 1
    rw [hp.2, if_pos ⟨hf, hu⟩]
  | false =>
    have hlog : (Counting.start p).log f = none := if_neg (by simp [hu])
    rw [hlog]
    exact hu

/-! ## The results -/

/-- **Counting is exact.**  In every state that an unsaturated run reaches, a frame that was
allocated is back in the pool if and only if it was unreferenced once more than it was referenced;
and a call gives a frame back if and only if it is the `pmm_unref_frame` that makes it so. -/
theorem refcount_exact {memmap : List Region} {table : ℕ}
    (hinit : pmmInit memmap = some (table, p)) (hrun : Run Step Unsaturated (start p) ls s)
    (hf : f < s.pmm.total) :
    (s.log f = none → s.pmm.used f = false) ∧
    (∀ r u, s.log f = some (r, u) → (s.pmm.used f = false ↔ u = r + 1)) ∧
    ∀ l, Unsaturated s l → ((s.pmm.used f = true ∧ (exec s l).pmm.used f = false) ↔
      l = .unref f ∧ ∃ r, (exec s l).log f = some (r, r + 1)) := by
  have hI : Inv s := hrun.invariant (I := Inv) (Inv.start hinit) fun s l t hI hg hstep => by
    obtain rfl : Counting.exec s l = t := hstep
    exact hI.exec hg
  have htally := hI.tally f hf
  refine ⟨htally.of_none, fun r u hlog => ?_, fun l hg => ⟨?_, ?_⟩⟩
  · obtain ⟨hle, -, hused⟩ := htally.of_some hlog
    rw [← Bool.not_eq_true, hused]
    omega
  · rintro ⟨hu, hc⟩
    obtain rfl := exec_clears hu hc
    obtain ⟨-, ⟨r, u⟩, hlog, hle⟩ := hg.1
    have hlog' : (exec s (.unref f)).log f = some (r, u + 1) := by
      simp [exec, hlog]
    obtain ⟨-, -, hused'⟩ := ((hI.exec hg).tally f (by rwa [exec_total])).of_some hlog'
    have hnot : ¬u + 1 ≤ r := fun h => by
      simp [hused'.mpr h] at hc
    obtain rfl : u = r := by omega
    exact ⟨rfl, u, hlog'⟩
  · rintro ⟨rfl, r, hlog'⟩
    obtain ⟨-, ⟨r', u⟩, hlog, -⟩ := hg.1
    have heq : (exec s (.unref f)).log f = some (r', u + 1) := by
      simp [exec, hlog]
    rw [heq] at hlog'
    cases hlog'
    refine ⟨(htally.of_some hlog).2.2.mpr le_rfl, ?_⟩
    obtain ⟨-, -, hused'⟩ := ((hI.exec hg).tally f (by rwa [exec_total])).of_some heq
    rw [← Bool.not_eq_true, hused']
    omega

/-! ## Runs by computation -/

/-- Decision procedure for `Guard`. -/
def guardb (s : State) : Label → Bool
  | .ref f | .unref f => decide (f < s.pmm.total) && (s.log f).any fun c => decide (c.2 ≤ c.1)
  | _ => true

theorem guardb_sound (h : guardb s l = true) : Guard s l := by
  have hheld : ∀ f, (decide (f < s.pmm.total) && (s.log f).any fun c => decide (c.2 ≤ c.1)) = true →
      Held s f := by
    intro f hf
    obtain ⟨h1, h2⟩ := Bool.and_eq_true_iff.mp hf
    obtain ⟨c, hc, hle⟩ := (Option.any_eq_true _ _).mp h2
    exact ⟨of_decide_eq_true h1, c, hc, of_decide_eq_true hle⟩
  cases l with
  | allocFrame | allocContig => trivial
  | ref f | unref f => exact hheld f h

/-- Decision procedure for `Unsaturated`. -/
def unsaturatedb (s : State) (l : Label) : Bool :=
  guardb s l && match l with
    | .ref f => decide (s.pmm.refcnt f + 1 < refMax)
    | _ => true

theorem unsaturatedb_sound (h : unsaturatedb s l = true) : Unsaturated s l := by
  obtain ⟨h1, h2⟩ := Bool.and_eq_true_iff.mp h
  refine ⟨guardb_sound h1, ?_⟩
  rintro f rfl
  exact of_decide_eq_true h2

/-- All steps of a run meet a condition. -/
def allb (ok : State → Label → Bool) : State → List Label → Bool
  | _, [] => true
  | s, l :: ls => ok s l && allb ok (exec s l) ls

theorem allb_sound {guard : State → Label → Prop} (hok : ∀ s l, ok s l = true → guard s l)
    (h : allb ok s ls = true) :
    Run Step guard s ls (ls.foldl exec s) := by
  induction ls generalizing s with
  | nil => exact .nil
  | cons l ls ih =>
    obtain ⟨h1, h2⟩ := Bool.and_eq_true_iff.mp h
    exact Run.cons (hok s l h1) rfl (ih h2)

/-- Three usable frames after the first mebibyte; the table of counts takes the first. -/
def threeFrames : List Region := [{ base := 0x100000, length := 0x3000, usable := true }]

/-- A frame is allocated, shared `n` times and dropped `m` times. -/
def shareAndDrop (f n m : ℕ) : List Label :=
  .allocFrame :: (List.replicate n (.ref f) ++ List.replicate m (.unref f))

/-- A frame that is shared once and dropped once is still there. -/
theorem shared_frame_kept : ∃ table p s, pmmInit threeFrames = some (table, p) ∧
    Run Step Unsaturated (start p) (shareAndDrop 257 1 1) s ∧ s.log 257 = some (1, 1) ∧
    ¬s.pmm.used 257 = false := by
  have hcalc : (pmmInit threeFrames).map (fun r =>
      allb unsaturatedb (start r.2) (shareAndDrop 257 1 1) &&
      decide (((shareAndDrop 257 1 1).foldl exec (start r.2)).log 257 = some (1, 1)) &&
      decide (257 < ((shareAndDrop 257 1 1).foldl exec (start r.2)).pmm.total)) = some true := by
    decide +kernel
  obtain ⟨⟨table, p⟩, hinit, hres⟩ := Option.map_eq_some_iff.mp hcalc
  simp only [Bool.and_eq_true, decide_eq_true_eq] at hres
  obtain ⟨⟨hguard, hlog⟩, htotal⟩ := hres
  have hrun := allb_sound (fun _ _ => unsaturatedb_sound) hguard
  refine ⟨table, p, _, hinit, hrun, hlog, fun hfree => ?_⟩
  have := ((refcount_exact hinit hrun htotal).2.1 1 1 hlog).mp hfree
  omega

/-- **A saturated frame is freed.**  256 references to a frame are made and 255 of them are dropped,
each by a caller that holds one: the frame goes back to the pool. -/
theorem saturated_frame_freed : ∃ table p s, pmmInit threeFrames = some (table, p) ∧
    Run Step Guard (start p) (shareAndDrop 257 255 255) s ∧
    s.log 257 = some (255, 255) ∧ s.pmm.used 257 = false := by
  have hcalc : (pmmInit threeFrames).map (fun r =>
      allb guardb (start r.2) (shareAndDrop 257 255 255) &&
      decide (((shareAndDrop 257 255 255).foldl exec (start r.2)).log 257 = some (255, 255)) &&
      !((shareAndDrop 257 255 255).foldl exec (start r.2)).pmm.used 257) = some true := by
    decide +kernel
  obtain ⟨⟨table, p⟩, hinit, hres⟩ := Option.map_eq_some_iff.mp hcalc
  simp only [Bool.and_eq_true, Bool.not_eq_true', decide_eq_true_eq] at hres
  obtain ⟨⟨hguard, hlog⟩, hfree⟩ := hres
  exact ⟨table, p, _, hinit, allb_sound (fun _ _ => guardb_sound) hguard, hlog, hfree⟩

end Xos.Mem.Counting
