import Xos.Mem.Mapping

/-!
# Taking an address space apart

`vmm_destroy_user` drops one reference for every page and every table of a space, and clears
the entry that led there.  `Cleared` says what is left: the places in `B` lead nowhere, all
others lead where they did, and every count went down with the number of holders.
-/

namespace Xos.Mem

open Xos.Lib.Radix Function

variable {R A : Set ℕ} {s t u : Ram} {f g i r : ℕ} {p q : List ℕ} {B B' : List ℕ → Prop}
  {inner : ℕ → Ram → Ram}

/-- From `s` to `t` the places `(r, p)` with `B p` were cleared and their references dropped. -/
structure Cleared (R A : Set ℕ) (r : ℕ) (B : List ℕ → Prop) (s t : Ram) : Prop
    extends Steady R s t where
  gone : ∀ p, B p → t.view A (r, p) = none
  kept : ∀ x, ¬(x.1 = r ∧ B x.2) → t.view A x = s.view A x
  slack : ∀ f, f < s.pmm.total →
    t.pmm.refcnt f + s.held A f = s.pmm.refcnt f + t.held A f
  /-- Only tables of the space are written to. -/
  data : ∀ f, (∀ p, s.view A (r, p) = some f → 4 ≤ p.length) → t.mem f = s.mem f
  freed : ∀ f, t.pmm.used f = true → s.pmm.used f = true

namespace Cleared

theorem sub (h : Cleared R A r B s t) (hx : t.view A x = some f) : s.view A x = some f := by
  by_cases hB : x.1 = r ∧ B x.2
  · have := h.gone x.2 hB.2
    rw [← hB.1] at this
    rw [this] at hx
    cases hx
  · rwa [h.kept x hB] at hx

theorem refl (h : ∀ p, B p → s.view A (r, p) = none) : Cleared R A r B s s := { Steady.refl with
    gone := h
    kept := fun _ _ => rfl
    slack := fun _ _ => rfl
    data := fun _ _ => rfl
    freed := fun _ h => h }

theorem trans (h : Cleared R A r B s t) (h' : Cleared R A r B' t u) :
    Cleared R A r (fun p => B p ∨ B' p) s u :=
  { h.toSteady.trans h'.toSteady with
    gone := fun p hp => by
      by_cases hp' : B' p
      · exact h'.gone p hp'
      · rw [h'.kept (r, p) fun hc => hp' hc.2]
        exact h.gone p (hp.resolve_right hp')
    kept := fun x hx => by
      rw [h'.kept x fun hc => hx ⟨hc.1, .inr hc.2⟩, h.kept x fun hc => hx ⟨hc.1, .inl hc.2⟩]
    slack := fun f hf => by
      have h1 := h.slack f hf
      have h2 := h'.slack f (by rwa [h.total])
      omega
    data := fun f hf => (h'.data f fun p hp => hf p (h.sub hp)).trans (h.data f hf)
    freed := fun f hf => h.freed f (h'.freed f hf) }

/-- The cleared places may be counted differently where nothing was anyway. -/
theorem congr (h : Cleared R A r B s t) (hsub : ∀ p, B p → B' p)
    (hnone : ∀ p, B' p → ¬B p → s.view A (r, p) = none) : Cleared R A r B' s t :=
  { h with
    gone := fun p hp => by
      by_cases hB : B p
      · exact h.gone p hB
      · rw [h.kept (r, p) fun hc => hB hc.2]
        exact hnone p hp hB
    kept := fun x hx => h.kept x fun hc => hx ⟨hc.1, hsub x.2 hc.2⟩ }

end Cleared

/-! ## Dropping a reference -/

theorem used_unrefFrame {m : Pmm} (h : (m.unrefFrame f).used g = true) : m.used g = true := by
  have hrel : ∀ m : Pmm, (m.release f).used g = true → m.used g = true := by
    intro m hm
    by_cases hg : g = f
    · subst hg
      simp [Pmm.release] at hm
    · simpa [Pmm.release, hg] using hm
  unfold Pmm.unrefFrame at h
  split at h
  · exact h
  split at h
  · split at h
    · exact h
    split at h
    · exact h
    · exact hrel _ h
  · exact hrel _ h

/-! ## One entry -/

/-- The paths through entry `i` of the table at `q`. -/
def Through (q : List ℕ) (i : ℕ) (p : List ℕ) : Prop := q ++ [i] <+: p

/-- The paths to what hangs below the table at `q`. -/
def Below (q p : List ℕ) : Prop := ∃ i, Through q i p

theorem not_below_self : ¬Below q q := by
  rintro ⟨i, hi⟩
  have := hi.length_le
  simp at this

/-- The end of a round of `vmm_destroy_user`: the entry is cleared and its reference goes. -/
theorem Sound.dropEntry (h : Sound R A s) (hV : s.view A (r, q) = some f) (hl : q.length < 4)
    (hp : UserPath (q ++ [i])) (hg : s.view A (r, q ++ [i]) = some g)
    (hbelow : ∀ j, s.view A (r, q ++ [i] ++ [j]) = none) :
    Sound R A ((s.unref g).setWord f i 0#64) ∧
      Cleared R A r (fun p => p = q ++ [i]) s ((s.unref g).setWord f i 0#64) := by
  have hstor : Storable R A s r q i 0#64 := by
    constructor
    · intro g' hg'; cases hg'
    · intro g' hg'; cases hg'
    · intro g' y hg'; cases hg'
    · intro g' hg'; cases hg'
    · intro _ hc; exact absurd hc (by decide)
    · intro _ _; rfl
    · exact hbelow
  have hview : (s.setWord f i 0#64).view A = update (s.view A) (r, q ++ [i]) none :=
    hstor.view_eq h hV hl hp
  have h1 : Sound R A (s.setWord f i 0#64) := h.setWord hV hl hp hstor
  obtain ⟨hgR, hgplace⟩ := h.home _ g hg
  have hplace : g < s.pmm.total ∨ maxFrames ≤ g := hgplace.imp_right And.right
  have hheld : ∀ f', (s.setWord f i 0#64).held A f' + (if g = f' then 1 else 0) = s.held A f' := by
    intro f'
    simpa [hg] using h.held_update (f := f') hview
  have hheldg := hheld g
  rw [if_pos rfl] at hheldg
  -- the two stores are to different parts of the state
  have hcomm : (s.unref g).setWord f i 0#64 = (s.setWord f i 0#64).unref g := rfl
  refine ⟨h1.unref hgR hplace fun hlt => ?_, ?_⟩
  · have := h.refs g hlt
    show (s.setWord f i 0#64).held A g < s.pmm.refcnt g
    omega
  have hsteady : Steady R s ((s.setWord f i 0#64).unref g) :=
    (Steady.setWord fun hR => absurd hR (h.home _ f hV).1).trans
      (Steady.unref (s := s.setWord f i 0#64) h.total_le hplace)
  refine { hsteady with
    gone := ?_, kept := fun x hx => ?_, slack := fun f' hf' => ?_, data := fun f' hf' => ?_,
    freed := fun f' hf' => used_unrefFrame hf' }
  · rintro p rfl
    show (s.setWord f i 0#64).view A _ = none
    rw [hview, update_self]
  · show (s.setWord f i 0#64).view A x = _
    rw [hview, update_of_ne]
    rintro rfl
    exact hx ⟨rfl, rfl⟩
  · have hcnt := h.refcnt_unref hplace (fun hlt => by have := h.refs g hlt; omega) hf'
    have hheld' := hheld f'
    show (s.unref g).pmm.refcnt f' + s.held A f' = s.pmm.refcnt f' + (s.setWord f i 0#64).held A f'
    omega
  · refine store_frame fun hc => ?_
    subst hc
    have := hf' q hV
    omega

/-- What the inner loop of a round has to do with the table behind the entry. -/
def Empties (R A : Set ℕ) (r : ℕ) (q : List ℕ) (inner : ℕ → Ram → Ram) : Prop :=
  ∀ s g, Sound R A s → s.view A (r, q) = some g →
    Sound R A (inner g s) ∧ Cleared R A r (Below q) s (inner g s)

section

variable (h : Sound R A s) (hV : s.view A (r, q) = some f) (hl : q.length < 4)
include h hV hl

theorem Sound.destroyEntry (hp : UserPath (q ++ [i])) (hinner : Empties R A r (q ++ [i]) inner) :
    Sound R A (Ram.destroyEntry inner f s i) ∧
      Cleared R A r (Through q i) s (Ram.destroyEntry inner f s i) := by
  have hfol := view_snoc_follow hV hl hp
  unfold Ram.destroyEntry
  simp only
  split
  · next hpres =>
      have hg : s.view A (r, q ++ [i]) = some (frameOf (s.mem f i)) := by
        rw [hfol]
        exact follow_some_iff.mpr ⟨hpres, rfl⟩
      obtain ⟨h1, hc1⟩ := hinner s _ h hg
      have hqi : ¬Below (q ++ [i]) q := by
        rintro ⟨j, hj⟩
        have := hj.length_le
        simp at this
      have hV1 := (hc1.kept (r, q) fun hc => hqi hc.2).trans hV
      have hg1 := (hc1.kept (r, q ++ [i]) fun hc => not_below_self hc.2).trans hg
      obtain ⟨h2, hc2⟩ := h1.dropEntry hV1 hl hp hg1 fun j =>
        hc1.gone _ ⟨j, List.prefix_rfl⟩
      refine ⟨h2, (hc1.trans hc2).congr ?_ ?_⟩
      · rintro p (⟨j, hj⟩ | rfl)
        · exact (List.prefix_append _ _).trans hj
        · exact List.prefix_rfl
      · -- a path through the entry ends there or goes on
        rintro p ⟨t, rfl⟩ hno
        cases t with
        | nil => exact absurd (.inr (List.append_nil _)) hno
        | cons j t => exact absurd (.inl ⟨j, t, by simp⟩) hno
  · next habs =>
      refine ⟨h, Cleared.refl fun p hp' => ?_⟩
      obtain ⟨t, rfl⟩ := hp'
      refine view_none_below ?_ t
      rw [hfol]
      exact follow_none_iff.mpr (by simpa using habs)

/-! ## Whole tables -/

/-- The loop over the first `n` entries. -/
theorem Sound.destroyLoop (hp : ∀ i, i < n → UserPath (q ++ [i]))
    (hinner : ∀ i, i < n → Empties R A r (q ++ [i]) inner) :
    Sound R A ((List.range n).foldl (Ram.destroyEntry inner f) s) ∧
      Cleared R A r (fun p => ∃ i, i < n ∧ Through q i p) s
        ((List.range n).foldl (Ram.destroyEntry inner f) s) := by
  induction n with
  | zero =>
    refine ⟨h, Cleared.refl ?_⟩
    omega
  | succ n ih =>
    obtain ⟨h1, hc1⟩ := ih (fun i hi => hp i (by omega)) fun i hi => hinner i (by omega)
    rw [List.range_succ, List.foldl_append]
    have hV1 : ((List.range n).foldl (Ram.destroyEntry inner f) s).view A (r, q) = some f := by
      rw [hc1.kept (r, q) fun hc => not_below_self (hc.2.imp fun i hi => hi.2)]
      exact hV
    obtain ⟨h2, hc2⟩ := h1.destroyEntry hV1 hl (hp n (by omega)) (hinner n (by omega))
    refine ⟨h2, (hc1.trans hc2).congr ?_ ?_⟩
    · rintro p (⟨i, hi, hp'⟩ | hp')
      · exact ⟨i, by omega, hp'⟩
      · exact ⟨n, by omega, hp'⟩
    · rintro p ⟨i, hi, hp'⟩ hno
      rcases Nat.lt_succ_iff_lt_or_eq.mp hi with hi | rfl
      · exact absurd (.inl ⟨i, hi, hp'⟩) hno
      · exact absurd (.inr hp') hno

end

/-- All entries of a table, if the loop is as wide as the user half. -/
theorem Cleared.below (h : Cleared R A r (fun p => ∃ i, i < n ∧ Through q i p) s t)
    (hw : ∀ i, UserPath (q ++ [i]) → i < n) : Cleared R A r (Below q) s t := by
  refine h.congr (fun p hp => hp.imp fun i hi => hi.2) ?_
  rintro p ⟨i, t, rfl⟩ hno
  refine view_none fun hc => hno ⟨i, hw i ?_, t, rfl⟩
  exact userPath_left hc.2.1

/-- **The loops of `vmm_destroy_user`** empty the table they are called on. -/
theorem empties_destroyTable (level : ℕ) (hq : q.length + level = 3) (hq0 : q ≠ [])
    (hok : UserPath q) : Empties R A r q (Ram.destroyTable level 512) := by
  have hp : ∀ {q : List ℕ} {i : ℕ}, q ≠ [] → UserPath q → i < 512 → UserPath (q ++ [i]) :=
    fun h0 hok hi => userPath_snoc hok hi fun h => absurd h h0
  have hw : ∀ i, UserPath (q ++ [i]) → i < 512 := fun i hi => hi.1 i (by simp)
  induction level generalizing q with
  | zero =>
    intro s g h hV
    have hleaf : ∀ i, i < 512 → Empties R A r (q ++ [i]) fun _ s => s := by
      intro i _ s g h _
      refine ⟨h, Cleared.refl ?_⟩
      -- nothing hangs below a page
      rintro p ⟨j, t, rfl⟩
      refine view_none fun hc => ?_
      have := hc.2.2
      simp at this
      omega
    obtain ⟨h1, hc⟩ := h.destroyLoop hV (by omega) (fun i hi => hp hq0 hok hi) hleaf
    exact ⟨h1, hc.below hw⟩
  | succ level ih =>
    intro s g h hV
    have hinner : ∀ i, i < 512 → Empties R A r (q ++ [i]) (Ram.destroyTable level 512) := by
      intro i hi
      refine ih ?_ (by simp) (hp hq0 hok hi) fun j hj => hj.1 j (by simp)
      rw [List.length_append, List.length_singleton]
      omega
    obtain ⟨h1, hc⟩ := h.destroyLoop hV (by omega) (fun i hi => hp hq0 hok hi) hinner
    exact ⟨h1, hc.below hw⟩

theorem Sound.destroyUser (h : Sound R A s) (hr : r ∈ A) :
    Sound R A (s.destroyUser r) ∧ Cleared R A r (Below []) s (s.destroyUser r) := by
  have hp : ∀ i, i < 256 → UserPath ([] ++ [i]) := fun i hi =>
    userPath_snoc userPath_nil (by omega) fun _ => hi
  obtain ⟨h1, hc⟩ := h.destroyLoop (view_root hr) (by simp) hp fun i hi =>
    empties_destroyTable 2 rfl (by simp) (hp i hi)
  exact ⟨h1, hc.below fun i hi => hi.2 i rfl⟩

/-! ## Whole spaces -/

/-- From `s` to `t` the space `r` was given up. -/
structure Dropped (R A : Set ℕ) (r : ℕ) (s t : Ram) : Prop extends Steady R s t where
  kept : ∀ x, x.1 ≠ r → t.view (A \ {r}) x = s.view A x
  slack : ∀ f, f < s.pmm.total →
    t.pmm.refcnt f + s.held A f = s.pmm.refcnt f + t.held (A \ {r}) f
  data : ∀ f, (∀ p, s.view A (r, p) = some f → 4 ≤ p.length) → t.mem f = s.mem f
  freed : ∀ f, t.pmm.used f = true → s.pmm.used f = true

/-- **An address space is given up**: `vmm_destroy_user` and then `pmm_free_frame` of its
root. -/
theorem Sound.dropSpace (h : Sound R A s) (hr : r ∈ A) :
    Sound R (A \ {r}) ((s.destroyUser r).unref r) ∧
      Dropped R A r s ((s.destroyUser r).unref r) := by
  obtain ⟨h1, hc⟩ := h.destroyUser hr
  have hempty : ∀ i, (s.destroyUser r).view A (r, [i]) = none := fun i =>
    hc.gone [i] ⟨i, List.prefix_rfl⟩
  have hview : (s.destroyUser r).view (A \ {r}) =
      update ((s.destroyUser r).view A) (r, []) none := view_erase hempty
  have hroot : (s.destroyUser r).view A (r, []) = some r := view_root hr
  have hlt : r < (s.destroyUser r).pmm.total := h1.root_lt hr
  have hheld : ∀ f, (s.destroyUser r).held (A \ {r}) f + (if r = f then 1 else 0) =
      (s.destroyUser r).held A f := by
    intro f
    simpa [hroot] using h1.held_update (f := f) hview
  have hheldr := hheld r
  rw [if_pos rfl] at hheldr
  have hrefs := h1.refs r hlt
  have hsound : Sound R (A \ {r}) ((s.destroyUser r).unref r) :=
    (h1.mono Set.sdiff_subset).unref (h1.home _ r hroot).1 (.inl hlt) fun _ => by omega
  refine ⟨hsound, ?_⟩
  have hsteady : Steady R s ((s.destroyUser r).unref r) :=
    hc.toSteady.trans (Steady.unref h1.total_le (.inl hlt))
  refine { hsteady with
    kept := fun x hx => ?_, slack := fun f hf => ?_, data := hc.data,
    freed := fun f hf => hc.freed f (used_unrefFrame hf) }
  · show (s.destroyUser r).view (A \ {r}) x = _
    rw [hview, update_of_ne fun hc => hx (by rw [hc])]
    exact hc.kept x fun hc => hx hc.1
  · have hslack := hc.slack f hf
    have hcnt := h1.refcnt_unref (.inl hlt) (fun _ => by omega) (hc.total ▸ hf)
    have hheld' := hheld f
    show ((s.destroyUser r).unref r).pmm.refcnt f + s.held A f =
      s.pmm.refcnt f + (s.destroyUser r).held (A \ {r}) f
    omega

end Xos.Mem
