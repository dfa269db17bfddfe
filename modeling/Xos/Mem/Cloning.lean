import Mathlib.Tactic.NormNum
import Xos.Mem.Teardown

/-!
# Cloning an address space

`vmm_clone_user` walks the user half of a space and enters every page that it finds into a
second one, with one more reference.  A private writable page becomes copy-on-write on both
sides first.

* **one page** — `armCow` is what happens to the entry of the source, `CopyOf` what the entry of
  the copy has in common with it;
* **the walk** — `Copied R A src dst B s t`: the pages at the paths `B` were copied;
* **room** — `Room`: no count will reach the point where `pmm_ref_frame` stops counting.
-/

namespace Xos.Mem

open Xos.Lib.Radix Function

variable {R A : Set ℕ} {s t u : Ram} {f g i src dst va : ℕ} {p q : List ℕ} {e w : Word}
  {B B' : List ℕ → Prop} {r n : ℕ} {x : ℕ × List ℕ}

/-! ## The entries of a copy -/

theorem frameOf_armCow : frameOf (armCow e) = frameOf e := by
  unfold armCow
  split
  · rw [frameOf_or (by decide), frameOf_and (by decide)]
  · rfl

/-- Arming an entry moves its write permission into `VMM_COW`, unless it is shared. -/
theorem has_armCow (b : Word) (h1 : ~~~vmmRW &&& b = b) (h2 : vmmCOW &&& b = 0#64) :
    has (armCow e) b = has e b := by
  unfold armCow
  split
  · rw [has_or, has_and_of_le h1]
    simp [has, h2]
  · rfl

theorem present_armCow : has (armCow e) vmmP = has e vmmP := has_armCow _ (by decide) (by decide)

theorem follow_armCow : follow (armCow e) = follow e := by
  unfold follow
  rw [present_armCow, frameOf_armCow]

theorem has_armCow_rw : has (armCow e) vmmRW = (has e vmmRW && has e vmmSHARED) := by
  unfold armCow
  cases hs : has e vmmSHARED with
  | true => simp
  | false =>
    cases hw : has e vmmRW with
    | true =>
      simp only [Bool.not_false, Bool.and_self, if_true]
      rw [has_or, has_and_of_disjoint (by decide)]
      decide
    | false => simp [hw]

theorem has_armCow_cow :
    has (armCow e) vmmCOW = (has e vmmCOW || (has e vmmRW && !has e vmmSHARED)) := by
  unfold armCow
  cases hs : has e vmmSHARED with
  | true => simp
  | false =>
    cases hw : has e vmmRW with
    | true => simp [has_or, show has vmmCOW vmmCOW = true by decide]
    | false => simp

/-- The entry `w` of a copy and the entry `e` that it was made from. -/
@[mk_iff]
structure CopyOf (e w : Word) : Prop where
  frame : frameOf w = frameOf e
  present : has w vmmP = true
  user : has w vmmU = has e vmmU
  shared : has w vmmSHARED = has e vmmSHARED
  rw : has w vmmRW = (has e vmmRW && has e vmmSHARED)
  cow : has w vmmCOW = (has e vmmCOW || (has e vmmRW && !has e vmmSHARED))

/-- The flags that `vmm_clone_user` gives to the copy. -/
def cloneFlags (e : Word) : Word := armCow (e &&& cloneMask)

theorem cloneFlags_mask : cloneFlags e &&& physMask = 0#64 := by
  unfold cloneFlags armCow
  split
  · rw [BitVec.and_comm, BitVec.and_or_distrib_left, BitVec.and_comm physMask (_ &&& _),
      BitVec.and_assoc, BitVec.and_assoc]
    rw [show cloneMask &&& (~~~vmmRW &&& physMask) = 0#64 by decide]
    simp
    decide
  · rw [BitVec.and_assoc, show cloneMask &&& physMask = 0#64 by decide]
    simp

theorem copyOf_clone : CopyOf e (mkEntry (frameOf e) (cloneFlags e ||| vmmP)) := by
  have hmask : (cloneFlags e ||| vmmP) &&& physMask = 0#64 := by
    rw [BitVec.and_comm, BitVec.and_or_distrib_left, BitVec.and_comm physMask (cloneFlags e),
      cloneFlags_mask]
    decide
  have hbit : ∀ b, physMask &&& b = 0#64 → vmmP &&& b = 0#64 →
      has (mkEntry (frameOf e) (cloneFlags e ||| vmmP)) b = has (cloneFlags e) b := by
    intro b h1 h2
    rw [has_mkEntry h1, has_or]
    simp [has, h2]
  have hkeep : ∀ b, cloneMask &&& b = b → has (e &&& cloneMask) b = has e b :=
    fun b hb => has_and_of_le hb
  constructor
  · exact frameOf_mkEntry frameOf_lt hmask
  · simp [has_mkEntry (show physMask &&& vmmP = 0#64 by decide), has_or,
      show has vmmP vmmP = true by decide]
  all_goals rw [hbit _ (by decide) (by decide), cloneFlags]
  · rw [has_armCow _ (by decide) (by decide), hkeep _ (by decide)]
  · rw [has_armCow _ (by decide) (by decide), hkeep _ (by decide)]
  · rw [has_armCow_rw, hkeep _ (by decide), hkeep _ (by decide)]
  · rw [has_armCow_cow, hkeep _ (by decide), hkeep _ (by decide), hkeep _ (by decide)]

/-- It does not matter whether the source was armed before. -/
theorem copyOf_armCow : CopyOf (armCow e) w ↔ CopyOf e w := by
  have hsh : has (armCow e) vmmSHARED = has e vmmSHARED := has_armCow _ (by decide) (by decide)
  have husr : has (armCow e) vmmU = has e vmmU := has_armCow _ (by decide) (by decide)
  have hrw : (has (armCow e) vmmRW && has e vmmSHARED) = (has e vmmRW && has e vmmSHARED) := by
    rw [has_armCow_rw, Bool.and_assoc, Bool.and_self]
  have hcow : (has (armCow e) vmmCOW || (has (armCow e) vmmRW && !has e vmmSHARED)) =
      (has e vmmCOW || (has e vmmRW && !has e vmmSHARED)) := by
    rw [has_armCow_cow, has_armCow_rw]
    cases has e vmmCOW <;> cases has e vmmRW <;> cases has e vmmSHARED <;> rfl
  rw [copyOf_iff, copyOf_iff, frameOf_armCow, hsh, husr, hrw, hcow]

theorem armCow_armCow : armCow (armCow e) = armCow e := by
  have hrw : (!has (armCow e) vmmSHARED && has (armCow e) vmmRW) = false := by
    rw [has_armCow_rw, has_armCow vmmSHARED (by decide) (by decide)]
    cases has e vmmRW <;> cases has e vmmSHARED <;> rfl
  rw [show armCow (armCow e) = if !has (armCow e) vmmSHARED && has (armCow e) vmmRW then
    (armCow e &&& ~~~vmmRW) ||| vmmCOW else armCow e from rfl, hrw]
  rfl

/-! ## What a walk has done so far -/

/-- The entry of a page table. -/
noncomputable def Ram.word (s : Ram) (A : Set ℕ) (r : ℕ) (q : List ℕ) (i : ℕ) : Option Word :=
  (s.view A (r, q)).map fun pt => s.mem pt i

theorem word_some_iff :
    s.word A r q i = some w ↔ ∃ pt, s.view A (r, q) = some pt ∧ s.mem pt i = w := by
  unfold Ram.word
  rw [Option.map_eq_some_iff]

/-- Where there is no page the entry is not present. -/
theorem word_absent (hn : s.view A (r, q ++ [i]) = none) (hl : q.length = 3)
    (hok : UserPath (q ++ [i])) (hp : has e vmmP = true) : s.word A r q i ≠ some e := by
  intro he
  obtain ⟨pt, hpt, rfl⟩ := word_some_iff.mp he
  rw [view_snoc_follow hpt (by omega) hok] at hn
  simp [follow_none_iff.mp hn] at hp

/-- The words of the page tables after a store into one of them. -/
theorem Sound.word_setWord (h : Sound R A s) (hV : s.view A (r, q) = some f) (hl : q.length = 3)
    (hview : (s.setWord f i w).view A (r', q') = s.view A (r', q')) :
    (s.setWord f i w).word A r' q' j =
      if r' = r ∧ q' = q ∧ j = i then some w else s.word A r' q' j := by
  unfold Ram.word
  rw [hview]
  split
  · next hc =>
      obtain ⟨rfl, rfl, rfl⟩ := hc
      rw [hV]
      exact congrArg some store_same
  next hc =>
    cases hx : s.view A (r', q') with
    | none => rfl
    | some pt =>
      refine congrArg some (store_other ?_)
      rintro ⟨rfl, rfl⟩
      have hq := h.sole (r, q) (r', q') pt hV (by show q.length < 4; omega) hx
      exact hc ⟨(Prod.mk.inj hq).1, (Prod.mk.inj hq).2, rfl⟩

theorem Grows.word (h : Grows R A dst s t) (hl : q.length = 3) (hw : s.word A r q i = some w) :
    t.word A r q i = some w := by
  obtain ⟨pt, hpt, rfl⟩ := word_some_iff.mp hw
  exact word_some_iff.mpr ⟨pt, h.view _ pt hpt, congrFun (h.entries _ pt hpt hl) i⟩

theorem Grows.word_eq (h : Grows R A dst s t) (hr : r ≠ dst) (hl : q.length = 3) :
    t.word A r q i = s.word A r q i := by
  refine Option.ext fun w => ⟨fun hw => ?_, h.word hl⟩
  obtain ⟨pt, hpt, rfl⟩ := word_some_iff.mp hw
  rw [h.view_eq (x := (r, q)) hr] at hpt
  exact word_some_iff.mpr ⟨pt, hpt, congrFun (h.entries _ pt hpt hl).symm i⟩

/-- From `s` to `t` the pages of `src` at the paths `B` were entered into `dst`. -/
structure Copied (R A : Set ℕ) (src dst : ℕ) (B : List ℕ → Prop) (s t : Ram) : Prop
    extends Steady R s t where
  used : ∀ f, f < s.pmm.total → s.pmm.used f = true → t.pmm.used f = true
  view : ∀ x f, s.view A x = some f → t.view A x = some f
  others : ∀ x, x.1 ≠ dst → t.view A x = s.view A x
  copied : ∀ p, p.length = 4 → B p → t.view A (dst, p) = s.view A (src, p)
  uncopied : ∀ p, p.length = 4 → ¬B p → t.view A (dst, p) = s.view A (dst, p)
  tables : ∀ p f, p.length < 4 → t.view A (dst, p) = some f →
    s.view A (dst, p) = some f ∨ f < s.pmm.total ∧ s.pmm.used f = false
  slack : ∀ f, f < s.pmm.total →
    t.pmm.refcnt f + s.held A f = s.pmm.refcnt f + t.held A f
  data : ∀ f, (f < s.pmm.total → s.pmm.used f = true) → NoTable A s f → t.mem f = s.mem f
  /-- The page tables of third spaces are as they were. -/
  word_other : ∀ r q i, r ≠ src → r ≠ dst → q.length = 3 → t.word A r q i = s.word A r q i
  /-- Those of the source may have been armed, and were if their page was copied. -/
  word_src : ∀ q i e, q.length = 3 → s.word A src q i = some e →
    t.word A src q i = some e ∨ t.word A src q i = some (armCow e)
  word_armed : ∀ q i e, q.length = 3 → UserPath (q ++ [i]) → B (q ++ [i]) → has e vmmP = true →
    s.word A src q i = some e → t.word A src q i = some (armCow e)
  word_dst : ∀ q i e, q.length = 3 → UserPath (q ++ [i]) → B (q ++ [i]) → has e vmmP = true →
    s.word A src q i = some e → ∃ w, t.word A dst q i = some w ∧ CopyOf e w
  word_kept : ∀ q i w, q.length = 3 → s.word A dst q i = some w → ¬B (q ++ [i]) →
    t.word A dst q i = some w

namespace Copied

theorem trans (hne : src ≠ dst) (h : Copied R A src dst B s t) (h' : Copied R A src dst B' t u) :
    Copied R A src dst (fun p => B p ∨ B' p) s u :=
  { h.toSteady.trans h'.toSteady with
    used := fun f hf hu => h'.used f (by rwa [h.total]) (h.used f hf hu)
    view := fun x f hx => h'.view x f (h.view x f hx)
    others := fun x hx => (h'.others x hx).trans (h.others x hx)
    copied := fun p hl hp => by
      by_cases hp' : B' p
      · rw [h'.copied p hl hp', h.others (src, p) hne]
      · rw [h'.uncopied p hl hp']
        exact h.copied p hl (hp.resolve_right hp')
    uncopied := fun p hl hp => by
      rw [h'.uncopied p hl fun hc => hp (.inr hc), h.uncopied p hl fun hc => hp (.inl hc)]
    tables := fun p f hl hp => by
      rcases h'.tables p f hl hp with hp | ⟨hlt, hfree⟩
      · exact h.tables p f hl hp
      rw [h.total] at hlt
      exact .inr ⟨hlt, Bool.eq_false_iff.mpr fun hu => by simp [h.used f hlt hu] at hfree⟩
    slack := fun f hf => by
      have h1 := h.slack f hf
      have h2 := h'.slack f (by rwa [h.total])
      omega
    data := fun f hu hf => by
      refine (h'.data f (fun hlt => ?_) fun x hx => ?_).trans (h.data f hu hf)
      · rw [h.total] at hlt
        exact h.used f hlt (hu hlt)
      · by_contra hl
        by_cases hd : x.1 = dst
        · have hx' : t.view A (dst, x.2) = some f := by rw [← hd]; exact hx
          rcases h.tables x.2 f (by omega) hx' with hs | ⟨hlt, hfree⟩
          · exact hl (hf (dst, x.2) hs)
          · simp [hu hlt] at hfree
        · rw [h.others x hd] at hx
          exact hl (hf x hx)
    word_other := fun r q i h1 h2 hl =>
      (h'.word_other r q i h1 h2 hl).trans (h.word_other r q i h1 h2 hl)
    word_src := fun q i e hl he => by
      rcases h.word_src q i e hl he with h1 | h1
      · exact h'.word_src q i e hl h1
      rcases h'.word_src q i _ hl h1 with h2 | h2
      · exact .inr h2
      · exact .inr (armCow_armCow ▸ h2)
    word_armed := fun q i e hl hok hB hp he => by
      by_cases hB' : B' (q ++ [i])
      · rcases h.word_src q i e hl he with h1 | h1
        · exact h'.word_armed q i e hl hok hB' hp h1
        · have := h'.word_armed q i _ hl hok hB' (present_armCow.trans hp) h1
          rwa [armCow_armCow] at this
      rcases h'.word_src q i _ hl (h.word_armed q i e hl hok (hB.resolve_right hB') hp he) with
        h1 | h1
      · exact h1
      · rwa [armCow_armCow] at h1
    word_dst := fun q i e hl hok hB hp he => by
      by_cases hB' : B' (q ++ [i])
      · rcases h.word_src q i e hl he with h1 | h1
        · exact h'.word_dst q i e hl hok hB' hp h1
        · obtain ⟨w, hw, hc⟩ := h'.word_dst q i _ hl hok hB' (present_armCow.trans hp) h1
          exact ⟨w, hw, copyOf_armCow.mp hc⟩
      · obtain ⟨w, hw, hc⟩ := h.word_dst q i e hl hok (hB.resolve_right hB') hp he
        exact ⟨w, h'.word_kept q i w hl hw hB', hc⟩
    word_kept := fun q i w hl hw hB =>
      h'.word_kept q i w hl (h.word_kept q i w hl hw fun hc => hB (.inl hc))
        fun hc => hB (.inr hc) }

/-- The paths may be counted differently where there is nothing to copy. -/
theorem congr (h : Copied R A src dst B s t) (hsub : ∀ p, B p → B' p)
    (hnone : ∀ p, p.length = 4 → B' p → ¬B p →
      s.view A (src, p) = none ∧ s.view A (dst, p) = none) :
    Copied R A src dst B' s t := by
  -- a present entry of the source at a path of `B'` is one at a path of `B`
  have hB : ∀ q i e, q.length = 3 → UserPath (q ++ [i]) → B' (q ++ [i]) → has e vmmP = true →
      s.word A src q i = some e → B (q ++ [i]) := by
    intro q i e hl hok hB' hp he
    by_contra hno
    exact word_absent (hnone _ (by simp [hl]) hB' hno).1 hl hok hp he
  exact { h with
    copied := fun p hl hp => by
      by_cases hBp : B p
      · exact h.copied p hl hBp
      · rw [h.uncopied p hl hBp, (hnone p hl hp hBp).1, (hnone p hl hp hBp).2]
    uncopied := fun p hl hp => h.uncopied p hl fun hc => hp (hsub p hc)
    word_armed := fun q i e hl hok hB' hp he =>
      h.word_armed q i e hl hok (hB q i e hl hok hB' hp he) hp he
    word_dst := fun q i e hl hok hB' hp he =>
      h.word_dst q i e hl hok (hB q i e hl hok hB' hp he) hp he
    word_kept := fun q i w hl hw hB' => h.word_kept q i w hl hw fun hc => hB' (hsub _ hc) }

theorem refl (hnone : ∀ p, p.length = 4 → B p →
      s.view A (src, p) = none ∧ s.view A (dst, p) = none) :
    Copied R A src dst B s s :=
  { Steady.refl with
    used := fun _ _ h => h
    view := fun _ _ h => h
    others := fun _ _ => rfl
    copied := fun p hl hp => by rw [(hnone p hl hp).1, (hnone p hl hp).2]
    uncopied := fun _ _ _ => rfl
    tables := fun _ _ _ h => .inl h
    slack := fun _ _ => rfl
    data := fun _ _ _ => rfl
    word_other := fun _ _ _ _ _ _ => rfl
    word_src := fun _ _ _ _ h => .inl h
    word_armed := fun _ _ _ hl hok hB hp he =>
      absurd he (word_absent (hnone _ (by simp [hl]) hB).1 hl hok hp)
    word_dst := fun _ _ _ hl hok hB hp he =>
      absurd he (word_absent (hnone _ (by simp [hl]) hB).1 hl hok hp)
    word_kept := fun _ _ _ _ h _ => h }

end Copied

/-! ## Room for the references -/

/-- The paths of the pages of `src` that name `f` and have no counterpart in `dst` yet. -/
def pending (A : Set ℕ) (src dst : ℕ) (s : Ram) (f : ℕ) : Set (List ℕ) :=
  {p | p.length = 4 ∧ s.view A (src, p) = some f ∧ s.view A (dst, p) = none}

/-- No count reaches `REF_MAX` before the walk is over. -/
def Room (A : Set ℕ) (src dst : ℕ) (s : Ram) : Prop :=
  ∀ f, f < s.pmm.total → s.pmm.refcnt f + (pending A src dst s f).ncard ≤ refMax

theorem Sound.finite_pending (h : Sound R A s) : (pending A src dst s f).Finite := by
  refine Set.Finite.subset ((h.finite_holders (f := f)).image Prod.snd) ?_
  rintro p ⟨-, hp, -⟩
  exact ⟨(src, p), hp, rfl⟩

/-! ## One page -/

/-- A page may be entered again where it is. -/
theorem Sound.nameable_self (h : Sound R A s) (hx : s.view A x = some f) (hl : x.2.length = 4) :
    Nameable R A s x f where
  not_reserved := (h.home x f hx).1
  place := (h.home x f hx).2.imp_right And.right
  noTable := h.noTable_page hx hl
  spare hlt := by
    rw [Set.ncard_sdiff_singleton_add_one (mem_holders.mpr hx) h.finite_holders]
    exact h.refs f hlt

theorem setWord_self : s.setWord f i (s.mem f i) = s := by
  unfold Ram.setWord store
  rw [update_eq_self, update_eq_self]

/-- Arming the entry of a page does not move it. -/
theorem Sound.arm (h : Sound R A s) (hV : s.view A (src, q) = some f) (hl : q.length = 3)
    (hp : UserPath (q ++ [i])) (hpres : has (s.mem f i) vmmP = true) :
    Sound R A (s.setWord f i (armCow (s.mem f i))) ∧
      (s.setWord f i (armCow (s.mem f i))).view A = s.view A := by
  have hfol : follow (armCow (s.mem f i)) = some (frameOf (s.mem f i)) := by
    rw [follow_armCow]
    exact follow_some_iff.mpr ⟨hpres, rfl⟩
  have hpage : s.view A (src, q ++ [i]) = some (frameOf (s.mem f i)) := by
    rw [view_snoc_follow hV (by omega) hp, ← follow_armCow, hfol]
  obtain ⟨h1, -, hview⟩ := h.enterLeaf hV hl hp hfol (h.nameable_self hpage (by simp [hl]))
  rw [← hpage, update_eq_self] at hview
  exact ⟨h1, hview⟩

/-- Taking a reference to a mapped frame leaves one more reference than holders. -/
theorem Sound.spare_ref (h : Sound R A s) (hx : s.view A x = some f)
    (hroom : f < s.pmm.total → s.pmm.refcnt f < refMax) (hlt : f < s.pmm.total) :
    (s.ref f).held A f < (s.ref f).pmm.refcnt f := by
  rw [h.refcnt_ref hx hroom hlt, if_pos rfl]
  exact Nat.lt_succ_of_le (h.refs f hlt)

/-- A round of the walk, with the entry of the source armed first. -/
theorem cloneLeaf_eq (hpres : has (s.mem f i) vmmP = true) : Ram.cloneLeaf dst f va i s =
      match (s.setWord f i (armCow (s.mem f i))).mapPage dst va (frameOf (s.mem f i))
        (cloneFlags (s.mem f i)) with
      | (false, t) => .error t
      | (true, t) => .ok (t.ref (frameOf (s.mem f i))) := by
  have harm : (if !has (s.mem f i &&& cloneMask) vmmSHARED && has (s.mem f i &&& cloneMask) vmmRW
      then s.setWord f i ((s.mem f i &&& ~~~vmmRW) ||| vmmCOW) else s) =
      s.setWord f i (armCow (s.mem f i)) := by
    rw [has_and_of_le (by decide), has_and_of_le (by decide)]
    unfold armCow
    split
    · rfl
    · rw [setWord_self]
  unfold Ram.cloneLeaf
  simp only [hpres]
  rw [harm]
  rfl

/-- The result of a walk: `P` if it came to its end, `Q` if a mapping failed on the way. -/
def Ends (P Q : Ram → Prop) : Except Ram Ram → Prop
  | .ok t => P t
  | .error t => Q t

/-- What is left of the source and what reached the copy when the walk stopped early. -/
def Stopped (R A : Set ℕ) (src dst : ℕ) (s t : Ram) : Prop :=
  Sound R A t ∧ ∃ B, Copied R A src dst B s t

/-- What a completed part of the walk guarantees. -/
def Walked (R A : Set ℕ) (src dst : ℕ) (B : List ℕ → Prop) (s t : Ram) : Prop :=
  Sound R A t ∧ Room A src dst t ∧ Copied R A src dst B s t

section Leaf

variable (h : Sound R A s) (hne : src ≠ dst) (hV : s.view A (src, q) = some f)
  (hl : q.length = 3) (hp : UserPath (q ++ [i])) (hpres : has (s.mem f i) vmmP = true)

include h hne hV hl hp hpres

/-- Up to the store of the new entry: the source is armed and the copy may have got tables. -/
theorem copied_armed (ht : Grows R A dst (s.setWord f i (armCow (s.mem f i))) t) :
    Copied R A src dst (fun _ => False) s t ∧ t.mem f i = armCow (s.mem f i) := by
  obtain ⟨-, hview⟩ := h.arm hV hl hp hpres
  have hV1 : (s.setWord f i (armCow (s.mem f i))).view A (src, q) = some f := by rw [hview, hV]
  have hft : t.mem f = (s.setWord f i (armCow (s.mem f i))).mem f := ht.entries _ f hV1 hl
  have hfi : t.mem f i = armCow (s.mem f i) := by rw [hft]; exact store_same
  have hsteady : Steady R s t :=
    (Steady.setWord fun hR => absurd hR (h.home _ f hV).1).trans ht.toSteady
  have hheld : ∀ g, (s.setWord f i (armCow (s.mem f i))).held A g = s.held A g := fun g => by
    unfold Ram.held
    rw [hview]
  have hword : ∀ r' q' j, (s.setWord f i (armCow (s.mem f i))).word A r' q' j =
      if r' = src ∧ q' = q ∧ j = i then some (armCow (s.mem f i)) else s.word A r' q' j :=
    fun _ _ _ => h.word_setWord hV hl (congrFun hview _)
  refine ⟨{ hsteady with
    used := fun g hg hu => (ht.used g hg hu).1
    view := fun x g hx => ht.view x g (by rw [hview, hx])
    others := fun x hx => by rw [ht.view_eq hx, hview]
    copied := fun _ _ hc => hc.elim
    uncopied := fun p hlp _ => by
      refine Option.ext fun g => ?_
      rw [ht.page_iff (x := (dst, p)) (by show 4 ≤ p.length; omega), hview]
    tables := fun p g _ hg => by
      rcases ht.new _ g hg with hg | ⟨-, -, hlt, hfree⟩
      · rw [hview] at hg
        exact .inl hg
      · exact .inr ⟨hlt, hfree⟩
    slack := fun g hg => by
      have := ht.slack g hg
      rw [hheld] at this
      exact this
    data := fun g hu hg => by
      have hgf : g ≠ f := by
        rintro rfl
        have : 4 ≤ q.length := hg _ hV
        omega
      rw [ht.data g hu (fun x hx => hg x (by rw [← hview]; exact hx))]
      exact store_frame hgf
    word_other := fun r' q' j h1 h2 hl' => by
      rw [ht.word_eq h2 hl', hword, if_neg fun hc => h1 hc.1]
    word_src := fun q' j e hl' he => by
      rw [ht.word_eq hne hl', hword]
      split
      · next hc =>
          obtain ⟨-, rfl, rfl⟩ := hc
          obtain ⟨pt, hpt, rfl⟩ := word_some_iff.mp he
          obtain rfl := Option.some.inj (hV.symm.trans hpt)
          exact .inr rfl
      · exact .inl he
    word_armed := fun _ _ _ _ _ hc => hc.elim
    word_dst := fun _ _ _ _ _ hc => hc.elim
    word_kept := fun q' j w hl' hw _ => ht.word hl' <| by
      rw [hword, if_neg fun hc => hne hc.1.symm, hw] }, hfi⟩

end Leaf

/-- The store of the new entry, and its reference. -/
theorem Sound.enterPage (h : Sound R A t) (hne : src ≠ dst) (hV : t.view A (src, q) = some f)
    (hpt : t.view A (dst, q) = some pt) (hl : q.length = 3) (hp : UserPath (q ++ [i]))
    (hsrc : follow (t.mem f i) = some g) (hdst : t.view A (dst, q ++ [i]) = none)
    (hroom : g < t.pmm.total → t.pmm.refcnt g < refMax) (hcopy : CopyOf (t.mem f i) w)
    (harmed : armCow (t.mem f i) = t.mem f i) :
    Sound R A ((t.setWord pt i w).ref g) ∧
      Copied R A src dst (fun p => p = q ++ [i]) t ((t.setWord pt i w).ref g) := by
  have hgsrc : t.view A (src, q ++ [i]) = some g := by
    rw [view_snoc_follow hV (by omega) hp, hsrc]
  have hlen : (q ++ [i]).length = 4 := by simp [hl]
  have hfolw : follow w = some g := by
    rw [follow_some_iff, hcopy.frame]
    exact ⟨hcopy.present, (follow_some_iff.mp hsrc).2⟩
  -- the reference is there before the entry
  have hcomm : (t.setWord pt i w).ref g = (t.ref g).setWord pt i w := rfl
  have hname : Nameable R A (t.ref g) (dst, q ++ [i]) g :=
    h.ref.nameable_spare hgsrc hlen (fun hlt => h.spare_ref hgsrc hroom (by simpa using hlt)) _
  obtain ⟨h1, hst, hview⟩ := (h.ref (f := g)).enterLeaf (i := i) hpt hl hp hfolw hname
  have hview : ((t.ref g).setWord pt i w).view A =
      update (t.view A) (dst, q ++ [i]) (some g) := hview
  rw [hcomm]
  refine ⟨h1, ?_⟩
  have hold : ∀ x, x ≠ (dst, q ++ [i]) →
      ((t.ref g).setWord pt i w).view A x = t.view A x := fun x hx => by
    rw [hview, update_of_ne hx]
  have hshort : ∀ r q', q'.length = 3 →
      ((t.ref g).setWord pt i w).view A (r, q') = t.view A (r, q') := by
    intro r q' hl'
    refine hold _ fun hc => ?_
    simp [(Prod.mk.inj hc).2, hl] at hl'
  have hword : ∀ r q' j, q'.length = 3 → ((t.ref g).setWord pt i w).word A r q' j =
      if r = dst ∧ q' = q ∧ j = i then some w else t.word A r q' j :=
    fun r q' _ hl' => h.ref.word_setWord hpt hl (hshort r q' hl')
  have hhere : ∀ q' j e', q' ++ [j] = q ++ [i] → t.word A src q' j = some e' →
      q = q' ∧ i = j ∧ t.mem f i = e' := by
    intro q' j e' hB he'
    obtain ⟨rfl, ⟨⟩⟩ := List.append_inj' hB rfl
    obtain ⟨pt', hpt', rfl⟩ := word_some_iff.mp he'
    rw [Option.some.inj (hV.symm.trans hpt')]
    exact ⟨rfl, rfl, rfl⟩
  have hsteady : Steady R t ((t.ref g).setWord pt i w) :=
    Steady.ref.trans (Steady.setWord fun hR => absurd hR (h.home _ pt hpt).1)
  exact { hsteady with
    used := fun f' _ hu => by simpa using hu
    view := fun x f' hx => (hold x (by rintro rfl; simp [hdst] at hx)).trans hx
    others := fun x hx => hold x fun hc => hx (by rw [hc])
    copied := fun p' _ hp' => by
      subst hp'
      rw [hview, update_self, hgsrc]
    uncopied := fun p' _ hp' => hold _ fun hc => hp' (Prod.mk.inj hc).2
    tables := fun p' f' hl' hf' => by
      refine .inl ?_
      rwa [hold] at hf'
      intro hc
      rw [(Prod.mk.inj hc).2] at hl'
      omega
    slack := fun f' hf' => by
      have hcnt := h.refcnt_ref hgsrc hroom hf'
      have hheld := h.held_update (f := f') hview
      simp only [hdst, reduceCtorEq, if_false, Option.some.injEq] at hheld
      show (t.ref g).pmm.refcnt f' + t.held A f' = _
      omega
    data := fun f' _ hf' => store_frame fun hc => by
      subst hc
      have : 4 ≤ q.length := hf' _ hpt
      omega
    word_other := fun r q' j _ h2 hl' => by
      rw [hword r q' j hl', if_neg fun hc => h2 hc.1]
    word_src := fun q' j e' hl' he' => by
      rw [hword src q' j hl', if_neg fun hc => hne hc.1]
      exact .inl he'
    word_armed := fun q' j e' hl' _ hB _ he' => by
      obtain ⟨rfl, rfl, rfl⟩ := hhere q' j e' hB he'
      rw [hword src q i hl', if_neg fun hc => hne hc.1, harmed]
      exact he'
    word_dst := fun q' j e' hl' _ hB _ he' => by
      obtain ⟨rfl, rfl, rfl⟩ := hhere q' j e' hB he'
      exact ⟨w, by rw [hword dst q i hl', if_pos ⟨rfl, rfl, rfl⟩], hcopy⟩
    word_kept := fun q' j w' hl' hw' hB => by
      rw [hword dst q' j hl', if_neg, hw']
      rintro ⟨-, rfl, rfl⟩
      exact hB rfl }

/-- Two entries of a table are on different paths. -/
theorem Through.unique (h : Through q i p) (h' : Through q j p) : i = j := by
  obtain ⟨a, rfl⟩ := h
  obtain ⟨b, hb⟩ := h'
  have : [j] ++ b = [i] ++ a := by simpa using hb
  exact (List.cons.inj this).1.symm

/-- The only page on a path through an entry of a page table. -/
theorem Through.eq (h : Through q i p) (hl : q.length = 3) (hp : p.length = 4) : p = q ++ [i] := by
  refine (h.eq_of_length ?_).symm
  simp [hl, hp]

theorem Through.view_none {x : ℕ} (h : Through q i p) (hn : s.view A (x, q ++ [i]) = none) :
    s.view A (x, p) = none := by
  obtain ⟨b, rfl⟩ := h
  exact view_none_below hn b

/-- **A round of the walk.** -/
theorem Sound.cloneLeaf (h : Sound R A s) (hroom : Room A src dst s) (hne : src ≠ dst)
    (hdA : dst ∈ A) (hV : s.view A (src, q) = some f) (hl : q.length = 3)
    (hp : UserPath (q ++ [i])) (hva : pagePath va = q ++ [i])
    (hdst : s.view A (dst, q ++ [i]) = none) :
    Ends (Walked R A src dst (Through q i) s) (Stopped R A src dst s)
      (Ram.cloneLeaf dst f va i s) := by
  cases hpres : has (s.mem f i) vmmP with
  | false =>
    have hskip : Ram.cloneLeaf dst f va i s = .ok s := by simp [Ram.cloneLeaf, hpres]
    rw [hskip]
    have hnone : s.view A (src, q ++ [i]) = none := by
      rw [view_snoc_follow hV (by omega) hp]
      exact follow_none_iff.mpr hpres
    exact ⟨h, hroom, Copied.refl fun p _ hB => ⟨hB.view_none hnone, hB.view_none hdst⟩⟩
  | true =>
    obtain ⟨hup, hidx⟩ := List.append_inj' hva rfl
    have hidx := List.singleton_inj.mp hidx
    have hu : idx 3 va < 256 := hp.2 (idx 3 va) (by rw [← hva]; rfl)
    obtain ⟨h1, hview1⟩ := h.arm hV hl hp hpres
    have hfol : s.view A (src, q ++ [i]) = some (frameOf (s.mem f i)) := by
      rw [view_snoc_follow hV (by omega) hp]
      exact follow_some_iff.mpr ⟨hpres, rfl⟩
    rw [cloneLeaf_eq hpres]
    obtain ⟨t, ht, hg, heq | ⟨pt, hpt, heq⟩⟩ := h1.mapPage_cases hdA hu (frameOf (s.mem f i))
      (cloneFlags (s.mem f i))
    · -- no memory for a table of the copy
      rw [heq]
      exact ⟨ht, _, (copied_armed h hne hV hl hp hpres hg).1⟩
    rw [heq]
    obtain ⟨hc1, hmem⟩ := copied_armed h hne hV hl hp hpres hg
    rw [hup] at hpt
    rw [hidx]
    have hpend : q ++ [i] ∈ pending A src dst s (frameOf (s.mem f i)) :=
      ⟨by simp [hl], hfol, hdst⟩
    have hlt : ∀ f', f' < t.pmm.total → f' < s.pmm.total := fun f' hf' => by
      rwa [hg.total] at hf'
    have hsame : ∀ f', f' < s.pmm.total → s.pmm.used f' = true →
        t.pmm.refcnt f' = s.pmm.refcnt f' := fun f' hf' hu' => (hg.used f' hf' hu').2
    have husedg : ∀ hlt : frameOf (s.mem f i) < s.pmm.total,
        s.pmm.used (frameOf (s.mem f i)) = true := fun hlt => h.used hfol hlt
    have hV2 : t.view A (src, q) = some f := by rw [hc1.others (src, q) hne, hV]
    have hdst2 : t.view A (dst, q ++ [i]) = none := by
      rw [hc1.uncopied _ (by simp [hl]) fun hc => hc, hdst]
    have hsrc2 : t.view A (src, q ++ [i]) = some (frameOf (s.mem f i)) := by
      rw [hc1.others (src, q ++ [i]) hne, hfol]
    have hroom2 : frameOf (s.mem f i) < t.pmm.total →
        t.pmm.refcnt (frameOf (s.mem f i)) < refMax := fun hlt' => by
      have hlt' := hlt _ hlt'
      have hr := hroom _ hlt'
      have := (Set.ncard_pos h.finite_pending).mpr ⟨_, hpend⟩
      rw [hsame _ hlt' (husedg hlt')]
      omega
    obtain ⟨h2, hc2⟩ := ht.enterPage (g := frameOf (s.mem f i))
      (w := mkEntry (frameOf (s.mem f i)) (cloneFlags (s.mem f i) ||| vmmP)) hne hV2 hpt hl hp
      (by rw [hmem, follow_armCow]; exact follow_some_iff.mpr ⟨hpres, rfl⟩) hdst2 hroom2
      (by rw [hmem]; exact copyOf_armCow.mpr copyOf_clone) (by rw [hmem, armCow_armCow])
    show Walked R A src dst _ s (Ram.ref _ _)
    generalize hu' : (t.setWord pt i (mkEntry (frameOf (s.mem f i))
      (cloneFlags (s.mem f i) ||| vmmP))).ref (frameOf (s.mem f i)) = u at h2 hc2 ⊢
    have hc : Copied R A src dst (Through q i) s u := by
      refine (hc1.trans hne hc2).congr ?_ ?_
      · rintro p (hc | rfl)
        · exact hc.elim
        · exact List.prefix_rfl
      · intro p hlp hB hno
        exact absurd (.inr (hB.eq hl hlp)) hno
    refine ⟨h2, fun f' hf' => ?_, hc⟩
    -- the page is no longer pending, and its count has one more
    have hf2 : f' < t.pmm.total := by rwa [hc2.total] at hf'
    have hfs : f' < s.pmm.total := hlt f' hf2
    have hsub : pending A src dst u f' ⊆ pending A src dst s f' \ {q ++ [i]} := by
      rintro p ⟨hlp, hps, hpd⟩
      refine ⟨⟨hlp, ?_, ?_⟩, ?_⟩
      · rwa [hc.others (src, p) hne] at hps
      · by_contra hsome
        obtain ⟨x, hx⟩ := Option.ne_none_iff_exists'.mp hsome
        simp [hc.view _ x hx] at hpd
      · rintro rfl
        simp [hc.copied (q ++ [i]) hlp List.prefix_rfl, hfol] at hpd
    have hcard := Set.ncard_le_ncard hsub (h.finite_pending.subset Set.sdiff_subset)
    have hle := Set.ncard_le_ncard
      (Set.sdiff_subset : pending A src dst s f' \ {q ++ [i]} ⊆ _) h.finite_pending
    have hrm := hroom f' hfs
    have hcnt : u.pmm.refcnt f' = t.pmm.refcnt f' + if frameOf (s.mem f i) = f' then 1 else 0 := by
      rw [← hu']
      exact ht.refcnt_ref hsrc2 hroom2 hf2
    rw [hcnt]
    by_cases hfg : frameOf (s.mem f i) = f'
    · subst hfg
      have h1 := Set.ncard_sdiff_singleton_add_one hpend h.finite_pending
      rw [if_pos rfl, hsame _ hfs (husedg hfs)]
      omega
    rw [if_neg hfg]
    cases hu' : s.pmm.used f' with
    | true =>
      rw [hsame f' hfs hu']
      omega
    | false =>
      -- nothing leads to a free frame, so only a new table can be counted
      have hempty : pending A src dst s f' = ∅ := by
        refine Set.eq_empty_iff_forall_notMem.mpr fun p hp' => ?_
        exact h.not_held hfs hu' _ hp'.2.1
      have h1 : t.pmm.refcnt f' ≤ 1 := hg.fresh f' hfs hu'
      rw [hempty, Set.empty_sdiff, Set.ncard_empty] at hcard
      unfold refMax
      omega

/-! ## Whole tables -/

/-- What a round at entry `i` of the table at `q` is asked to do. -/
def Rounds (R A : Set ℕ) (src dst f : ℕ) (q : List ℕ) (step : Ram → ℕ → Except Ram Ram)
    (i : ℕ) : Prop :=
  ∀ s, Sound R A s → Room A src dst s → s.view A (src, q) = some f →
    (∀ p, Through q i p → p.length = 4 → s.view A (dst, p) = none) →
    Ends (Walked R A src dst (Through q i) s) (Stopped R A src dst s) (step s i)

/-- The loop over the first `n` entries. -/
theorem Sound.walkLoop (h : Sound R A s) (hroom : Room A src dst s) (hne : src ≠ dst)
    (hV : s.view A (src, q) = some f)
    (hdst : ∀ p, Below q p → p.length = 4 → s.view A (dst, p) = none)
    (hstep : ∀ i, i < n → Rounds R A src dst f q step i) :
    Ends (Walked R A src dst (fun p => ∃ i, i < n ∧ Through q i p) s)
      (Stopped R A src dst s) ((List.range n).foldlM step s) := by
  induction n with
  | zero =>
    refine ⟨h, hroom, Copied.refl ?_⟩
    omega
  | succ n ih =>
    rw [List.range_succ, List.foldlM_append]
    have ih := ih fun i hi => hstep i (by omega)
    cases hrun : (List.range n).foldlM step s with
    | error =>
      rw [hrun] at ih
      exact ih
    | ok t =>
      rw [hrun] at ih
      obtain ⟨ht, hroom', hc⟩ := ih
      have hVt : t.view A (src, q) = some f := by rw [hc.others (src, q) hne, hV]
      have hdst' : ∀ p, Through q n p → p.length = 4 → t.view A (dst, p) = none := by
        intro p hp hl
        rw [hc.uncopied p hl]
        · exact hdst p ⟨n, hp⟩ hl
        · rintro ⟨i, hi, hp'⟩
          have := hp'.unique hp
          omega
      have hlast := hstep n (by omega) t ht hroom' hVt hdst'
      show Ends _ _ ([n].foldlM step t)
      rw [List.foldlM_cons]
      cases hrun' : step t n with
      | error =>
        rw [hrun'] at hlast
        obtain ⟨hu, B, hB⟩ := hlast
        exact ⟨hu, _, hc.trans hne hB⟩
      | ok =>
        rw [hrun'] at hlast
        obtain ⟨hu, hroom'', hc'⟩ := hlast
        refine ⟨hu, hroom'', (hc.trans hne hc').congr ?_ ?_⟩
        · rintro p (⟨i, hi, hp⟩ | hp)
          · exact ⟨i, by omega, hp⟩
          · exact ⟨n, by omega, hp⟩
        · rintro p - ⟨i, hi, hp⟩ hno
          rcases Nat.lt_succ_iff_lt_or_eq.mp hi with hi | rfl
          · exact absurd (.inl ⟨i, hi, hp⟩) hno
          · exact absurd (.inr hp) hno

/-- All entries of a table, if the loop is as wide as the user half. -/
theorem Walked.below (h : Walked R A src dst (fun p => ∃ i, i < n ∧ Through q i p) s t)
    (hw : ∀ i, UserPath (q ++ [i]) → i < n) : Walked R A src dst (Below q) s t := by
  refine ⟨h.1, h.2.1, h.2.2.congr (fun p hp => hp.imp fun i hi => hi.2) ?_⟩
  rintro p - ⟨i, b, rfl⟩ hno
  have hnone : ∀ x, s.view A (x, q ++ [i] ++ b) = none := fun x =>
    Lib.Radix.view_none fun hc => hno ⟨i, hw i (userPath_left hc.2.1), b, rfl⟩
  exact ⟨hnone src, hnone dst⟩

theorem Ends.imp {P P' Q : Ram → Prop} {x : Except Ram Ram} (h : Ends P Q x)
    (hP : ∀ t, P t → P' t) : Ends P' Q x := by
  cases x with
  | ok t => exact hP t h
  | error => exact h

/-! ## Addresses -/

/-- The part of an address that the indices below a table make up. -/
def spread : ℕ → List ℕ → ℕ
  | _, [] => 0
  | level, i :: p => i * 2 ^ (12 + 9 * level) + spread (level - 1) p

/-- `va` is the first address that the table at `q` covers. -/
def Covers (level va : ℕ) (q : List ℕ) : Prop :=
  ∀ p, p.length = level + 1 → UserPath (q ++ p) → pagePath (va + spread level p) = q ++ p

theorem covers_root : Covers 3 0 [] := by
  intro p hl hp
  obtain ⟨a, b, c, d, rfl⟩ : ∃ a b c d, p = [a, b, c, d] := by
    match p, hl with
    | [a, b, c, d], _ => exact ⟨a, b, c, d, rfl⟩
  have ha : a < 512 := hp.1 a (by simp)
  have hb : b < 512 := hp.1 b (by simp)
  have hc : c < 512 := hp.1 c (by simp)
  have hd : d < 512 := hp.1 d (by simp)
  simp only [pagePath, upper, idx, spread]
  norm_num
  omega

theorem Covers.child (h : Covers (level + 1) va q) (i : ℕ) :
    Covers level (va + i * 2 ^ (12 + 9 * (level + 1))) (q ++ [i]) := by
  intro p hl hp
  have hp' : UserPath (q ++ i :: p) := by simpa using hp
  have := h (i :: p) (by simp [hl]) hp'
  rw [show q ++ [i] ++ p = q ++ i :: p by simp, ← this]
  simp only [spread, Nat.add_sub_cancel]
  congr 1
  omega

theorem Covers.page (h : Covers 0 va q) (hp : UserPath (q ++ [i])) :
    pagePath (va + i * 4096) = q ++ [i] := by
  have := h [i] rfl hp
  simpa [spread] using this

/-! ## The walk -/

/-- **The loops of `vmm_clone_user`** copy everything below the table they are called on. -/
theorem Sound.cloneTable (level : ℕ) (h : Sound R A s) (hroom : Room A src dst s) (hne : src ≠ dst)
    (hdA : dst ∈ A) (hV : s.view A (src, q) = some f) (hq : q.length + level = 3)
    (hcov : Covers level va q) (hin : ∀ i, i < n → UserPath (q ++ [i]))
    (hw : ∀ i, UserPath (q ++ [i]) → i < n)
    (hdst : ∀ p, Below q p → p.length = 4 → s.view A (dst, p) = none) :
    Ends (Walked R A src dst (Below q) s) (Stopped R A src dst s)
      (Ram.cloneTable dst level n f va s) := by
  induction level generalizing q f va s n with
  | zero =>
    refine (h.walkLoop hroom hne hV hdst fun i hi s h hroom hV hd => ?_).imp fun t ht => ht.below hw
    exact h.cloneLeaf hroom hne hdA hV (by omega) (hin i hi) (hcov.page (hin i hi))
      (hd _ List.prefix_rfl (by simp; omega))
  | succ level ih =>
    refine (h.walkLoop hroom hne hV hdst fun i hi s h hroom hV hd => ?_).imp fun t ht => ht.below hw
    have hsnoc := view_snoc_follow hV (by omega) (hin i hi)
    split
    · next habs =>
        -- nothing is behind the entry
        exact ⟨h, hroom, Copied.refl fun p hl hp =>
          ⟨hp.view_none (hsnoc.trans habs), hd p hp hl⟩⟩
    next g hg =>
      have hlen : (q ++ [i]).length = q.length + 1 := by simp
      have hnil : q ++ [i] ≠ [] := by simp
      refine (ih h hroom (hsnoc.trans hg) (by omega) (hcov.child i) ?_ ?_ ?_).imp fun t ht => ?_
      · exact fun j hj => userPath_snoc (hin i hi) hj fun hc => absurd hc hnil
      · exact fun j hj => hj.1 j (by simp)
      · rintro p ⟨j, hj⟩ hl
        exact hd p ((List.prefix_append _ _).trans hj) hl
      · -- the entry itself leads to a table, not to a page
        obtain ⟨h1, h2, h3⟩ := ht
        refine ⟨h1, h2, h3.congr ?_ ?_⟩
        · rintro p ⟨j, hj⟩
          exact (List.prefix_append _ _).trans hj
        · rintro p hl ⟨b, rfl⟩ hno
          cases b with
          | nil =>
            simp at hl
            omega
          | cons j b => exact absurd ⟨j, b, by simp⟩ hno

/-! ## New address spaces -/

/-- From `s` to `t` the empty space `r` was added. -/
structure Created (R A : Set ℕ) (r : ℕ) (s t : Ram) : Prop extends Steady R s t where
  lt : r < s.pmm.total
  free : s.pmm.used r = false
  view : t.view (insert r A) = update (s.view A) (r, []) (some r)
  used : ∀ f, s.pmm.used f = true → t.pmm.used f = true
  fresh : t.pmm.refcnt r = 1
  refcnt : ∀ f, f ≠ r → t.pmm.refcnt f = s.pmm.refcnt f
  slack : ∀ f, f < s.pmm.total →
    t.pmm.refcnt f + s.held A f = s.pmm.refcnt f + t.held (insert r A) f
  data : ∀ f, f ≠ r → t.mem f = s.mem f

/-- The state after `vmm_create_pml4` got the frame `r`. -/
def Ram.newSpace (s : Ram) (r : ℕ) : Ram :=
  (s.take r).fill r fun i => if 256 ≤ i then s.mem s.kernel i else 0#64

theorem Sound.createPml4 (h : Sound R A s) :
    s.createPml4 = (0, s) ∨ ∃ r t, r ≠ 0 ∧ r ∉ A ∧ s.createPml4 = (r, t) ∧
      Sound R (insert r A) t ∧ Created R A r s t := by
  unfold Ram.createPml4
  rcases h.alloc_cases with heq | ⟨r, hr0, hlt, hfree, heq⟩
  · rw [heq]
    exact .inl rfl
  rw [heq]
  obtain ⟨h1, hfresh⟩ := h.take hlt hfree
  have hrA : r ∉ A := fun hc => h.not_held hlt hfree _ (view_root hc)
  have hrk : r ≠ s.kernel := fun hc => hfresh.not_reserved (hc ▸ h.kernel)
  have hview1 : ∀ c, ((s.take r).fill r c).view A = s.view A := fun c =>
    view_fill hfresh.noTable
  refine .inr ⟨r, s.newSpace r, hr0, hrA, ?_, ?_, ?_⟩
  · split
    · next h0 => cases h0; exact absurd rfl hr0
    · next h0 => cases h0; rfl
  · refine (h1.fill hfresh.noTable hrk).addRoot ?_ ?_ ?_
    · exact ⟨hfresh.lt, hfresh.refcnt, fun x hx => hfresh.not_held x (by rwa [hview1] at hx),
        hfresh.not_reserved⟩
    · intro i hi
      rw [Ram.fill_same, if_neg (by omega)]
    · intro i hi
      rw [Ram.fill_same, if_pos hi, Ram.fill_other (by exact hrk.symm)]
      rfl
  · have hsteady : Steady R s (s.newSpace r) :=
      (Steady.take hlt hfree).trans (Steady.fill fun hR => absurd hR hfresh.not_reserved)
    have hview : (s.newSpace r).view (insert r A) = update (s.view A) (r, []) (some r) := by
      rw [← hview1 fun i => if 256 ≤ i then s.mem s.kernel i else 0#64]
      refine view_insert userPath_nil hrA fun i hi => ?_
      unfold Ram.newSpace
      rw [Ram.fill_same, if_neg (by have := hi.2 i rfl; omega)]
      exact follow_zero
    refine { hsteady with
      lt := hlt, free := hfree, view := hview, used := fun f hu => ?_,
      fresh := by simp [Ram.newSpace], refcnt := fun f hf => by simp [Ram.newSpace, hf],
      slack := fun f hf => ?_, data := fun f hf => Ram.fill_other hf }
    · have hne : f ≠ r := by
        rintro rfl
        simp [hu] at hfree
      simp [Ram.newSpace, hne, hu]
    · have hcnt : (s.newSpace r).pmm.refcnt f = s.pmm.refcnt f + if r = f then 1 else 0 :=
        h.refcnt_take hlt hfree
      have hnone : s.view A (r, []) = none := Lib.Radix.view_none fun hc => hrA hc.1
      have hheld := h.held_update (f := f) hview
      simp only [hnone, reduceCtorEq, if_false, Option.some.injEq] at hheld
      omega

/-! ## The clone -/

/-- The pages of a space that name a frame. -/
def pages (A : Set ℕ) (r : ℕ) (s : Ram) (f : ℕ) : Set (List ℕ) :=
  {p | p.length = 4 ∧ s.view A (r, p) = some f}

/-- The counts of the source's pages can take its copy. -/
def CanClone (A : Set ℕ) (src : ℕ) (s : Ram) : Prop :=
  ∀ f, f < s.pmm.total → s.pmm.refcnt f + (pages A src s f).ncard ≤ refMax

/-- A clone did not succeed: entries of the source may have been armed. -/
structure Unforked (R A : Set ℕ) (src : ℕ) (s t : Ram) : Prop extends Steady R s t where
  view : ∀ r, r ∈ A → ∀ p, t.view A (r, p) = s.view A (r, p)
  slack : ∀ f, f < s.pmm.total →
    t.pmm.refcnt f + s.held A f = s.pmm.refcnt f + t.held A f
  data : ∀ f, (f < s.pmm.total → s.pmm.used f = true) → NoTable A s f → t.mem f = s.mem f
  word_other : ∀ r q i, r ∈ A → r ≠ src → q.length = 3 → t.word A r q i = s.word A r q i
  word_src : ∀ q i e, q.length = 3 → s.word A src q i = some e →
    t.word A src q i = some e ∨ t.word A src q i = some (armCow e)

/-- `dst` is a clone of `src`. -/
structure Forked (R A : Set ℕ) (src dst : ℕ) (s t : Ram) : Prop extends Steady R s t where
  view : ∀ r, r ∈ A → ∀ p, t.view (insert dst A) (r, p) = s.view A (r, p)
  copied : ∀ p, p.length = 4 → t.view (insert dst A) (dst, p) = s.view A (src, p)
  slack : ∀ f, f < s.pmm.total →
    t.pmm.refcnt f + s.held A f = s.pmm.refcnt f + t.held (insert dst A) f
  data : ∀ f, (f < s.pmm.total → s.pmm.used f = true) → NoTable A s f → t.mem f = s.mem f
  word_other : ∀ r q i, r ∈ A → r ≠ src → q.length = 3 →
    t.word (insert dst A) r q i = s.word A r q i
  word_src : ∀ q i e, q.length = 3 → UserPath (q ++ [i]) → has e vmmP = true →
    s.word A src q i = some e → t.word (insert dst A) src q i = some (armCow e)
  word_dst : ∀ q i e, q.length = 3 → UserPath (q ++ [i]) → has e vmmP = true →
    s.word A src q i = some e → ∃ w, t.word (insert dst A) dst q i = some w ∧ CopyOf e w

section Clone

variable (h : Sound R A s) (hsrc : src ∈ A) (hdA : dst ∉ A) (hc : Created R A dst s t)

include hc in
theorem Created.view_of_mem (hdA : dst ∉ A) (hr : r ∈ A) (p : List ℕ) :
    t.view (insert dst A) (r, p) = s.view A (r, p) := by
  rw [hc.view, update_of_ne]
  rintro heq
  exact hdA ((Prod.mk.inj heq).1 ▸ hr)

include hc in
theorem Created.view_dst (hdA : dst ∉ A) (hp : p ≠ []) : t.view (insert dst A) (dst, p) = none := by
  rw [hc.view, update_of_ne fun hc => hp (Prod.mk.inj hc).2]
  exact Lib.Radix.view_none fun hc => hdA hc.1

include h hc in
theorem Created.word_of_mem (hdA : dst ∉ A) (hr : r ∈ A) :
    t.word (insert dst A) r q i = s.word A r q i := by
  unfold Ram.word
  rw [hc.view_of_mem hdA hr]
  cases hx : s.view A (r, q) with
  | none => rfl
  | some pt =>
    have hne : pt ≠ dst := fun heq => h.not_held hc.lt hc.free _ (heq ▸ hx)
    simp [hc.data pt hne]

include hc in
theorem Created.noTable (hu : f < s.pmm.total → s.pmm.used f = true) (hf : NoTable A s f) :
    NoTable (insert dst A) t f ∧ f ≠ dst := by
  have hne : f ≠ dst := by
    rintro rfl
    simpa [hc.free] using hu hc.lt
  refine ⟨fun x hx => ?_, hne⟩
  rw [hc.view] at hx
  rw [update_apply] at hx
  split at hx
  · exact absurd (Option.some.inj hx).symm hne
  · exact hf x hx

include h hc in
theorem CanClone.room (hcan : CanClone A src s) (hsrc : src ∈ A) (hdA : dst ∉ A) :
    Room (insert dst A) src dst t := by
  intro f hf
  rw [hc.total] at hf
  have hsub : pending (insert dst A) src dst t f ⊆ pages A src s f := by
    rintro p ⟨hl, hp, -⟩
    rw [hc.view_of_mem hdA hsrc] at hp
    exact ⟨hl, hp⟩
  have hfin : (pages A src s f).Finite := by
    refine ((h.finite_holders (f := f)).image Prod.snd).subset ?_
    rintro p ⟨-, hp⟩
    exact ⟨(src, p), hp, rfl⟩
  have hcard := Set.ncard_le_ncard hsub hfin
  by_cases hfd : f = dst
  · subst hfd
    have hempty : pages A src s f = ∅ :=
      Set.eq_empty_iff_forall_notMem.mpr fun p hp => h.not_held hc.lt hc.free _ hp.2
    rw [hempty, Set.ncard_empty] at hcard
    rw [hc.fresh]
    unfold refMax
    omega
  · have := hcan f hf
    rw [hc.refcnt f hfd]
    omega

end Clone

/-- **`vmm_clone_user`.** -/
theorem Sound.cloneUser (h : Sound R A s) (hsrc : src ∈ A) (hcan : CanClone A src s) :
    (∃ t, s.cloneUser src = (0, t) ∧ Sound R A t ∧ Unforked R A src s t) ∨
      ∃ dst t, dst ≠ 0 ∧ dst ∉ A ∧ s.cloneUser src = (dst, t) ∧ Sound R (insert dst A) t ∧
        Forked R A src dst s t := by
  unfold Ram.cloneUser
  rcases h.createPml4 with heq | ⟨dst, t, hd0, hdA, heq, ht, hc⟩
  · rw [heq]
    refine .inl ⟨s, rfl, h, { Steady.refl with
      view := fun _ _ _ => rfl, slack := fun _ _ => rfl, data := fun _ _ _ => rfl,
      word_other := fun _ _ _ _ _ _ => rfl, word_src := fun _ _ _ _ hw => .inl hw }⟩
  have hne : src ≠ dst := fun hc => hdA (hc ▸ hsrc)
  have hwalk := ht.cloneTable 3 (n := 256) (hcan.room h hc hsrc hdA) hne (Set.mem_insert _ _)
    (view_root (Set.mem_insert_of_mem _ hsrc)) rfl covers_root
    (fun i hi => userPath_snoc userPath_nil (by omega) fun _ => hi) (fun i hi => hi.2 i rfl)
    (fun p _ hl => hc.view_dst hdA (by rintro rfl; simp at hl))
  rw [heq]
  split
  · next h0 => cases h0; exact absurd rfl hd0
  next h0 =>
  cases h0
  cases hrun : Ram.cloneTable dst 3 256 src 0 t with
  | ok u =>
    rw [hrun] at hwalk
    obtain ⟨hu, -, hcp⟩ := hwalk
    refine .inr ⟨dst, u, hd0, hdA, rfl, hu, ?_⟩
    have hbelow : ∀ q i, q.length = 3 → Below [] (q ++ [i]) := by
      intro q i hl
      cases q with
      | nil => simp at hl
      | cons j q => exact ⟨j, q ++ [i], rfl⟩
    exact { hc.toSteady.trans hcp.toSteady with
      view := fun r hr p => by
        rw [hcp.others (r, p) fun hc => hdA (hc ▸ hr), hc.view_of_mem hdA hr]
      copied := fun p hl => by
        rw [hcp.copied p hl, hc.view_of_mem hdA hsrc]
        cases p with
        | nil => simp at hl
        | cons j p => exact ⟨j, p, rfl⟩
      slack := fun f hf => by
        have h1 := hc.slack f hf
        have h2 := hcp.slack f (by rwa [hc.total])
        omega
      data := fun f hu' hf => by
        obtain ⟨hnt, hfd⟩ := hc.noTable hu' hf
        rw [hcp.data f (fun hlt => ?_) hnt, hc.data f hfd]
        rw [hc.total] at hlt
        exact hc.used f (hu' hlt)
      word_other := fun r q i hr hrs hl => by
        rw [hcp.word_other r q i hrs (fun hc => hdA (hc ▸ hr)) hl, hc.word_of_mem h hdA hr]
      word_src := fun q i e hl hok hp he =>
        hcp.word_armed q i e hl hok (hbelow q i hl) hp (by rw [hc.word_of_mem h hdA hsrc, he])
      word_dst := fun q i e hl hok hp he =>
        hcp.word_dst q i e hl hok (hbelow q i hl) hp (by rw [hc.word_of_mem h hdA hsrc, he]) }
  | error u =>
    rw [hrun] at hwalk
    obtain ⟨hu, B, hcp⟩ := hwalk
    obtain ⟨hv, hdrop⟩ := hu.dropSpace (Set.mem_insert dst A)
    have hA : insert dst A \ {dst} = A := by
      rw [Set.insert_sdiff_of_mem _ (Set.mem_singleton dst)]
      exact Set.sdiff_singleton_eq_self hdA
    rw [hA] at hv
    refine .inl ⟨_, rfl, hv, ?_⟩
    have hview : ∀ r, r ∈ A → ∀ p,
        ((u.destroyUser dst).unref dst).view A (r, p) = s.view A (r, p) := by
      intro r hr p
      have hrd : r ≠ dst := fun hc => hdA (hc ▸ hr)
      have := hdrop.kept (r, p) hrd
      rw [hA] at this
      rw [this, hcp.others (r, p) hrd, hc.view_of_mem hdA hr]
    -- the page tables of the other spaces are not among those taken apart
    have hword : ∀ r, r ∈ A → ∀ q i, q.length = 3 →
        ((u.destroyUser dst).unref dst).word A r q i = u.word (insert dst A) r q i := by
      intro r hr q i hl
      have hrd : r ≠ dst := fun hc => hdA (hc ▸ hr)
      unfold Ram.word
      rw [hview r hr, hcp.others (r, q) hrd, hc.view_of_mem hdA hr]
      cases hx : s.view A (r, q) with
      | none => rfl
      | some pt =>
        have hpt : u.view (insert dst A) (r, q) = some pt := by
          rw [hcp.others (r, q) hrd, hc.view_of_mem hdA hr, hx]
        refine congrArg some (congrFun (hdrop.data pt fun p hp => ?_) i)
        by_contra hlp
        have := hu.sole _ _ pt hpt (by show q.length < 4; omega) hp
        exact hrd (Prod.mk.inj this).1.symm
    exact { (hc.toSteady.trans hcp.toSteady).trans hdrop.toSteady with
      view := hview
      slack := fun f hf => by
        have h1 := hc.slack f hf
        have h2 := hcp.slack f (by rwa [hc.total])
        have h3 := hdrop.slack f (by rwa [hcp.total, hc.total])
        rw [hA] at h3
        omega
      data := fun f hu' hf => by
        obtain ⟨hnt, hfd⟩ := hc.noTable hu' hf
        have hused : f < t.pmm.total → t.pmm.used f = true := fun hlt => by
          rw [hc.total] at hlt
          exact hc.used f (hu' hlt)
        rw [hdrop.data f fun p hp => ?_, hcp.data f hused hnt, hc.data f hfd]
        by_contra hlp
        rcases hcp.tables p f (by omega) hp with hp | ⟨hlt, hfree⟩
        · exact hlp (hnt _ hp)
        · simp [hused hlt] at hfree
      word_other := fun r q i hr hrs hl => by
        rw [hword r hr q i hl, hcp.word_other r q i hrs (fun hc => hdA (hc ▸ hr)) hl,
          hc.word_of_mem h hdA hr]
      word_src := fun q i e hl he => by
        rw [hword src hsrc q i hl]
        exact hcp.word_src q i e hl (by rw [hc.word_of_mem h hdA hsrc, he]) }

end Xos.Mem
