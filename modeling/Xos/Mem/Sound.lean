import Mathlib.Data.Set.Card
import Xos.Mem.Tables

/-!
# References are counted

What has to hold of the page tables and the counts for `pmm_unref_frame` to be safe.  The user
halves of the live address spaces form a forest (`Ram.view`): every root, every table and every
page of it is a frame, and the places that lead to a frame are its holders.

`Sound R A s` says, for the roots `A` and a set `R` of reserved frames, that a table has one
holder only, that every count is at least the number of holders, and that no place of the
forest leads to a reserved frame.  The kernel's tables are among the reserved frames.

The calls of the memory managers are built from few primitive changes, and each of them has one
lemma here: taking a free frame (`Sound.take`), overwriting a frame that is no table
(`Sound.fill`), storing an entry (`Sound.setWord`), moving a count (`Sound.ref`, `Sound.unref`)
and adding or forgetting roots (`Sound.addRoot`, `Sound.mono`).
-/

namespace Xos.Mem

open Xos.Lib.Radix Function

/-! ## Bits of an entry -/

section Bits

variable {a b c e flags : Word} {f : ℕ}

theorem has_or : has (a ||| b) c = (has a c || has b c) := by
  unfold has
  rw [BitVec.and_comm, BitVec.and_or_distrib_left, BitVec.and_comm c a, BitVec.and_comm c b,
    Bool.eq_iff_iff]
  simp only [bne_iff_ne, ne_eq, BitVec.or_eq_zero_iff, Bool.or_eq_true]
  tauto

/-- A mask that covers the tested bit does not matter for the test. -/
theorem has_and_of_le (h : b &&& c = c) : has (a &&& b) c = has a c := by
  unfold has
  rw [BitVec.and_assoc, h]

theorem has_and_of_disjoint (h : b &&& c = 0#64) : has (a &&& b) c = false := by
  unfold has
  rw [BitVec.and_assoc, h]
  simp

theorem frameOf_or (h : b &&& physMask = 0#64) : frameOf (a ||| b) = frameOf a := by
  unfold frameOf
  rw [BitVec.and_comm, BitVec.and_or_distrib_left, BitVec.and_comm _ b, h, BitVec.or_zero,
    BitVec.and_comm]

theorem frameOf_and (h : b &&& physMask = physMask) : frameOf (a &&& b) = frameOf a := by
  unfold frameOf
  rw [BitVec.and_assoc, h]

theorem frameOf_eq : frameOf e = e.toNat / 4096 % 2 ^ 40 := by
  have hmask : physMask >>> 12 = BitVec.ofNat 64 (2 ^ 40 - 1) := by decide
  unfold frameOf
  rw [BitVec.ushiftRight_and_distrib, hmask, BitVec.toNat_and, BitVec.toNat_ushiftRight,
    BitVec.toNat_ofNat, Nat.mod_eq_of_lt (by omega), Nat.and_two_pow_sub_one_eq_mod,
    Nat.shiftRight_eq_div_pow]

theorem frameOf_lt : frameOf e < 2 ^ 40 := by
  rw [frameOf_eq]
  exact Nat.mod_lt _ (by omega)

theorem frameOf_mkEntry (hf : f < 2 ^ 40) (hflags : flags &&& physMask = 0#64) :
    frameOf (mkEntry f flags) = f := by
  unfold mkEntry
  rw [frameOf_or hflags, frameOf_and (by decide), frameOf_eq, BitVec.toNat_ofNat]
  omega

/-- The frame bits of a new entry set no flag. -/
theorem has_mkEntry (hc : physMask &&& c = 0#64) : has (mkEntry f flags) c = has flags c := by
  unfold mkEntry
  rw [has_or, has_and_of_disjoint hc, Bool.false_or]

theorem follow_some_iff : follow e = some f ↔ has e vmmP = true ∧ frameOf e = f := by
  unfold follow
  split
  · next h => simp [h]
  · next h => simp [h]

theorem follow_none_iff : follow e = none ↔ has e vmmP = false := by
  unfold follow
  split
  · next h => simp [h]
  · next h => simpa using h

@[simp] theorem follow_zero : follow 0#64 = none := by decide

theorem follow_mkEntry (hf : f < 2 ^ 40) (hflags : flags &&& physMask = 0#64)
    (hp : has flags vmmP = true) : follow (mkEntry f flags) = some f := by
  rw [follow_some_iff, has_mkEntry (by decide), frameOf_mkEntry hf hflags]
  exact ⟨hp, rfl⟩

end Bits

/-! ## The forest of the user halves -/

/-- The lists of numbers below a bound, of a bounded length, are finitely many. -/
theorem finite_paths (w n : ℕ) : {p : List ℕ | (∀ i ∈ p, i < w) ∧ p.length ≤ n}.Finite := by
  induction n with
  | zero =>
    refine (Set.finite_singleton []).subset fun p hp => ?_
    exact List.eq_nil_of_length_eq_zero (Nat.le_zero.mp hp.2)
  | succ n ih =>
    refine ((Set.finite_singleton ([] : List ℕ)).union
      (Set.Finite.image2 List.cons (Set.finite_lt_nat w) ih)).subset fun p hp => ?_
    cases p with
    | nil => exact .inl rfl
    | cons i p =>
      refine .inr ⟨i, hp.1 i List.mem_cons_self, p, ⟨fun j hj => hp.1 j ?_, ?_⟩, rfl⟩
      · exact List.mem_cons_of_mem i hj
      · simpa using hp.2

/-- A path of the user half: a slot of the PML4 below 256, then indices below 512. -/
def UserPath (p : List ℕ) : Prop := (∀ i ∈ p, i < 512) ∧ ∀ i, p.head? = some i → i < 256

instance (p : List ℕ) : Decidable (UserPath p) :=
  decidable_of_iff ((∀ i ∈ p, i < 512) ∧ ∀ i ∈ p.head?, i < 256) Iff.rfl

theorem userPath_left (h : UserPath (p ++ q)) : UserPath p := by
  refine ⟨fun i hi => h.1 i (List.mem_append_left q hi), fun i hi => h.2 i ?_⟩
  cases p with
  | nil => cases hi
  | cons => exact hi

/-- The user halves: four levels, of which the first has 256 slots. -/
@[simps -fullyApplied]
def userHalf : Layout Word where
  next := follow
  ok := UserPath
  depth := 4
  ok_left := userPath_left
  finite := (finite_paths 512 4).subset fun _ h => ⟨h.1.1, h.2⟩

/-- The frames of the user halves of the address spaces with the roots `A`. -/
noncomputable abbrev Ram.view (s : Ram) (A : Set ℕ) : ℕ × List ℕ → Option ℕ :=
  Lib.Radix.view userHalf A s.mem

/-- The number of places that lead to a frame. -/
noncomputable def Ram.held (s : Ram) (A : Set ℕ) (f : ℕ) : ℕ := (holders (s.view A) f).ncard

theorem Ram.view_eq {s : Ram} {A : Set ℕ} {r : ℕ} {p : List ℕ} (hr : r ∈ A) (hp : UserPath p)
    (hl : p.length ≤ 4) : s.view A (r, p) = node follow s.mem r p :=
  Lib.Radix.view_eq (L := userHalf) hr hp hl

theorem userPath_nil : UserPath [] := by decide

/-- A longer path of the user half, below the first level. -/
theorem userPath_snoc (hp : UserPath p) (hi : i < 512) (h0 : p = [] → i < 256) :
    UserPath (p ++ [i]) := by
  refine ⟨fun j hj => ?_, fun j hj => ?_⟩
  · rcases List.mem_append.mp hj with h | h
    · exact hp.1 j h
    · rw [List.mem_singleton.mp h]; exact hi
  · cases p with
    | nil =>
      cases hj
      exact h0 rfl
    | cons => exact hp.2 j hj

/-! ## The invariant -/

variable {R A : Set ℕ} {s : Ram} {f g i r : ℕ} {p : List ℕ} {x : ℕ × List ℕ} {c : ℕ → Word}

/-- The roots `A` and the reserved frames `R` fit the counts of `s`. -/
structure Sound (R A : Set ℕ) (s : Ram) : Prop where
  finite : A.Finite
  /-- A root or table has one holder. -/
  sole : ∀ x y f, s.view A x = some f → x.2.length < 4 → s.view A y = some f → y = x
  /-- Tables are managed frames, pages are managed frames or lie beyond the bitmap, and
  neither are reserved. -/
  home : ∀ x f, s.view A x = some f →
    f ∉ R ∧ (f < s.pmm.total ∨ x.2.length = 4 ∧ maxFrames ≤ f)
  /-- No frame is held more often than it is counted. -/
  refs : ∀ f, f < s.pmm.total → s.held A f ≤ s.pmm.refcnt f
  /-- A managed frame is used if and only if it has references. -/
  counted : ∀ f, f < s.pmm.total → (s.pmm.used f = true ↔ 0 < s.pmm.refcnt f)
  total_le : s.pmm.total ≤ maxFrames
  reserved : ∀ f, f ∈ R → f < s.pmm.total → s.pmm.used f = true
  zero : 0 ∈ R
  kernel : s.kernel ∈ R
  kernel_ne : s.kernel ≠ 0
  /-- The kernel half of every space is the kernel's. -/
  half : ∀ r, r ∈ A → ∀ i, 256 ≤ i → s.mem r i = s.mem s.kernel i
  /-- No entry of a user table is a huge page, and an entry of a page table that is not present
  is zero. -/
  tidy : ∀ x f i, s.view A x = some f → x.2.length < 4 → UserPath (x.2 ++ [i]) →
    (x.2.length < 3 → has (s.mem f i) vmmP = true → has (s.mem f i) vmmPS = false) ∧
    (x.2.length = 3 → has (s.mem f i) vmmP = false → s.mem f i = 0#64)

namespace Sound

theorem finite_holders (h : Sound R A s) : (holders (s.view A) f).Finite :=
  Lib.Radix.finite_holders h.finite

/-- What the forest leads to is used. -/
theorem used (h : Sound R A s) (hx : s.view A x = some f) (hf : f < s.pmm.total) :
    s.pmm.used f = true :=
  (h.counted f hf).mpr (lt_of_lt_of_le (ncard_holders_pos h.finite_holders hx) (h.refs f hf))

theorem table_lt (h : Sound R A s) (hx : s.view A x = some f) (hl : x.2.length < 4) :
    f < s.pmm.total :=
  ((h.home x f hx).2).resolve_right fun hc => by omega

/-- The number of a managed frame fits into an entry. -/
theorem frame_lt (h : Sound R A s) (hf : f < s.pmm.total) : f < 2 ^ 40 := by
  have := h.total_le
  unfold maxFrames at this
  omega

theorem view_root (hr : r ∈ A) : s.view A (r, []) = some r :=
  view_some_iff.mpr ⟨hr, userPath_nil, Nat.zero_le _, rfl⟩

theorem root_lt (h : Sound R A s) (hr : r ∈ A) : r < s.pmm.total :=
  h.table_lt (view_root hr) (by simp)

section

variable (h : Sound R A s) (hf : f < s.pmm.total) (hu : s.pmm.used f = false)
include h hf hu

/-- A free frame is not in the forest. -/
theorem not_held (x : ℕ × List ℕ) : s.view A x ≠ some f := by
  intro hx
  rw [h.used hx hf] at hu
  cases hu

theorem refcnt_free : s.pmm.refcnt f = 0 := by
  have := (h.counted f hf).not.mp (by simp [hu])
  omega

theorem held_free : s.held A f = 0 := by
  have := h.refs f hf
  rw [h.refcnt_free hf hu] at this
  omega

end

/-- The holders of a frame after one place of the forest was given another entry. -/
theorem held_update {B : Set ℕ} {t : Ram} {o : Option ℕ} (h : Sound R A s)
    (hview : t.view B = update (s.view A) x o) :
    t.held B f + (if s.view A x = some f then 1 else 0) =
      s.held A f + if o = some f then 1 else 0 := by
  unfold Ram.held
  rw [hview]
  exact ncard_holders_update h.finite_holders

/-- **The allocator's record of one frame changes.** -/
theorem recount (h : Sound R A s) (htotal : m.total = s.pmm.total)
    (hother : ∀ g, g ≠ f → m.used g = s.pmm.used g ∧ m.refcnt g = s.pmm.refcnt g)
    (hself : f < s.pmm.total → s.held A f ≤ m.refcnt f ∧ (m.used f = true ↔ 0 < m.refcnt f) ∧
      (f ∈ R → m.used f = true)) : Sound R A { s with pmm := m } := by
  have hall : ∀ g, g < m.total → s.held A g ≤ m.refcnt g ∧ (m.used g = true ↔ 0 < m.refcnt g) ∧
      (g ∈ R → m.used g = true) := by
    intro g hg
    rw [htotal] at hg
    by_cases hgf : g = f
    · subst hgf
      exact hself hg
    · rw [(hother g hgf).1, (hother g hgf).2]
      exact ⟨h.refs g hg, h.counted g hg, fun hR => h.reserved g hR hg⟩
  exact { h with
    refs := fun g hg => (hall g hg).1
    counted := fun g hg => (hall g hg).2.1
    reserved := fun g hR hg => (hall g hg).2.2 hR
    total_le := htotal.trans_le h.total_le
    home := fun x g hx => by
      rw [htotal]
      exact h.home x g hx }

end Sound

/-! ## Taking a frame -/

/-- A frame that was just taken: used, with one reference and no holder. -/
structure Fresh (R A : Set ℕ) (s : Ram) (f : ℕ) : Prop where
  lt : f < s.pmm.total
  refcnt : s.pmm.refcnt f = 1
  not_held : ∀ x, s.view A x ≠ some f
  not_reserved : f ∉ R

/-- The state after `pmm_alloc_frame` found `f`. -/
@[simps -fullyApplied]
def Ram.take (s : Ram) (f : ℕ) : Ram := { s with pmm := s.pmm.take f }

theorem Sound.take (h : Sound R A s) (hf : f < s.pmm.total) (hu : s.pmm.used f = false) :
    Sound R A (s.take f) ∧ Fresh R A (s.take f) f := by
  have hR : f ∉ R := fun hR => by simp [h.reserved f hR hf] at hu
  refine ⟨?_, hf, by simp, h.not_held hf hu, hR⟩
  refine h.recount (f := f) rfl (fun g hg => by simp [hg]) fun _ => ?_
  rw [h.held_free hf hu]
  simp

/-- `pmm_alloc_frame` gives a free frame or changes nothing: frame 0 is reserved. -/
theorem Sound.alloc_cases (h : Sound R A s) : s.alloc = (0, s) ∨
      ∃ f, f ≠ 0 ∧ f < s.pmm.total ∧ s.pmm.used f = false ∧ s.alloc = (f, s.take f) := by
  rcases s.pmm.allocFrame_cases with ⟨f, hf, hu, heq⟩ | heq
  · refine .inr ⟨f, ?_, hf, hu, ?_⟩
    · rintro rfl
      simp [h.reserved 0 h.zero hf] at hu
    · unfold Ram.alloc
      rw [heq]
      rfl
  · left
    unfold Ram.alloc
    rw [heq]

/-! ## Stores -/

@[simp] theorem Ram.fill_same : (s.fill f c).mem f = c := update_self ..

theorem Ram.fill_other (h : g ≠ f) : (s.fill f c).mem g = s.mem g := update_of_ne h _ _

/-- A frame that no root and no table is. -/
def NoTable (A : Set ℕ) (s : Ram) (f : ℕ) : Prop := ∀ x, s.view A x = some f → 4 ≤ x.2.length

theorem Fresh.noTable (h : Fresh R A s f) : NoTable A s f := fun x hx => absurd hx (h.not_held x)

theorem view_fill (hf : NoTable A s f) : (s.fill f c).view A = s.view A :=
  view_scribble (fun r p hx => hf (r, p) hx) fun _ hg => Ram.fill_other hg

/-- What is stored into a frame that is no table does not matter. -/
theorem Sound.fill (h : Sound R A s) (hf : NoTable A s f) (hk : f ≠ s.kernel) :
    Sound R A (s.fill f c) := by
  have hview := view_fill (c := c) hf
  have hne : ∀ x g, s.view A x = some g → x.2.length < 4 → g ≠ f := by
    rintro x g hx hl rfl
    have := hf x hx
    omega
  exact { h with
    sole := by rw [hview]; exact h.sole
    home := by rw [hview]; exact h.home
    refs := fun g hg => by
      unfold Ram.held
      rw [hview]
      exact h.refs g hg
    half := fun r hr i hi => by
      rw [Ram.fill_kernel, Ram.fill_other hk.symm,
        Ram.fill_other (hne _ r (Sound.view_root hr) (by simp))]
      exact h.half r hr i hi
    tidy := fun x g i hx hl hp => by
      rw [hview] at hx
      rw [Ram.fill_other (hne x g hx hl)]
      exact h.tidy x g i hx hl hp }

/-- What must hold of an entry that is stored at index `i` of the table `f` at `(r, p)`. -/
structure Storable (R A : Set ℕ) (s : Ram) (r : ℕ) (p : List ℕ) (i : ℕ) (e : Word) : Prop where
  /-- The frame it names may be named. -/
  home : ∀ g, follow e = some g →
    g ∉ R ∧ (g < s.pmm.total ∨ p.length = 3 ∧ maxFrames ≤ g)
  /-- There is a reference for it. -/
  spare : ∀ g, follow e = some g → g < s.pmm.total →
    (holders (s.view A) g \ {(r, p ++ [i])}).ncard + 1 ≤ s.pmm.refcnt g
  /-- Only pages are shared. -/
  alone : ∀ g y, follow e = some g → s.view A y = some g → y ≠ (r, p ++ [i]) →
    p.length = 3 ∧ 4 ≤ y.2.length
  /-- A new table is empty. -/
  empty : ∀ g, follow e = some g → p.length < 3 → ∀ j, s.mem g j = 0#64
  small : p.length < 3 → has e vmmP = true → has e vmmPS = false
  blank : p.length = 3 → has e vmmP = false → e = 0#64
  /-- Nothing hangs below the old entry. -/
  below : ∀ j, s.view A (r, p ++ [i] ++ [j]) = none

theorem ne_snoc : ((r, p) : ℕ × List ℕ) ≠ (r, p ++ [i]) := by
  intro heq
  have := congrArg (fun x : ℕ × List ℕ => x.2.length) heq
  simp at this

theorem Storable.view_eq (hs : Storable R A s r p i e) (h : Sound R A s)
    (hV : s.view A (r, p) = some f) (hl : p.length < 4) (hp : UserPath (p ++ [i])) :
    (s.setWord f i e).view A = update (s.view A) (r, p ++ [i]) (follow e) := by
  refine view_store hV hl hp (fun y hy => h.sole (r, p) y f hV hl hy) hs.below ?_
  intro g hg hlen
  have hlen' : p.length < 3 := by
    simp only [userHalf_depth] at hlen
    omega
  refine ⟨?_, fun j _ => ?_⟩
  · rintro rfl
    have := (hs.alone g (r, p) hg hV ne_snoc).1
    omega
  · rw [hs.empty g hg hlen' j]
    exact follow_zero

/-- **One place of the forest changes**: it leads to a frame that may be named, for which there is a
reference, and that is shared only if it is a page. -/
theorem Sound.place {B : Set ℕ} {t : Ram} {o : Option ℕ} (h : Sound R A s)
    (hview : t.view B = update (s.view A) x o)
    (halone : ∀ g y, o = some g → s.view A y = some g → y ≠ x → 4 ≤ x.2.length ∧ 4 ≤ y.2.length)
    (hhome : ∀ g, o = some g → g ∉ R ∧ (g < s.pmm.total ∨ x.2.length = 4 ∧ maxFrames ≤ g))
    (hspare : ∀ g, o = some g → g < s.pmm.total →
      (holders (s.view A) g \ {x}).ncard + 1 ≤ s.pmm.refcnt g) :
    (∀ y z g, t.view B y = some g → y.2.length < 4 → t.view B z = some g → z = y) ∧
      (∀ y g, t.view B y = some g → g ∉ R ∧ (g < s.pmm.total ∨ y.2.length = 4 ∧ maxFrames ≤ g)) ∧
      ∀ g, g < s.pmm.total → t.held B g ≤ s.pmm.refcnt g := by
  refine ⟨fun y z g hy hly hz => ?_, fun y g hy => ?_, fun g hg => ?_⟩
  · rw [hview] at hy hz
    by_cases hyx : y = x
    · by_contra hzy
      rw [hyx, update_self] at hy
      rw [update_of_ne (hyx ▸ hzy)] at hz
      have := (halone g z hy hz (hyx ▸ hzy)).1
      rw [hyx] at hly
      omega
    rw [update_of_ne hyx] at hy
    by_cases hzx : z = x
    · rw [hzx, update_self] at hz
      have := (halone g y hz hy hyx).2
      omega
    · rw [update_of_ne hzx] at hz
      exact h.sole y z g hy hly hz
  · rw [hview] at hy
    by_cases hyx : y = x
    · rw [hyx, update_self] at hy
      exact hyx ▸ hhome g hy
    · rw [update_of_ne hyx] at hy
      exact h.home y g hy
  · unfold Ram.held
    rw [hview]
    by_cases ho : o = some g
    · rw [ho, holders_update_some, ← Set.insert_sdiff_singleton]
      exact (Set.ncard_insert_le _ _).trans (hspare g ho hg)
    · rw [holders_update_of_ne ho]
      exact (Set.ncard_le_ncard Set.sdiff_subset h.finite_holders).trans (h.refs g hg)

/-- **A store into a table.** -/
theorem Sound.setWord {e : Word} (h : Sound R A s) (hV : s.view A (r, p) = some f)
    (hl : p.length < 4) (hp : UserPath (p ++ [i])) (hs : Storable R A s r p i e) :
    Sound R A (s.setWord f i e) := by
  have hview := hs.view_eq h hV hl hp
  have hfR : f ∉ R := (h.home _ f hV).1
  obtain ⟨hsole, hhome, hrefs⟩ := h.place hview
    (fun g y he hy hne => by simpa using (hs.alone g y he hy hne).imp_left ge_of_eq)
    (by simpa using hs.home) hs.spare
  exact { h with
    sole := hsole
    home := hhome
    refs := hrefs
    half := fun r' hr' j hj => by
      have hk : s.kernel ≠ f := fun hk => hfR (hk ▸ h.kernel)
      show store s.mem f i e r' j = store s.mem f i e s.kernel j
      rw [store_frame hk, store_other]
      · exact h.half r' hr' j hj
      · -- an entry of the user half is not one of the kernel half
        rintro ⟨rfl, rfl⟩
        have hroot := h.sole _ _ r' hV hl (view_root hr')
        cases hroot
        have := hp.2 j rfl
        omega
    tidy := fun x g j hx hlx hpx => by
      rw [hview] at hx
      by_cases hx0 : x = (r, p ++ [i])
      · -- the new table is empty
        subst hx0
        rw [update_self] at hx
        have hlx : p.length + 1 < 4 := by simpa using hlx
        have hgf : g ≠ f := by
          rintro rfl
          have := (hs.alone g (r, p) hx hV ne_snoc).1
          omega
        have hzero : (s.setWord f i e).mem g j = 0#64 := by
          show store s.mem f i e g j = 0#64
          rw [store_frame hgf]
          exact hs.empty g hx (by omega) j
        rw [hzero]
        exact ⟨fun _ hc => absurd hc (by decide), fun _ _ => rfl⟩
      · rw [update_of_ne hx0] at hx
        by_cases hgj : g = f ∧ j = i
        · obtain ⟨rfl, rfl⟩ := hgj
          have hxe := h.sole _ _ g hV hl hx
          subst hxe
          rw [show (s.setWord g j e).mem g j = e from store_same]
          exact ⟨hs.small, hs.blank⟩
        · rw [show (s.setWord f i e).mem g j = s.mem g j from store_other hgj]
          exact h.tidy x g j hx hlx hpx }

/-! ## Counts -/

section

variable (h : Sound R A s)
include h

/-- A further reference never hurts. -/
theorem Sound.ref : Sound R A (s.ref f) := by
  unfold Ram.ref
  rcases s.pmm.refFrame_cases f with heq | ⟨h0, heq⟩
  · rw [heq]
    exact h
  rw [heq]
  refine h.recount (f := f) rfl (fun g hg => by simp [hg]) fun hf => ?_
  have hused := (h.counted f hf).mpr (Nat.pos_of_ne_zero h0)
  simpa [hused] using (h.refs f hf).trans (Nat.le_succ _)

/-- **Dropping a reference** that no holder stands for. -/
theorem Sound.unref (hR : f ∉ R) (hf : f < s.pmm.total ∨ maxFrames ≤ f)
    (hspare : f < s.pmm.total → s.held A f < s.pmm.refcnt f) : Sound R A (s.unref f) := by
  unfold Ram.unref
  rcases hf with hf | hf
  swap
  · rw [Pmm.unrefFrame_of_max hf]
    exact h
  have hused : s.pmm.used f = true := (h.counted f hf).mpr (by omega)
  obtain ⟨hcnt, hbit⟩ := Pmm.unrefFrame_spec hf h.total_le hused (by omega)
  refine h.recount (f := f) Pmm.unrefFrame_total (fun g hg => ?_) fun _ => ?_
  · rw [hcnt, hbit, update_of_ne hg, update_of_ne hg]
    exact ⟨rfl, rfl⟩
  · -- with the last reference the frame is free, and nothing leads to it
    rw [hcnt, hbit, update_self, update_self, decide_eq_true_iff]
    exact ⟨by omega, by omega, fun hc => absurd hc hR⟩

/-- What dropping a reference takes from the counts. -/
theorem Sound.refcnt_unref (hg : g < s.pmm.total ∨ maxFrames ≤ g)
    (hpos : g < s.pmm.total → 0 < s.pmm.refcnt g) (hf : f < s.pmm.total) :
    (s.unref g).pmm.refcnt f + (if g = f then 1 else 0) = s.pmm.refcnt f := by
  rw [Ram.unref_pmm]
  rcases hg with hlt | hmax
  · have h0 := hpos hlt
    obtain ⟨hcnt, -⟩ := Pmm.unrefFrame_spec hlt h.total_le ((h.counted g hlt).mpr h0) h0
    by_cases hgf : g = f
    · subst hgf
      rw [hcnt, update_self, if_pos rfl]
      omega
    · rw [hcnt, update_of_ne (Ne.symm hgf), if_neg hgf, Nat.add_zero]
  · have := h.total_le
    rw [Pmm.unrefFrame_of_max hmax, if_neg (by omega), Nat.add_zero]

/-- What a further reference to a page of the forest adds to the counts. -/
theorem Sound.refcnt_ref (hx : s.view A x = some g)
    (hroom : g < s.pmm.total → s.pmm.refcnt g < refMax) (hf : f < s.pmm.total) :
    (s.ref g).pmm.refcnt f = s.pmm.refcnt f + if g = f then 1 else 0 := by
  rw [Ram.ref_pmm]
  by_cases hgf : g = f
  · subst hgf
    have hpos := lt_of_lt_of_le (ncard_holders_pos h.finite_holders hx) (h.refs g hf)
    rw [Pmm.refFrame_of_lt hf h.total_le (by omega) (hroom hf)]
    simp
  · rcases s.pmm.refFrame_cases g with heq | ⟨-, heq⟩ <;> simp [heq, hgf, Ne.symm hgf]

/-- What taking a frame adds to the counts. -/
theorem Sound.refcnt_take (hg : g < s.pmm.total) (hu : s.pmm.used g = false) :
    (s.take g).pmm.refcnt f = s.pmm.refcnt f + if g = f then 1 else 0 := by
  by_cases hgf : g = f
  · subst hgf
    simp [h.refcnt_free hg hu]
  · simp [hgf, Ne.symm hgf]

/-! ## Roots -/

/-- **A new address space**: a fresh frame with the kernel's half. -/
theorem Sound.addRoot (hf : Fresh R A s f) (hlow : ∀ i, i < 256 → s.mem f i = 0#64)
    (hhigh : ∀ i, 256 ≤ i → s.mem f i = s.mem s.kernel i) : Sound R (insert f A) s := by
  have hfA : f ∉ A := fun hfA => hf.not_held _ (view_root hfA)
  have hview : s.view (insert f A) = update (s.view A) (f, []) (some f) := by
    refine view_insert userPath_nil hfA fun i hi => ?_
    rw [hlow i (hi.2 i rfl)]
    exact follow_zero
  obtain ⟨hsole, hhome, hrefs⟩ := h.place (t := s) hview
    (by rintro g y ⟨⟩ hy; exact absurd hy (hf.not_held y))
    (by rintro g ⟨⟩; exact ⟨hf.not_reserved, .inl hf.lt⟩)
    (by
      rintro g ⟨⟩ -
      have hnone : holders (s.view A) f = ∅ := Set.eq_empty_iff_forall_notMem.mpr hf.not_held
      rw [hnone, hf.refcnt]
      simp)
  exact { h with
    finite := h.finite.insert f
    sole := hsole
    home := hhome
    refs := hrefs
    half := fun r hr i hi => by
      rcases Set.mem_insert_iff.mp hr with rfl | hr
      · exact hhigh i hi
      · exact h.half r hr i hi
    tidy := fun x g i hx hlx hpx => by
      rw [hview] at hx
      by_cases hx0 : x = (f, [])
      · subst hx0
        rw [update_self] at hx
        cases hx
        rw [hlow i (hpx.2 i rfl)]
        exact ⟨fun _ hc => absurd hc (by decide), fun _ _ => rfl⟩
      · rw [update_of_ne hx0] at hx
        exact h.tidy x g i hx hlx hpx }

/-- Address spaces may be forgotten. -/
theorem Sound.mono (hB : B ⊆ A) : Sound R B s := by
  have hsub : ∀ x g, s.view B x = some g → s.view A x = some g := fun x g hx => view_mono hB hx
  exact { h with
    finite := h.finite.subset hB
    sole := fun x y g hx hlx hy => h.sole x y g (hsub x g hx) hlx (hsub y g hy)
    home := fun x g hx => h.home x g (hsub x g hx)
    refs := fun g hg =>
      (Set.ncard_le_ncard (fun x hx => hsub x g hx) h.finite_holders).trans (h.refs g hg)
    half := fun r hr => h.half r (hB hr)
    tidy := fun x g i hx hlx hpx => h.tidy x g i (hsub x g hx) hlx hpx }

end

end Xos.Mem
