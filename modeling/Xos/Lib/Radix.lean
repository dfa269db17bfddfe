import Mathlib.Data.Set.Card
import Mathlib.Data.Set.Finite.Lattice
import Mathlib.Logic.Function.Basic

/-!
# Trees of tables kept in frames

A memory is an array of frames, each an array of entries; an entry may lead to another
frame.  A radix tree over it is a root frame and, from there, a path of indices: all but the
last index select tables, the last one a leaf.  Nothing in the memory says which frames are
tables, so what a store does to a tree depends on who else can reach the frame.

* **walking** — `node` follows a path;
* **forests** — `view` is the partial function from a root and a path to the frame there, for a
  set of roots; `holders` are the places that lead to a frame;
* **edits** — a store into a table, a new root and the removal of a root each change the view at
  one place (`view_store`, `view_insert`, `view_erase`), and a store into a frame that is no
  table changes nothing (`view_scribble`).
-/

namespace Xos.Lib.Radix

open Function

variable {E : Type*}

/-- The frame at the end of a path. -/
def node (next : E → Option ℕ) (m : ℕ → ℕ → E) : ℕ → List ℕ → Option ℕ
  | f, [] => some f
  | f, i :: p => (next (m f i)).bind fun g => node next m g p

/-- Store an entry. -/
def store (m : ℕ → ℕ → E) (f i : ℕ) (e : E) : ℕ → ℕ → E :=
  update m f (update (m f) i e)

variable {next : E → Option ℕ} {m m' : ℕ → ℕ → E} {f g i j r : ℕ} {e : E} {p q : List ℕ}

theorem node_append : node next m f (p ++ q) = (node next m f p).bind fun g => node next m g q := by
  induction p generalizing f with
  | nil => rfl
  | cons i p ih =>
    simp only [List.cons_append, node]
    cases next (m f i) with
    | none => rfl
    | some => exact ih

theorem node_snoc : node next m f (p ++ [i]) = (node next m f p).bind fun g => next (m g i) := by
  rw [node_append]
  congr 1
  simp [node]

@[simp]
theorem store_same : store m f i e f i = e := by simp [store]

theorem store_other (h : ¬(g = f ∧ j = i)) : store m f i e g j = m g j := by
  unfold store
  by_cases hg : g = f
  · subst hg
    rw [update_self, update_of_ne fun hj => h ⟨rfl, hj⟩]
  · rw [update_of_ne hg]

theorem store_frame (h : g ≠ f) : store m f i e g = m g := update_of_ne h _ _

/-! ## The shape of the trees -/

/-- What the trees of a forest have in common: how an entry leads on, which paths count and
how long they are. -/
structure Layout (E : Type*) where
  next : E → Option ℕ
  /-- The paths that belong to the tree. -/
  ok : List ℕ → Prop
  /-- The length of a path to a leaf. -/
  depth : ℕ
  ok_left : ∀ {p q}, ok (p ++ q) → ok p
  finite : {p | ok p ∧ p.length ≤ depth}.Finite

variable (L : Layout E) {A : Set ℕ}

open Classical in
/-- The frames of the forest with the roots `A`: at a root and a path, the frame there. -/
noncomputable def view (A : Set ℕ) (m : ℕ → ℕ → E) (x : ℕ × List ℕ) : Option ℕ :=
  if x.1 ∈ A ∧ L.ok x.2 ∧ x.2.length ≤ L.depth then node L.next m x.1 x.2 else none

/-- The places that lead to a frame. -/
def holders (V : ℕ × List ℕ → Option ℕ) (f : ℕ) : Set (ℕ × List ℕ) := {x | V x = some f}

variable {L}

theorem view_eq (hr : r ∈ A) (hp : L.ok p) (hl : p.length ≤ L.depth) :
    view L A m (r, p) = node L.next m r p := if_pos ⟨hr, hp, hl⟩

theorem view_some_iff : view L A m (r, p) = some f ↔
      r ∈ A ∧ L.ok p ∧ p.length ≤ L.depth ∧ node L.next m r p = some f := by
  unfold view
  split
  · next h => simp [h]
  next h =>
  constructor
  · intro h'
    cases h'
  · intro h'
    exact absurd ⟨h'.1, h'.2.1, h'.2.2.1⟩ h

theorem view_none (h : ¬(r ∈ A ∧ L.ok p ∧ p.length ≤ L.depth)) : view L A m (r, p) = none :=
  if_neg h

theorem view_mono (hB : B ⊆ A) (h : view L B m x = some f) : view L A m x = some f := by
  obtain ⟨hr, hp, hl, hn⟩ := view_some_iff.mp h
  exact view_some_iff.mpr ⟨hB hr, hp, hl, hn⟩

/-- A path that leads somewhere is made of entries that lead on. -/
theorem view_snoc (hp : L.ok (p ++ [i])) (hl : p.length < L.depth) :
    view L A m (r, p ++ [i]) = (view L A m (r, p)).bind fun g => L.next (m g i) := by
  by_cases hr : r ∈ A
  · rw [view_eq hr hp (by simpa using hl), view_eq hr (L.ok_left hp) hl.le, node_snoc]
  · rw [view_none fun h => hr h.1, view_none fun h => hr h.1]
    rfl

theorem view_left (h : view L A m (r, p ++ q) = some f) : ∃ g, view L A m (r, p) = some g := by
  obtain ⟨hr, hp, hl, hn⟩ := view_some_iff.mp h
  rw [node_append] at hn
  obtain ⟨g, hg, -⟩ := Option.bind_eq_some_iff.mp hn
  refine ⟨g, view_some_iff.mpr ⟨hr, L.ok_left hp, ?_, hg⟩⟩
  rw [List.length_append] at hl
  omega

theorem finite_view (hA : A.Finite) : {x | view L A m x ≠ none}.Finite := by
  refine (hA.prod L.finite).subset ?_
  rintro ⟨r, p⟩ hx
  obtain ⟨f, hf⟩ := Option.ne_none_iff_exists'.mp hx
  obtain ⟨hr, hp, hl, -⟩ := view_some_iff.mp hf
  exact ⟨hr, hp, hl⟩

theorem finite_holders (hA : A.Finite) : (holders (view L A m) f).Finite :=
  (finite_view hA).subset fun x hx => by
    show view L A m x ≠ none
    rw [show view L A m x = some f from hx]
    exact Option.some_ne_none f

/-! ## Holders of an edited view -/

section Holders

variable {V : ℕ × List ℕ → Option ℕ} {x : ℕ × List ℕ} {v : Option ℕ}

theorem mem_holders : x ∈ holders V f ↔ V x = some f := Iff.rfl

theorem holders_update_some : holders (update V x (some f)) f = insert x (holders V f) := by
  ext y
  by_cases hy : y = x
  · subst hy; simp [holders]
  · simp [holders, hy]

theorem holders_update_of_ne (hv : v ≠ some f) : holders (update V x v) f = holders V f \ {x} := by
  ext y
  by_cases hy : y = x
  · subst hy; simp [holders, hv]
  · simp [holders, hy]

/-- A place that leads to the frame is one of its holders. -/
theorem ncard_holders_pos (hfin : (holders V f).Finite) (hx : V x = some f) :
    0 < (holders V f).ncard :=
  (Set.ncard_pos hfin).mpr ⟨x, hx⟩

/-- **How the number of holders changes** when one place is given another entry. -/
theorem ncard_holders_update (hfin : (holders V f).Finite) :
    (holders (update V x v) f).ncard + (if V x = some f then 1 else 0) =
      (holders V f).ncard + if v = some f then 1 else 0 := by
  have hrest : (holders V f \ {x}).ncard + (if V x = some f then 1 else 0) =
      (holders V f).ncard := by
    split
    · next hx => exact Set.ncard_sdiff_singleton_add_one hx hfin
    · next hx => rw [Set.sdiff_singleton_eq_self (mem_holders.not.mpr hx), Nat.add_zero]
  by_cases hv : v = some f
  · have hnew : (holders (update V x v) f).ncard = (holders V f \ {x}).ncard + 1 := by
      rw [hv, holders_update_some, ← Set.insert_sdiff_singleton]
      exact Set.ncard_insert_of_notMem (by simp) (hfin.subset Set.sdiff_subset)
    rw [if_pos hv]
    omega
  · rw [holders_update_of_ne hv, hrest, if_neg hv, Nat.add_zero]

end Holders

/-! ## Edits -/

/-- **A store into a frame that is no table** leaves the forest as it is. -/
theorem view_congr
    (h : ∀ r p g i, view L A m (r, p) = some g → p.length < L.depth → L.ok (p ++ [i]) →
      m' g i = m g i) :
    view L A m' = view L A m := by
  funext ⟨r, p⟩
  by_cases hx : r ∈ A ∧ L.ok p ∧ p.length ≤ L.depth
  · obtain ⟨hr, hp, hl⟩ := hx
    -- from the root downwards: each table on the way holds what it held
    induction p using List.reverseRecOn with
    | nil => rw [view_eq hr hp hl, view_eq hr hp hl]; rfl
    | append_singleton q i ih =>
      have hlq : q.length < L.depth := by simpa using hl
      rw [view_snoc hp hlq, view_snoc hp hlq, ih (L.ok_left hp) hlq.le]
      cases hg : view L A m (r, q) with
      | none => rfl
      | some g => exact congrArg L.next (h r q g i hg hlq hp)
  · rw [view_none hx, view_none hx]

theorem view_scribble (hf : ∀ r p, view L A m (r, p) = some f → L.depth ≤ p.length)
    (h : ∀ g, g ≠ f → m' g = m g) : view L A m' = view L A m := by
  refine view_congr fun r p g i hg hl _ => ?_
  rw [h g]
  rintro rfl
  exact absurd (hf r p hg) (by omega)

/-- **A store into a table** that only one place leads to changes the view at one place,
provided nothing hangs below that place, before or after. -/
theorem view_store (hV : view L A m (r, p) = some f) (hl : p.length < L.depth)
    (hok : L.ok (p ++ [i])) (hsole : ∀ y, view L A m y = some f → y = (r, p))
    (hbelow : ∀ j, view L A m (r, p ++ [i] ++ [j]) = none)
    (hfresh : ∀ g, L.next e = some g → p.length + 1 < L.depth →
      g ≠ f ∧ ∀ j, L.ok (p ++ [i] ++ [j]) → L.next (m g j) = none) :
    view L A (store m f i e) = update (view L A m) (r, p ++ [i]) (L.next e) := by
  obtain ⟨hr, -, -, -⟩ := view_some_iff.mp hV
  funext ⟨r', p'⟩
  by_cases hx : r' ∈ A ∧ L.ok p' ∧ p'.length ≤ L.depth
  swap
  · rw [view_none hx, update_of_ne, view_none hx]
    intro heq
    obtain ⟨rfl, rfl⟩ := Prod.mk.inj heq
    exact hx ⟨hr, hok, by simpa using hl⟩
  obtain ⟨hr', hp', hl'⟩ := hx
  induction p' using List.reverseRecOn with
  | nil =>
    rw [update_of_ne, view_eq hr' hp' hl', view_eq hr' hp' hl']
    · rfl
    · intro heq
      simp at heq
  | append_singleton q j ih =>
    have hlq : q.length < L.depth := by simpa using hl'
    rw [view_snoc hp' hlq, ih (L.ok_left hp') hlq.le]
    by_cases hq : (r', q) = (r, p ++ [i])
    · -- below the place of the store
      obtain ⟨rfl, rfl⟩ := Prod.mk.inj hq
      have hne : ((r', p ++ [i] ++ [j]) : ℕ × List ℕ) ≠ (r', p ++ [i]) := by
        intro heq
        have := congrArg (fun x : ℕ × List ℕ => x.2.length) heq
        simp at this
      rw [update_self, update_of_ne hne, hbelow]
      cases hg : L.next e with
      | none => rfl
      | some g =>
        obtain ⟨hgf, hempty⟩ := hfresh g hg (by simpa using hlq)
        rw [Option.bind_some, store_frame hgf]
        exact hempty j hp'
    rw [update_of_ne hq]
    by_cases hqf : view L A m (r', q) = some f
    · obtain ⟨rfl, rfl⟩ := Prod.mk.inj (hsole _ hqf)
      rw [hqf, Option.bind_some]
      by_cases hj : j = i
      · subst hj
        rw [store_same, update_self]
      rw [store_other fun h => hj h.2, update_of_ne, view_snoc hp' hlq, hqf, Option.bind_some]
      intro heq
      simp at heq
      exact hj heq
    rw [update_of_ne, view_snoc hp' hlq]
    · cases hg : view L A m (r', q) with
      | none => rfl
      | some =>
        rw [Option.bind_some, Option.bind_some, store_frame]
        rintro rfl
        exact hqf hg
    · intro heq
      obtain ⟨rfl, hqi⟩ := Prod.mk.inj heq
      obtain ⟨rfl, -⟩ := List.append_inj' hqi rfl
      exact hqf hV

/-- **A new root** whose table is empty. -/
theorem view_insert (hok : L.ok []) (hr : r ∉ A) (hempty : ∀ i, L.ok [i] → L.next (m r i) = none) :
    view L (insert r A) m = update (view L A m) (r, []) (some r) := by
  funext ⟨r', p⟩
  by_cases hrr : r' = r
  · subst hrr
    cases p with
    | nil =>
      rw [update_self, view_eq (Set.mem_insert _ _) hok (Nat.zero_le _)]
      rfl
    | cons i p =>
      rw [update_of_ne (by simp), view_none fun h => hr h.1]
      by_cases hx : r' ∈ insert r' A ∧ L.ok (i :: p) ∧ (i :: p).length ≤ L.depth
      · rw [view_eq hx.1 hx.2.1 hx.2.2, node]
        have hi : L.ok [i] := L.ok_left (p := [i]) (q := p) hx.2.1
        rw [hempty i hi]
        rfl
      · rw [view_none hx]
  · rw [update_of_ne fun h => hrr (Prod.mk.inj h).1]
    by_cases hx : r' ∈ A ∧ L.ok p ∧ p.length ≤ L.depth
    · rw [view_eq hx.1 hx.2.1 hx.2.2, view_eq (Set.mem_insert_of_mem _ hx.1) hx.2.1 hx.2.2]
    rw [view_none hx, view_none]
    rintro ⟨hA, h⟩
    exact hx ⟨(Set.mem_insert_iff.mp hA).resolve_left hrr, h⟩

/-- **The removal of a root** whose table is empty. -/
theorem view_erase (hempty : ∀ i, view L A m (r, [i]) = none) :
    view L (A \ {r}) m = update (view L A m) (r, []) none := by
  funext ⟨r', p⟩
  by_cases hrr : r' = r
  · subst hrr
    rw [view_none (A := A \ {r'}) (by simp)]
    cases p with
    | nil => rw [update_self]
    | cons i p =>
      rw [update_of_ne (by simp)]
      cases hv : view L A m (r', i :: p) with
      | none => rfl
      | some =>
        obtain ⟨g, hg⟩ := view_left (p := [i]) (q := p) hv
        rw [hempty i] at hg
        cases hg
  · rw [update_of_ne fun h => hrr (Prod.mk.inj h).1]
    by_cases hx : r' ∈ A ∧ L.ok p ∧ p.length ≤ L.depth
    · have hr' : r' ∈ A \ {r} := ⟨hx.1, hrr⟩
      rw [view_eq hx.1 hx.2.1 hx.2.2, view_eq hr' hx.2.1 hx.2.2]
    rw [view_none hx, view_none]
    rintro ⟨hA, h⟩
    exact hx ⟨hA.1, h⟩

end Xos.Lib.Radix
