import Mathlib

/-!
# Intrusive singly linked lists

A list that threads through a `next` word inside each of its nodes, with one
head word per queue, is what C kernels use for their run queues.  The words
are modelled by `Links`, a map from `Cell`s to the node they point at, so that
the pointer-to-pointer idiom

    while (*pp) { if (*pp == p) …; pp = &(*pp)->next; }

can be followed word by word (`scan`), and so that a stray store to a `next`
word does to the model what it does to the machine.

* `Chain` says which list of nodes a word starts;
* `scan_chain` — the loop above stops at the first node that passes its test,
  and stops at all because a chain is finite;
* `chain_unlink`, `Queues.append` — what `*pp = p->next; p->next = NULL` and
  `*tail = p` do to the chain they are applied to, and `Chain.congr` — what any
  store does to the others.
-/

namespace Xos.Lib

open Function

variable {Q P : Type} {L : Q → List P} {p : P}

/-- A pointer word: the head word of a queue, or the `next` word of a node. -/
inductive Cell (Q P : Type) where
  | head (q : Q)
  | next (p : P)
  deriving DecidableEq

/-- The contents of all pointer words; `none` is `NULL`. -/
abbrev Links (Q P : Type) := Cell Q P → Option P

/-- `Chain m c l`: following the word `c` one visits exactly `l`, then `NULL`. -/
def Chain (m : Links Q P) : Cell Q P → List P → Prop
  | c, [] => m c = none
  | c, p :: l => m c = some p ∧ Chain m (.next p) l

/-- The word that follows the nodes of `l` when the walk starts at `c`. -/
def endCell : Cell Q P → List P → Cell Q P
  | c, [] => c
  | _, p :: l => endCell (.next p) l

/-- The words a walk from `c` over `l` reads. -/
def cells (c : Cell Q P) (l : List P) : List (Cell Q P) := c :: l.map .next

/-! ## Walking a chain -/

/-- `pp = c; while (*pp) { if (stop(*pp)) break; pp = &(*pp)->next; }` with a
bound on the number of turns.  `none`: the bound was reached; `some none`: the
walk ran into `NULL`; `some (some (pp, p))`: it stopped at the word `pp`, which
points at `p`. -/
def scan (stop : P → Bool) (m : Links Q P) : ℕ → Cell Q P → Option (Option (Cell Q P × P))
  | 0, _ => none
  | n + 1, c =>
    match m c with
    | none => some none
    | some p => if stop p then some (some (c, p)) else scan stop m n (.next p)

/-- The nodes visited by `for (p = *c; p; p = p->next)`, with a bound on the
number of turns. -/
def traverse (m : Links Q P) : ℕ → Cell Q P → Option (List P)
  | 0, _ => none
  | n + 1, c =>
    match m c with
    | none => some []
    | some p => (traverse m n (.next p)).map (p :: ·)

/-- `tail = c; while (*tail) tail = &(*tail)->next;` -/
def tailCell (m : Links Q P) : ℕ → Cell Q P → Option (Cell Q P)
  | 0, _ => none
  | n + 1, c =>
    match m c with
    | none => some c
    | some p => tailCell m n (.next p)

variable {m : Links Q P}

theorem traverse_chain : ∀ {l : List P} {c : Cell Q P} {n : ℕ},
    Chain m c l → l.length < n → traverse m n c = some l := by
  intro l
  induction l with
  | nil =>
    intro c n h hn
    obtain ⟨k, rfl⟩ : ∃ k, n = k + 1 := ⟨n - 1, by simp at hn; omega⟩
    simp [traverse, show m c = none from h]
  | cons p l ih =>
    intro c n h hn
    obtain ⟨k, rfl⟩ : ∃ k, n = k + 1 := ⟨n - 1, by simp at hn; omega⟩
    have hk : l.length < k := by simp at hn; omega
    simp [traverse, h.1, ih h.2 hk]

theorem tailCell_chain : ∀ {l : List P} {c : Cell Q P} {n : ℕ},
    Chain m c l → l.length < n → tailCell m n c = some (endCell c l) := by
  intro l
  induction l with
  | nil =>
    intro c n h hn
    obtain ⟨k, rfl⟩ : ∃ k, n = k + 1 := ⟨n - 1, by simp at hn; omega⟩
    simp [tailCell, endCell, show m c = none from h]
  | cons p l ih =>
    intro c n h hn
    obtain ⟨k, rfl⟩ : ∃ k, n = k + 1 := ⟨n - 1, by simp at hn; omega⟩
    have hk : l.length < k := by simp at hn; omega
    simp [tailCell, endCell, h.1, ih h.2 hk]

/-- **The search loop.**  Over a chain it either passes every node, or stops at
the first node the test accepts, at the word that points there. -/
theorem scan_chain (stop : P → Bool) :
    ∀ {l : List P} {c : Cell Q P} {n : ℕ}, Chain m c l → l.length < n →
      (scan stop m n c = some none ∧ ∀ p ∈ l, stop p = false) ∨
      ∃ l₁ p l₂, l = l₁ ++ p :: l₂ ∧ (∀ x ∈ l₁, stop x = false) ∧ stop p = true ∧
        scan stop m n c = some (some (endCell c l₁, p)) := by
  intro l
  induction l with
  | nil =>
    intro c n h hn
    obtain ⟨k, rfl⟩ : ∃ k, n = k + 1 := ⟨n - 1, by simp at hn; omega⟩
    simp [scan, show m c = none from h]
  | cons p l ih =>
    intro c n h hn
    obtain ⟨k, rfl⟩ : ∃ k, n = k + 1 := ⟨n - 1, by simp at hn; omega⟩
    have hk : l.length < k := by simp at hn; omega
    by_cases hp : stop p = true
    · right
      exact ⟨[], p, l, rfl, by simp, hp, by simp [scan, h.1, hp, endCell]⟩
    have hp' : stop p = false := by simpa using hp
    have hscan : scan stop m (k + 1) c = scan stop m k (.next p) := by
      simp [scan, h.1, hp']
    rcases ih h.2 hk with ⟨hs, hall⟩ | ⟨l₁, x, l₂, hl, hl₁, hx, hs⟩
    · left
      refine ⟨hscan.trans hs, ?_⟩
      intro y hy
      rcases List.mem_cons.1 hy with rfl | hy
      · exact hp'
      · exact hall y hy
    right
    refine ⟨p :: l₁, x, l₂, by rw [hl]; rfl, ?_, hx, hscan.trans hs⟩
    intro y hy
    rcases List.mem_cons.1 hy with rfl | hy
    · exact hp'
    · exact hl₁ y hy

/-! ## Stores -/

/-- A chain depends only on the words it reads. -/
theorem Chain.congr : ∀ {l : List P} {c : Cell Q P},
    Chain m c l → (∀ x ∈ cells c l, m' x = m x) → Chain m' c l := by
  intro l
  induction l with
  | nil => intro c h hm; exact (hm c (by simp [cells])).trans h
  | cons p l ih =>
    intro c h hm
    refine ⟨(hm c (by simp [cells])).trans h.1, ih h.2 ?_⟩
    intro x hx
    exact hm x (by simp only [cells, List.map_cons] at hx ⊢; tauto)

theorem endCell_mem_cells : ∀ (l : List P) (c : Cell Q P), endCell c l ∈ cells c l := by
  intro l
  induction l with
  | nil => intro c; simp [endCell, cells]
  | cons p l ih =>
    have h := ih (.next p)
    tauto

/-- The word after a non-empty run of nodes is the `next` word of one of them. -/
theorem endCell_eq (c : Cell Q P) (l : List P) :
    endCell c l = c ∨ ∃ p ∈ l, endCell c l = .next p := by
  have h := endCell_mem_cells l c
  simp only [cells, List.mem_cons, List.mem_map] at h
  rcases h with h | ⟨p, hp, h⟩
  · exact Or.inl h
  · exact Or.inr ⟨p, hp, h.symm⟩

/-- A chain may be cut after any of its nodes. -/
theorem chain_drop : ∀ {l₁ l₂ : List P} {c : Cell Q P},
    Chain m c (l₁ ++ l₂) → Chain m (endCell c l₁) l₂ := by
  intro l₁
  induction l₁ with
  | nil => intro l₂ c h; exact h
  | cons p l ih => intro l₂ c h; exact ih h.2

/-- Redirecting the word after `l₁` replaces the rest of the chain. -/
theorem chain_splice : ∀ {l₁ l₂ l₃ : List P} {c : Cell Q P},
    Chain m c (l₁ ++ l₂) → (cells c l₁).Nodup →
    (∀ x ∈ cells c l₁, x ≠ endCell c l₁ → m' x = m x) →
    Chain m' (endCell c l₁) l₃ → Chain m' c (l₁ ++ l₃) := by
  intro l₁
  induction l₁ with
  | nil => intro l₂ l₃ c _ _ _ h; exact h
  | cons p l ih =>
    intro l₂ l₃ c h hnd hm hend
    have hnd' : c ∉ cells (.next p) l ∧ (cells (Cell.next (Q := Q) p) l).Nodup := by
      simpa only [cells, List.map_cons, List.nodup_cons] using hnd
    refine ⟨?_, ih h.2 hnd'.2 ?_ hend⟩
    · rw [hm c (by simp [cells]) ?_]
      · exact h.1
      · intro hc
        exact hnd'.1 (hc ▸ endCell_mem_cells l (.next p))
    · intro x hx hne
      exact hm x (List.mem_cons_of_mem _ hx) hne

theorem cells_head_nodup (q : Q) {l : List P} (h : l.Nodup) : (cells (Cell.head q) l).Nodup := by
  refine List.nodup_cons.2 ⟨by simp, h.map ?_⟩
  intro x y hxy
  exact Cell.next.inj hxy

/-! ## Several queues over one set of nodes -/

/-- The words `m` hold the queues `L`: each head starts its list, and no node is
linked twice, in one queue or in two. -/
structure Queues (m : Links Q P) (L : Q → List P) : Prop where
  chain : ∀ q, Chain m (.head q) (L q)
  nodup : ∀ q, (L q).Nodup
  disj : ∀ q q' p, p ∈ L q → p ∈ L q' → q = q'

/-- The words of two different queues are different words. -/
theorem Queues.cells_disj (h : Queues m L) (hx : x ∈ cells (.head q) (L q))
    (hx' : x ∈ cells (.head q') (L q')) :
    q = q' := by
  simp only [cells, List.mem_cons, List.mem_map] at hx hx'
  rcases hx with rfl | ⟨p, hp, rfl⟩
  · rcases hx' with hx' | ⟨p', -, hx'⟩
    · exact Cell.head.inj hx'
    · cases hx'
  rcases hx' with hx' | ⟨p', hp', hx'⟩
  · cases hx'
  · exact h.disj q q' p hp (Cell.next.inj hx' ▸ hp')

theorem mem_cells_append {c x : Cell Q P} {l₁ l₂ : List P} (h : x ∈ cells c l₁) :
    x ∈ cells c (l₁ ++ l₂) := by
  simp only [cells, List.map_append, List.mem_cons, List.mem_append] at h ⊢
  tauto

theorem next_mem_cells {c : Cell Q P} {l : List P} (h : p ∈ l) : .next p ∈ cells c l :=
  List.mem_cons_of_mem _ (List.mem_map_of_mem h)

variable [DecidableEq Q] [DecidableEq P]

/-- `*pp = p->next; p->next = NULL;` -/
def unlinkAt (m : Links Q P) (pp : Cell Q P) (p : P) : Links Q P :=
  update (update m pp (m (.next p))) (.next p) none

theorem unlinkAt_of_ne (h₁ : x ≠ pp) (h₂ : x ≠ .next p) : unlinkAt m pp p x = m x := by
  rw [unlinkAt, update_of_ne h₂, update_of_ne h₁]

theorem chain_unlink (h : Chain m (.head q) (l₁ ++ p :: l₂)) (hnd : (l₁ ++ p :: l₂).Nodup) :
    Chain (unlinkAt m (endCell (.head q) l₁) p) (.head q) (l₁ ++ l₂) := by
  have hp₁ : p ∉ l₁ := fun hc => (List.nodup_append.1 hnd).2.2 p hc p (by simp) rfl
  have hp₂ : p ∉ l₂ := (List.nodup_cons.1 (List.nodup_append.1 hnd).2.1).1
  have hnot : Cell.next p ∉ cells (Cell.head q) l₁ := by
    simpa [cells] using hp₁
  have hend : endCell (Cell.head q) l₁ ≠ .next p := fun hc =>
    hnot (hc ▸ endCell_mem_cells l₁ _)
  refine chain_splice h (cells_head_nodup q (List.nodup_append.1 hnd).1) ?_ ?_
  · intro x hx hne
    exact unlinkAt_of_ne hne (fun hc => hnot (hc ▸ hx))
  · -- the redirected word now starts what followed `p`
    have hrest : Chain m (.next p) l₂ := (chain_drop h).2
    have hword : unlinkAt m (endCell (.head q) l₁) p (endCell (.head q) l₁) = m (.next p) := by
      rw [unlinkAt, update_of_ne hend, update_self]
    cases l₂ with
    | nil => exact hword.trans hrest
    | cons y t =>
      refine ⟨hword.trans hrest.1, hrest.2.congr ?_⟩
      intro x hx
      simp only [cells, List.mem_cons, List.mem_map] at hx
      have hxy : ∃ z ∈ y :: t, x = Cell.next z := by
        rcases hx with rfl | ⟨z, hz, rfl⟩
        · exact ⟨y, by simp, rfl⟩
        · exact ⟨z, by simp [hz], rfl⟩
      obtain ⟨z, hz, rfl⟩ := hxy
      refine unlinkAt_of_ne ?_ ?_
      · intro hc
        rcases endCell_eq (Cell.head q) l₁ with h' | ⟨w, hw, h'⟩
        · rw [h'] at hc; cases hc
        rw [h'] at hc
        have hzw : z = w := Cell.next.inj hc
        subst hzw
        exact (List.nodup_append.1 hnd).2.2 z hw z (List.mem_cons_of_mem _ hz) rfl
      · intro hc
        exact hp₂ (Cell.next.inj hc ▸ hz)

/-- Taking a node out of the queue it is linked in. -/
theorem Queues.unlink (h : Queues m L) (hq : L q = l₁ ++ p :: l₂) :
    Queues (unlinkAt m (endCell (.head q) l₁) p) (update L q (l₁ ++ l₂)) := by
  have hnd : (l₁ ++ p :: l₂).Nodup := hq ▸ h.nodup q
  have hsub : ∀ q' x, x ∈ update L q (l₁ ++ l₂) q' → x ∈ L q' := by
    intro q' x hx
    by_cases hqq : q' = q
    · subst hqq
      rw [update_self] at hx
      rw [hq]
      rcases List.mem_append.1 hx with hx | hx
      · exact List.mem_append_left _ hx
      · exact List.mem_append_right _ (List.mem_cons_of_mem _ hx)
    · rwa [update_of_ne hqq] at hx
  refine ⟨?_, ?_, fun q₁ q₂ x h₁ h₂ => h.disj q₁ q₂ x (hsub _ _ h₁) (hsub _ _ h₂)⟩
  · intro q'
    by_cases hqq : q' = q
    · subst hqq
      rw [update_self]
      exact chain_unlink (hq ▸ h.chain q') hnd
    rw [update_of_ne hqq]
    refine (h.chain q').congr ?_
    intro x hx
    -- both words stored to are words of queue `q`
    refine unlinkAt_of_ne ?_ ?_
    · rintro rfl
      refine hqq (h.cells_disj hx ?_)
      rw [hq]
      exact mem_cells_append (endCell_mem_cells l₁ _)
    · rintro rfl
      refine hqq (h.cells_disj hx ?_)
      rw [hq]
      exact next_mem_cells (List.mem_append_right _ (List.mem_cons_self ..))
  · intro q'
    by_cases hqq : q' = q
    · subst hqq
      rw [update_self]
      exact (List.nodup_middle.1 hnd).of_cons
    · rw [update_of_ne hqq]
      exact h.nodup q'

/-- The same, told by what is left in the queues. -/
theorem Queues.unlink_erase (h : Queues m L) (hq : L q = l₁ ++ p :: l₂) :
    Queues (unlinkAt m (endCell (.head q) l₁) p) (fun q' => (L q').erase p) := by
  have hnd : (l₁ ++ p :: l₂).Nodup := hq ▸ h.nodup q
  have hp₁ : p ∉ l₁ := fun hc => (List.nodup_append.1 hnd).2.2 p hc p (List.mem_cons_self ..) rfl
  have hL : (fun q' => (L q').erase p) = update L q (l₁ ++ l₂) := by
    funext q'
    by_cases hqq : q' = q
    · subst hqq
      rw [update_self, hq, List.erase_append_right _ hp₁, List.erase_cons_head]
    rw [update_of_ne hqq]
    refine List.erase_of_not_mem (fun hc => hqq (h.disj q' q p hc ?_))
    rw [hq]; simp
  rw [hL]
  exact h.unlink hq

/-- Storing to the `next` word of a node that is in no queue. -/
theorem Queues.store_next (h : Queues m L) (hp : ∀ q, p ∉ L q) (v : Option P) :
    Queues (update m (.next p) v) L := by
  refine ⟨?_, h.nodup, h.disj⟩
  intro q
  refine (h.chain q).congr ?_
  intro x hx
  refine update_of_ne ?_ _ _
  rintro rfl
  simp only [cells, List.mem_cons, List.mem_map, reduceCtorEq, false_or] at hx
  obtain ⟨z, hz, hzp⟩ := hx
  exact hp q (Cell.next.inj hzp ▸ hz)

/-- `p->next = NULL; *tail = p;` for a node that is in no queue. -/
theorem Queues.append (h : Queues m L) (hp : ∀ q, p ∉ L q) (q : Q) :
    Queues (update (update m (.next p) none) (endCell (.head q) (L q)) (some p))
      (update L q (L q ++ [p])) := by
  set m₁ := update m (.next p) none with hm₁
  have h₁ : Queues m₁ L := h.store_next hp none
  have hend : endCell (Cell.head q) (L q) ∈ cells (Cell.head q) (L q) := endCell_mem_cells _ _
  have hne : Cell.next p ≠ endCell (Cell.head q) (L q) := by
    intro hc
    rw [← hc] at hend
    simp only [cells, List.mem_cons, List.mem_map, reduceCtorEq, false_or] at hend
    obtain ⟨z, hz, hzp⟩ := hend
    exact hp q (Cell.next.inj hzp ▸ hz)
  refine ⟨?_, ?_, ?_⟩
  · intro q'
    by_cases hqq : q' = q
    · subst hqq
      rw [update_self]
      have hc : Chain m₁ (.head q') (L q' ++ []) := by simpa using h₁.chain q'
      refine chain_splice hc (cells_head_nodup q' (h.nodup q'))
        (fun x _ hx => update_of_ne hx _ _) ?_
      refine ⟨update_self .., ?_⟩
      rw [Chain, update_of_ne hne, hm₁, update_self]
    · rw [update_of_ne hqq]
      refine (h₁.chain q').congr ?_
      intro x hx
      refine update_of_ne ?_ _ _
      rintro rfl
      exact hqq (h.cells_disj hx hend)
  · intro q'
    by_cases hqq : q' = q
    · subst hqq
      rw [update_self]
      refine List.nodup_append.2 ⟨h.nodup q', by simp, ?_⟩
      intro a ha b hb hab
      rw [List.mem_singleton] at hb
      exact hp q' (hb ▸ hab ▸ ha)
    · rw [update_of_ne hqq]
      exact h.nodup q'
  · intro q₁ q₂ x hx₁ hx₂
    have key : ∀ q', x ∈ update L q (L q ++ [p]) q' → x ∈ L q' ∨ (x = p ∧ q' = q) := by
      intro q' hx
      by_cases hqq : q' = q
      · subst hqq
        rw [update_self, List.mem_append, List.mem_singleton] at hx
        rcases hx with hx | hx
        · exact Or.inl hx
        · exact Or.inr ⟨hx, rfl⟩
      · rw [update_of_ne hqq] at hx
        exact Or.inl hx
    rcases key q₁ hx₁ with h₁' | ⟨rfl, rfl⟩ <;> rcases key q₂ hx₂ with h₂' | ⟨hx, rfl⟩
    · exact h.disj q₁ q₂ x h₁' h₂'
    · exact absurd (hx ▸ h₁') (hp q₁)
    · exact absurd h₂' (hp q₂)
    · rfl

end Xos.Lib
