import Xos.Lib.BlockTree

/-!
# Paths in a tree of blocks

Every entry of a directory carries a label, so the labels along the way from the root
are a path.

* **one path for each inode** of a sound tree — `Path.unique`;
* **one inode for each path**, while the names in each directory are distinct —
  `Path.det`;
* **what the edits do to paths** — `Create.path_iff` (one path more), `Remove.path_iff`
  (the file's path less), and nothing for `Agree` and `Resize`.
-/

namespace Xos.Lib

namespace BlockTree

variable {α : Type*} {t t' : BlockTree α} {p q i d c f : ℕ}

/-! ## Paths -/

/-- The directory `p` has an entry with the name `a` for `c`. -/
def Child (t : BlockTree α) (p : ℕ) (a : α) (c : ℕ) : Prop :=
  ∃ i d, t.Entry p i d c ∧ t.label (t.slot p i) d = a

/-- The names `l` lead from the root to `c`. -/
inductive Path (t : BlockTree α) : List α → ℕ → Prop
  | nil : Path t [] t.root
  | snoc {l : List α} {p : ℕ} {a : α} {c : ℕ} :
      Path t l p → t.Child p a c → Path t (l ++ [a]) c

/-- No directory has two entries with the same name. -/
def DistinctNames (t : BlockTree α) : Prop :=
  ∀ ⦃p i d c j e c'⦄, t.Live p → t.Entry p i d c → t.Entry p j e c' →
    t.label (t.slot p i) d = t.label (t.slot p j) e → i = j ∧ d = e

variable {l l' : List α} {a : α}

theorem Path.live (h : t.Path l c) : t.Live c := by
  induction h with
  | nil => exact .root
  | snoc _ hc ih =>
    obtain ⟨i, d, he, -⟩ := hc
    exact .child ih he

theorem path_nil_iff : t.Path [] c ↔ c = t.root := by
  constructor
  · intro h
    generalize hl : ([] : List α) = l at h
    cases h with
    | nil => rfl
    | snoc => simp at hl
  · rintro rfl; exact .nil

theorem path_snoc_iff : t.Path (l ++ [a]) c ↔ ∃ p, t.Path l p ∧ t.Child p a c := by
  constructor
  · intro h
    generalize hl : l ++ [a] = l' at h
    cases h with
    | nil => simp at hl
    | snoc hp hc =>
      obtain ⟨rfl, hx⟩ := List.append_inj' hl rfl
      cases hx
      exact ⟨_, hp, hc⟩
  · rintro ⟨p, hp, hc⟩
    exact .snoc hp hc

/-- **One path for each inode.** -/
theorem Path.unique (hs : t.Sound) (h : t.Path l c) (h' : t.Path l' c) : l = l' := by
  induction h generalizing l' with
  | nil =>
    generalize hc : t.root = c at h'
    cases h' with
    | nil => rfl
    | snoc hp hch =>
      obtain ⟨i, d, he, -⟩ := hch
      cases hs.unique (o := .super) (u := .entry _ i d) hc.symm ⟨hp.live, he⟩
  | @snoc l₁ p₁ a₁ c₁ hp hch ih =>
    obtain ⟨i, d, he, hla⟩ := hch
    generalize hc : c₁ = c at h'
    cases h' with
    | nil => cases hs.unique (o := .super) (u := .entry _ i d) hc ⟨hp.live, he⟩
    | snoc hp' hch' =>
      obtain ⟨j, e, he', hlb⟩ := hch'
      subst hc
      -- the two last steps are one entry
      cases hs.unique (o := .entry _ i d) (u := .entry _ j e) ⟨hp.live, he⟩ ⟨hp'.live, he'⟩
      rw [ih hp', ← hla, ← hlb]

/-- **One inode for each path**, while names are distinct. -/
theorem Path.det (hd : t.DistinctNames) (h : t.Path l c) (h' : t.Path l c') : c = c' := by
  induction h generalizing c' with
  | nil => exact (path_nil_iff.1 h').symm
  | snoc hp hch ih =>
    obtain ⟨p', hp', hch'⟩ := path_snoc_iff.1 h'
    obtain rfl := ih hp'
    obtain ⟨i, d, he, hla⟩ := hch
    obtain ⟨j, e, he', hlb⟩ := hch'
    obtain ⟨rfl, rfl⟩ := hd hp.live he he' (hla.trans hlb.symm)
    exact he.names.symm.trans he'.names

/-! ## The edits -/

theorem Agree.child_iff (h : Agree t t') (hp : t.Live p) : t'.Child p a c ↔ t.Child p a c := by
  constructor
  · rintro ⟨i, d, he, hla⟩
    have he := (h.entry_iff hp).1 he
    rw [(h.inode hp).slot, (h.entry hp he.dir he.index he.place).label] at hla
    exact ⟨i, d, he, hla⟩
  · rintro ⟨i, d, he, hla⟩
    refine ⟨i, d, (h.entry_iff hp).2 he, ?_⟩
    rw [(h.inode hp).slot, (h.entry hp he.dir he.index he.place).label]
    exact hla

/-- Paths are the same where every live directory has the same children. -/
theorem path_iff_of_child (hroot : t'.root = t.root)
    (h : ∀ {p a c}, t.Live p → (t'.Child p a c ↔ t.Child p a c)) :
    t'.Path l c ↔ t.Path l c := by
  constructor
  · intro hp
    induction hp with
    | nil => rw [hroot]; exact .nil
    | snoc _ hc ih => exact .snoc ih ((h ih.live).1 hc)
  · intro hp
    induction hp with
    | nil => rw [← hroot]; exact .nil
    | snoc hp hc ih => exact .snoc ih ((h hp.live).2 hc)

theorem Agree.path_iff (h : Agree t t') : t'.Path l c ↔ t.Path l c :=
  path_iff_of_child h.shape.root fun hp => h.child_iff hp

theorem DistinctNames.agree (hd : t.DistinctNames) (h : Agree t t') : t'.DistinctNames := by
  intro p i d c j e c' hp he he' hla
  have hp := h.live_iff.1 hp
  have he := (h.entry_iff hp).1 he
  have he' := (h.entry_iff hp).1 he'
  rw [(h.inode hp).slot, (h.inode hp).slot, (h.entry hp he.dir he.index he.place).label,
    (h.entry hp he'.dir he'.index he'.place).label] at hla
  exact hd hp he he' hla

section Create

variable {ino data : ℕ} {isDir : Bool}

theorem Create.child_iff (h : Create t t' p i d ino data isDir) (hq : t.Live q) : t'.Child q a c ↔
      t.Child q a c ∨ (q = p ∧ c = ino ∧ a = t'.label (t.slot p i) d) := by
  -- an old entry is not at the place of the new one
  have hat : ∀ {j e c}, t.Entry q j e c → ¬ (q = p ∧ j = i ∧ e = d) := by
    rintro j e c he ⟨rfl, rfl, rfl⟩
    exact he.nonzero (he.names.symm.trans h.free)
  constructor
  · rintro ⟨j, e, he, hla⟩
    rw [(h.inode hq).slot] at hla
    rcases (h.entry_iff hq).1 he with he | ⟨rfl, rfl, rfl, rfl⟩
    · rw [(h.entry hq he.dir he.index he.place (hat he)).label] at hla
      exact .inl ⟨j, e, he, hla⟩
    · exact .inr ⟨rfl, rfl, hla.symm⟩
  · rintro (⟨j, e, he, hla⟩ | ⟨rfl, rfl, rfl⟩)
    · refine ⟨j, e, (h.entry_iff hq).2 (.inl he), ?_⟩
      rw [(h.inode hq).slot, (h.entry hq he.dir he.index he.place (hat he)).label]
      exact hla
    · exact ⟨i, d, (h.entry_iff hq).2 (.inr ⟨rfl, rfl, rfl, rfl⟩), by rw [(h.inode hq).slot]⟩

/-- **A creation adds one path.** -/
theorem Create.path_iff (h : Create t t' p i d ino data isDir) : t'.Path l c ↔ t.Path l c ∨
      (c = ino ∧ ∃ lp, t.Path lp p ∧ l = lp ++ [t'.label (t.slot p i) d]) := by
  have hmono : ∀ {l c}, t.Path l c → t'.Path l c := by
    intro l c hp
    induction hp with
    | nil => rw [← h.shape.root]; exact .nil
    | snoc hp hc ih => exact .snoc ih ((h.child_iff hp.live).2 (.inl hc))
  constructor
  · intro hp
    induction hp with
    | nil => rw [h.shape.root]; exact .inl .nil
    | snoc _ hc ih =>
      rcases ih with hp | ⟨rfl, -⟩
      · rcases (h.child_iff hp.live).1 hc with hc | ⟨rfl, rfl, rfl⟩
        · exact .inl (.snoc hp hc)
        · exact .inr ⟨rfl, _, hp, rfl⟩
      · obtain ⟨j, e, he, -⟩ := hc
        exact absurd he h.no_entry
  · rintro (hp | ⟨rfl, lp, hp, rfl⟩)
    · exact hmono hp
    · exact .snoc (hmono hp) ((h.child_iff hp.live).2 (.inr ⟨rfl, rfl, rfl⟩))

theorem DistinctNames.create (hd : t.DistinctNames) (h : Create t t' p i d ino data isDir)
    (hnew : ∀ c, ¬ t.Child p (t'.label (t.slot p i) d) c) : t'.DistinctNames := by
  intro q j e c k g c' hq he he' hla
  rcases h.live_iff.1 hq with hq | rfl
  swap
  · exact absurd he h.no_entry
  rw [(h.inode hq).slot, (h.inode hq).slot] at hla
  have hlab : ∀ {j e c}, t.Entry q j e c → t'.label (t.slot q j) e = t.label (t.slot q j) e := by
    intro j e c he
    refine (h.entry hq he.dir he.index he.place ?_).label
    rintro ⟨rfl, rfl, rfl⟩
    exact he.nonzero (he.names.symm.trans h.free)
  rcases (h.entry_iff hq).1 he with he | ⟨rfl, rfl, rfl, rfl⟩ <;>
    rcases (h.entry_iff hq).1 he' with he' | ⟨hqp, rfl, rfl, rfl⟩
  · rw [hlab he, hlab he'] at hla
    exact hd hq he he' hla
  · subst hqp
    exact absurd ⟨j, e, he, (hlab he).symm.trans hla⟩ (hnew c)
  · exact absurd ⟨k, g, he', (hlab he').symm.trans hla.symm⟩ (hnew c')
  · exact ⟨rfl, rfl⟩

end Create

theorem Remove.child_iff (h : Remove t t' p i d f) (hs : t.Sound) (hq : t.Live q) :
    t'.Child q a c ↔ t.Child q a c ∧ c ≠ f := by
  constructor
  · rintro ⟨j, e, he, hla⟩
    obtain ⟨he, hat⟩ := (h.entry_iff hq).1 he
    rw [(h.inode hq).slot, (h.entry hq he.dir he.index he.place hat).label] at hla
    exact ⟨⟨j, e, he, hla⟩, (h.ne_of_entry hs hq he).2 hat⟩
  · rintro ⟨⟨j, e, he, hla⟩, hne⟩
    have hat := (h.ne_of_entry hs hq he).1 hne
    refine ⟨j, e, (h.entry_iff hq).2 ⟨he, hat⟩, ?_⟩
    rw [(h.inode hq).slot, (h.entry hq he.dir he.index he.place hat).label]
    exact hla

/-- **A removal takes away the paths of the file** and no other. -/
theorem Remove.path_iff (h : Remove t t' p i d f) (hs : t.Sound) :
    t'.Path l c ↔ t.Path l c ∧ c ≠ f := by
  constructor
  · intro hp
    refine ⟨?_, ((h.live_iff hs).1 hp.live).2⟩
    induction hp with
    | nil => rw [h.shape.root]; exact .nil
    | snoc _ hc ih => exact .snoc ih ((h.child_iff hs ih.live).1 hc).1
  · rintro ⟨hp, hne⟩
    induction hp with
    | nil => rw [← h.shape.root]; exact .nil
    | snoc hp hc ih =>
      refine .snoc (ih ?_) ((h.child_iff hs hp.live).2 ⟨hc, hne⟩)
      rintro rfl
      obtain ⟨j, e, he, -⟩ := hc
      have hdir := he.dir
      rw [h.file] at hdir
      cases hdir

theorem DistinctNames.remove (hd : t.DistinctNames) (hs : t.Sound) (h : Remove t t' p i d f) :
    t'.DistinctNames := by
  intro q j e c k g c' hq he he' hla
  have hq := ((h.live_iff hs).1 hq).1
  obtain ⟨he, hat⟩ := (h.entry_iff hq).1 he
  obtain ⟨he', hat'⟩ := (h.entry_iff hq).1 he'
  rw [(h.inode hq).slot, (h.inode hq).slot, (h.entry hq he.dir he.index he.place hat).label,
    (h.entry hq he'.dir he'.index he'.place hat').label] at hla
  exact hd hq he he' hla

theorem Resize.label_eq (h : Resize t t' f) (hq : t.Live q) (he : t.Entry q i d c) :
    t'.label (t'.slot q i) d = t.label (t.slot q i) d := by
  have hne : q ≠ f := by
    rintro rfl
    have hdir := he.dir
    rw [h.file] at hdir
    cases hdir
  rw [(h.inode hq hne).slot]
  exact (h.entry hq he.dir he.index he.place).label

theorem Resize.path_iff (h : Resize t t' f) : t'.Path l c ↔ t.Path l c := by
  refine path_iff_of_child h.shape.root fun {p a c} hp => ?_
  constructor
  · rintro ⟨i, d, he, hla⟩
    have he := (h.entry_iff hp).1 he
    exact ⟨i, d, he, (h.label_eq hp he).symm.trans hla⟩
  · rintro ⟨i, d, he, hla⟩
    exact ⟨i, d, (h.entry_iff hp).2 he, (h.label_eq hp he).trans hla⟩

theorem DistinctNames.resize (hd : t.DistinctNames) (h : Resize t t' f) : t'.DistinctNames := by
  intro q j e c k g c' hq he he' hla
  have hq := h.live_iff.1 hq
  have he := (h.entry_iff hq).1 he
  have he' := (h.entry_iff hq).1 he'
  rw [h.label_eq hq he, h.label_eq hq he'] at hla
  exact hd hq he he' hla

end BlockTree

end Xos.Lib
