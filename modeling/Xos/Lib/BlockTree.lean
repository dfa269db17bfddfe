import Mathlib.Data.Set.Basic
import Mathlib.Tactic.Tauto

/-!
# Trees of blocks with one owner each

A disk of numbered blocks holds a tree of inodes.  An inode lists its data blocks; a
directory's data blocks hold entries that name the blocks of further inodes.  Which
blocks are in use is kept apart from the tree, and the two have to agree.

* **the tree** — `Live`: the inodes the entries lead to;
* **ownership** — `Refers o b`: the owner `o` (the root reference, one entry or one slot
  of an inode) names block `b`.  `Sound` says that what is named lies in the data area,
  is in use and is named once; `Complete` that nothing else is in use;
* **the edits** — `Agree` (nothing live changes), `Create`, `Remove` and `Resize`; each
  keeps `Sound` and `Complete`, with the live inodes of the result computed.
-/

namespace Xos.Lib

/-- The tree part of a disk.  `lo` and `hi` bound the data area, a directory block has
`width` entries, and an inode `cap` slots. -/
structure BlockTree (α : Type*) where
  root : ℕ
  lo : ℕ
  hi : ℕ
  width : ℕ
  cap : ℕ
  used : ℕ → Bool
  dir : ℕ → Bool
  count : ℕ → ℕ
  slot : ℕ → ℕ → ℕ
  ent : ℕ → ℕ → ℕ
  label : ℕ → ℕ → α

namespace BlockTree

variable {α : Type*}

/-- Entry `d` in the `i`-th block of the directory `p` names `c`. -/
structure Entry (t : BlockTree α) (p i d c : ℕ) : Prop where
  dir : t.dir p = true
  index : i < t.count p
  place : d < t.width
  names : t.ent (t.slot p i) d = c
  nonzero : c ≠ 0

/-- The inodes of the tree. -/
inductive Live (t : BlockTree α) : ℕ → Prop
  | root : Live t t.root
  | child {p i d c : ℕ} : Live t p → t.Entry p i d c → Live t c

/-- What can name a block. -/
inductive Owner where
  | super
  | entry (p i d : ℕ)
  | slot (p i : ℕ)

/-- The owner `o` names the block `b`. -/
def Refers (t : BlockTree α) : Owner → ℕ → Prop
  | .super, b => b = t.root
  | .entry p i d, b => t.Live p ∧ t.Entry p i d b
  | .slot p i, b => t.Live p ∧ i < t.count p ∧ t.slot p i = b

/-- What is named lies in the data area, is in use, and is named once. -/
structure Sound (t : BlockTree α) : Prop where
  rootDir : t.dir t.root = true
  range : ∀ {o b}, t.Refers o b → t.lo ≤ b ∧ b < t.hi
  used : ∀ {o b}, t.Refers o b → t.used b = true
  unique : ∀ {o u b}, t.Refers o b → t.Refers u b → o = u
  count_le : ∀ {p}, t.Live p → t.count p ≤ t.cap
  zero : ∀ {p i}, t.Live p → t.count p ≤ i → i < t.cap → t.slot p i = 0

/-- Every block of the data area that is in use is named. -/
def Complete (t : BlockTree α) : Prop :=
  ∀ b, t.lo ≤ b → b < t.hi → t.used b = true → ∃ o, t.Refers o b

variable {t t' : BlockTree α} {p q i d c f : ℕ}

/-- Every inode of the tree is named, by the root reference or by an entry. -/
theorem Live.named (h : t.Live q) : ∃ o, t.Refers o q ∧ ∀ p i, o ≠ .slot p i := by
  cases h with
  | root => exact ⟨.super, rfl, fun _ _ => Owner.noConfusion⟩
  | child hp he => exact ⟨.entry _ _ _, ⟨hp, he⟩, fun _ _ => Owner.noConfusion⟩

theorem Sound.live_used (h : t.Sound) (hq : t.Live q) : t.used q = true := by
  obtain ⟨o, ho, -⟩ := hq.named
  exact h.used ho

theorem Sound.live_range (h : t.Sound) (hq : t.Live q) : t.lo ≤ q ∧ q < t.hi := by
  obtain ⟨o, ho, -⟩ := hq.named
  exact h.range ho

/-- The block of an inode is nobody's data block. -/
theorem Sound.live_ne_slot (h : t.Sound) (hq : t.Live q) (hp : t.Live p) (hi : i < t.count p) :
    t.slot p i ≠ q := by
  intro he
  obtain ⟨o, ho, hne⟩ := hq.named
  exact hne p i (h.unique ho (u := .slot p i) ⟨hp, hi, he⟩)

section

variable (h : t.Sound) (hp : t.Live p) (hi : i < t.count p)
include h hp hi

theorem Sound.slot_inj (hp' : t.Live p') (hi' : i' < t.count p') (he : t.slot p i = t.slot p' i') :
    p = p' ∧ i = i' := by
  have := h.unique (o := .slot p i) (u := .slot p' i') ⟨hp, hi, he⟩ ⟨hp', hi', rfl⟩
  cases this
  exact ⟨rfl, rfl⟩

theorem Sound.slot_used : t.used (t.slot p i) = true := h.used (o := .slot p i) ⟨hp, hi, rfl⟩

theorem Sound.slot_range : t.lo ≤ t.slot p i ∧ t.slot p i < t.hi :=
  h.range (o := .slot p i) ⟨hp, hi, rfl⟩

end

/-! ## The edits -/

/-- The two trees have the same fixed numbers. -/
structure SameShape (t t' : BlockTree α) : Prop where
  root : t'.root = t.root
  lo : t'.lo = t.lo
  hi : t'.hi = t.hi
  width : t'.width = t.width
  cap : t'.cap = t.cap

/-- The inode `p` is as it was. -/
structure SameInode (t t' : BlockTree α) (p : ℕ) : Prop where
  dir : t'.dir p = t.dir p
  count : t'.count p = t.count p
  slot : ∀ i, t'.slot p i = t.slot p i

/-- Entry `d` of the block `b` is as it was. -/
structure SameEntry (t t' : BlockTree α) (b d : ℕ) : Prop where
  ent : t'.ent b d = t.ent b d
  label : t'.label b d = t.label b d

/-- An entry stays an entry where the inode and the entry are as they were. -/
theorem SameInode.entry_iff (hs : SameShape t t') (hp : SameInode t t' p)
    (he : t.dir p = true → i < t.count p → d < t.width → SameEntry t t' (t.slot p i) d) :
    t'.Entry p i d c ↔ t.Entry p i d c := by
  constructor
  · intro h
    have hdir : t.dir p = true := hp.dir ▸ h.dir
    have hidx : i < t.count p := hp.count ▸ h.index
    have hplace : d < t.width := hs.width ▸ h.place
    refine ⟨hdir, hidx, hplace, ?_, h.nonzero⟩
    have hn := h.names
    rw [hp.slot, (he hdir hidx hplace).ent] at hn
    exact hn
  · intro h
    refine ⟨hp.dir.trans h.dir, hp.count.symm ▸ h.index, hs.width.symm ▸ h.place, ?_, h.nonzero⟩
    rw [hp.slot, (he h.dir h.index h.place).ent]
    exact h.names

/-! ### Nothing live changes -/

/-- The live inodes and their entries are as they were. -/
structure Agree (t t' : BlockTree α) : Prop where
  shape : SameShape t t'
  inode : ∀ {p}, t.Live p → SameInode t t' p
  entry : ∀ {p i d}, t.Live p → t.dir p = true → i < t.count p → d < t.width →
    SameEntry t t' (t.slot p i) d

theorem Agree.entry_iff (h : Agree t t') (hp : t.Live p) : t'.Entry p i d c ↔ t.Entry p i d c :=
  (h.inode hp).entry_iff h.shape (h.entry hp)

/-- The same inodes are live if the live ones have the entries they had. -/
theorem SameShape.live_iff (h : SameShape t t')
    (he : ∀ {p i d c}, t.Live p → (t'.Entry p i d c ↔ t.Entry p i d c)) :
    t'.Live q ↔ t.Live q := by
  constructor
  · intro hq
    induction hq with
    | root => rw [h.root]; exact .root
    | child _ hc ih => exact .child ih ((he ih).1 hc)
  · intro hq
    induction hq with
    | root => rw [← h.root]; exact .root
    | child hp hc ih => exact .child ih ((he hp).2 hc)

theorem Agree.live_iff (h : Agree t t') : t'.Live q ↔ t.Live q := h.shape.live_iff h.entry_iff

theorem Agree.refers_iff (h : Agree t t') : t'.Refers o b ↔ t.Refers o b := by
  cases o with
  | super => simp only [Refers, h.shape.root]
  | entry =>
    simp only [Refers, h.live_iff]
    exact and_congr_right fun hp => h.entry_iff hp
  | slot =>
    simp only [Refers, h.live_iff]
    exact and_congr_right fun hp => by rw [(h.inode hp).count, (h.inode hp).slot]

theorem Sound.agree (hs : t.Sound) (h : Agree t t')
    (hused : ∀ {o b}, t.Refers o b → t'.used b = true) : t'.Sound where
  rootDir := by rw [h.shape.root, (h.inode .root).dir]; exact hs.rootDir
  range hr := by rw [h.shape.lo, h.shape.hi]; exact hs.range (h.refers_iff.1 hr)
  used hr := hused (h.refers_iff.1 hr)
  unique hr hr' := hs.unique (h.refers_iff.1 hr) (h.refers_iff.1 hr')
  count_le hp := by
    have hp := h.live_iff.1 hp
    rw [(h.inode hp).count, h.shape.cap]; exact hs.count_le hp
  zero hp hi hc := by
    have hp := h.live_iff.1 hp
    rw [(h.inode hp).slot]
    rw [(h.inode hp).count] at hi
    exact hs.zero hp hi (h.shape.cap ▸ hc)

theorem Complete.agree (hc : t.Complete) (h : Agree t t')
    (hused : ∀ b, b < t.hi → t'.used b = true → t.used b = true) : t'.Complete := by
  intro b hlo hhi hu
  rw [h.shape.hi] at hhi
  obtain ⟨o, ho⟩ := hc b (h.shape.lo ▸ hlo) hhi (hused b hhi hu)
  exact ⟨o, h.refers_iff.2 ho⟩

/-! ### A new inode -/

/-- The inode `ino`, with the data block `data`, has been entered in the free entry `d` of
the `i`-th block of the directory `p`. -/
structure Create (t t' : BlockTree α) (p i d ino data : ℕ) (isDir : Bool) : Prop where
  shape : SameShape t t'
  parent : t.Live p
  dir : t.dir p = true
  index : i < t.count p
  place : d < t.width
  free : t.ent (t.slot p i) d = 0
  range : ∀ b, b = ino ∨ b = data → t.lo ≤ b ∧ b < t.hi ∧ t.used b = false
  pos : 0 < t.lo
  ne : ino ≠ data
  used : ∀ b, b < t.hi → (t'.used b = true ↔ t.used b = true ∨ b = ino ∨ b = data)
  inode : ∀ {q}, t.Live q → SameInode t t' q
  entry : ∀ {q j e}, t.Live q → t.dir q = true → j < t.count q → e < t.width →
    ¬ (q = p ∧ j = i ∧ e = d) → SameEntry t t' (t.slot q j) e
  names : t'.ent (t.slot p i) d = ino
  newDir : t'.dir ino = isDir
  newCount : t'.count ino = 1
  newSlot : t'.slot ino 0 = data
  newZero : ∀ j, 1 ≤ j → j < t.cap → t'.slot ino j = 0
  empty : isDir = true → ∀ e, e < t.width → t'.ent data e = 0

section Create

variable {ino data : ℕ} {isDir : Bool} {o : Owner} {b : ℕ}

section

variable (h : Create t t' p i d ino data isDir)
include h

theorem Create.ino_not_live (hs : t.Sound) : ¬ t.Live ino := by
  intro hl
  have hu := hs.live_used hl
  rw [(h.range ino (.inl rfl)).2.2] at hu
  cases hu

/-- The new inode has no entries. -/
theorem Create.no_entry : ¬ t'.Entry ino j e c := by
  intro he
  have hj : j = 0 := by have := he.index; rw [h.newCount] at this; omega
  have hdir : isDir = true := h.newDir ▸ he.dir
  have hn := he.names
  rw [hj, h.newSlot, h.empty hdir e (h.shape.width ▸ he.place)] at hn
  exact he.nonzero hn.symm

/-- The entries of the old inodes: those there were, and the new one. -/
theorem Create.entry_iff (hq : t.Live q) :
    t'.Entry q j e c ↔ t.Entry q j e c ∨ (q = p ∧ j = i ∧ e = d ∧ c = ino) := by
  have hino : ino ≠ 0 := by
    have := (h.range ino (.inl rfl)).1
    have := h.pos
    omega
  by_cases hat : q = p ∧ j = i ∧ e = d
  · obtain ⟨rfl, rfl, rfl⟩ := hat
    have hin := h.inode hq
    constructor
    · intro he
      have hn := he.names
      rw [hin.slot, h.names] at hn
      exact .inr ⟨rfl, rfl, rfl, hn.symm⟩
    · rintro (he | ⟨-, -, -, rfl⟩)
      · exact absurd (he.names.symm.trans h.free) he.nonzero
      · exact ⟨hin.dir.trans h.dir, hin.count.symm ▸ h.index, h.shape.width.symm ▸ h.place,
          by rw [hin.slot]; exact h.names, hino⟩
  · rw [(h.inode hq).entry_iff h.shape fun hd hj he => h.entry hq hd hj he hat]
    exact ⟨.inl, fun hc => hc.elim id fun hc => absurd ⟨hc.1, hc.2.1, hc.2.2.1⟩ hat⟩

/-- The live inodes after a creation. -/
theorem Create.live_iff : t'.Live q ↔ t.Live q ∨ q = ino := by
  have hmono : ∀ {q}, t.Live q → t'.Live q := by
    intro q hq
    induction hq with
    | root => rw [← h.shape.root]; exact .root
    | child hp he ih => exact .child ih ((h.entry_iff hp).2 (.inl he))
  constructor
  · intro hq
    induction hq with
    | root => rw [h.shape.root]; exact .inl .root
    | child _ he ih =>
      rcases ih with hp | rfl
      · rcases (h.entry_iff hp).1 he with he | ⟨-, -, -, rfl⟩
        · exact .inl (.child hp he)
        · exact .inr rfl
      · exact absurd he h.no_entry
  · rintro (hq | rfl)
    · exact hmono hq
    · exact .child (hmono h.parent) ((h.entry_iff h.parent).2 (.inr ⟨rfl, rfl, rfl, rfl⟩))

/-- The references after a creation. -/
theorem Create.refers_iff :
    t'.Refers o b ↔ t.Refers o b ∨ (o = .entry p i d ∧ b = ino) ∨ (o = .slot ino 0 ∧ b = data) := by
  cases o with
  | super => simp [Refers, h.shape.root]
  | entry =>
    simp only [Refers, h.live_iff, Owner.entry.injEq, reduceCtorEq, false_and, or_false]
    constructor
    · rintro ⟨hq | rfl, he⟩
      · rcases (h.entry_iff hq).1 he with he | ⟨rfl, rfl, rfl, rfl⟩
        · exact .inl ⟨hq, he⟩
        · exact .inr ⟨⟨rfl, rfl, rfl⟩, rfl⟩
      · exact absurd he h.no_entry
    · rintro (⟨hq, he⟩ | ⟨⟨rfl, rfl, rfl⟩, rfl⟩)
      · exact ⟨.inl hq, (h.entry_iff hq).2 (.inl he)⟩
      · exact ⟨.inl h.parent, (h.entry_iff h.parent).2 (.inr ⟨rfl, rfl, rfl, rfl⟩)⟩
  | slot q j =>
    simp only [Refers, h.live_iff, Owner.slot.injEq, reduceCtorEq, false_and, false_or]
    constructor
    · rintro ⟨hq | rfl, hj, hb⟩
      · rw [(h.inode hq).count] at hj
        rw [(h.inode hq).slot] at hb
        exact .inl ⟨hq, hj, hb⟩
      · have hj0 : j = 0 := by rw [h.newCount] at hj; omega
        subst hj0
        exact .inr ⟨⟨rfl, rfl⟩, hb.symm.trans h.newSlot⟩
    · rintro (⟨hq, hj, hb⟩ | ⟨⟨rfl, rfl⟩, rfl⟩)
      · exact ⟨.inl hq, by rwa [(h.inode hq).count], by rwa [(h.inode hq).slot]⟩
      · exact ⟨.inr rfl, by rw [h.newCount]; exact Nat.one_pos, h.newSlot⟩

end

/-- **A creation keeps the tree sound.** -/
theorem Sound.create (hs : t.Sound) (h : Create t t' p i d ino data isDir) (hcap : 1 ≤ t.cap) :
    t'.Sound := by
  have hino := h.range ino (.inl rfl)
  have hdata := h.range data (.inr rfl)
  -- nothing in the old tree names a block that was not in use
  have hfresh : ∀ {o b}, t.Refers o b → b ≠ ino ∧ b ≠ data := by
    intro o b hr
    have hu := hs.used hr
    refine ⟨?_, ?_⟩
    · rintro rfl; rw [hino.2.2] at hu; cases hu
    · rintro rfl; rw [hdata.2.2] at hu; cases hu
  refine ⟨?_, fun hr => ?_, fun hr => ?_, fun hr hr' => ?_, fun hp => ?_, fun hp hi hc => ?_⟩
  · rw [h.shape.root, (h.inode .root).dir]; exact hs.rootDir
  · rw [h.shape.lo, h.shape.hi]
    rcases h.refers_iff.1 hr with hr | ⟨-, rfl⟩ | ⟨-, rfl⟩
    · exact hs.range hr
    · exact ⟨hino.1, hino.2.1⟩
    · exact ⟨hdata.1, hdata.2.1⟩
  · rcases h.refers_iff.1 hr with hr | ⟨-, rfl⟩ | ⟨-, rfl⟩
    · exact (h.used _ (hs.range hr).2).2 (.inl (hs.used hr))
    · exact (h.used _ hino.2.1).2 (.inr (.inl rfl))
    · exact (h.used _ hdata.2.1).2 (.inr (.inr rfl))
  · rcases h.refers_iff.1 hr with hr | ⟨ho, hb⟩ | ⟨ho, hb⟩ <;>
      rcases h.refers_iff.1 hr' with hr' | ⟨ho', hb'⟩ | ⟨ho', hb'⟩
    · exact hs.unique hr hr'
    · exact absurd hb' (hfresh hr).1
    · exact absurd hb' (hfresh hr).2
    · exact absurd hb (hfresh hr').1
    · exact ho.trans ho'.symm
    · exact absurd (hb.symm.trans hb') h.ne
    · exact absurd hb (hfresh hr').2
    · exact absurd (hb'.symm.trans hb) h.ne
    · exact ho.trans ho'.symm
  · rw [h.shape.cap]
    rcases h.live_iff.1 hp with hp | rfl
    · rw [(h.inode hp).count]; exact hs.count_le hp
    · rw [h.newCount]; exact hcap
  · rw [h.shape.cap] at hc
    rcases h.live_iff.1 hp with hp | rfl
    · rw [(h.inode hp).slot]
      rw [(h.inode hp).count] at hi
      exact hs.zero hp hi hc
    · rw [h.newCount] at hi
      exact h.newZero _ hi hc

theorem Complete.create (hc : t.Complete) (h : Create t t' p i d ino data isDir) : t'.Complete := by
  intro b hlo hhi hu
  rw [h.shape.lo] at hlo
  rw [h.shape.hi] at hhi
  simp only [h.refers_iff]
  rcases (h.used b hhi).1 hu with hu | rfl | rfl
  · obtain ⟨o, ho⟩ := hc b hlo hhi hu
    exact ⟨o, .inl ho⟩
  · exact ⟨_, .inr (.inl ⟨rfl, rfl⟩)⟩
  · exact ⟨_, .inr (.inr ⟨rfl, rfl⟩)⟩

end Create

/-! ### The removal of a file -/

/-- The entry `d` in the `i`-th block of `p`, which named the file `f`, is gone, and the
blocks of `f` are free. -/
structure Remove (t t' : BlockTree α) (p i d f : ℕ) : Prop where
  shape : SameShape t t'
  parent : t.Live p
  was : t.Entry p i d f
  file : t.dir f = false
  used : ∀ b, b < t.hi → (t'.used b = true ↔
    t.used b = true ∧ b ≠ f ∧ ∀ j, j < t.count f → t.slot f j ≠ b)
  inode : ∀ {q}, t.Live q → SameInode t t' q
  entry : ∀ {q j e}, t.Live q → t.dir q = true → j < t.count q → e < t.width →
    ¬ (q = p ∧ j = i ∧ e = d) → SameEntry t t' (t.slot q j) e
  gone : t'.ent (t.slot p i) d = 0

section Remove

variable {o : Owner} {b : ℕ}

theorem Remove.entry_iff (h : Remove t t' p i d f) (hq : t.Live q) :
    t'.Entry q j e c ↔ t.Entry q j e c ∧ ¬ (q = p ∧ j = i ∧ e = d) := by
  by_cases hat : q = p ∧ j = i ∧ e = d
  · obtain ⟨rfl, rfl, rfl⟩ := hat
    refine iff_of_false (fun he => ?_) (fun he => he.2 ⟨rfl, rfl, rfl⟩)
    have hn := he.names
    rw [(h.inode hq).slot, h.gone] at hn
    exact he.nonzero hn.symm
  · rw [(h.inode hq).entry_iff h.shape fun hd hj he => h.entry hq hd hj he hat]
    exact ⟨fun he => ⟨he, hat⟩, And.left⟩

section

variable (h : Remove t t' p i d f) (hs : t.Sound)
include h hs

/-- An entry other than the removed one does not name the file. -/
theorem Remove.ne_of_entry (hq : t.Live q) (he : t.Entry q j e c) :
    c ≠ f ↔ ¬ (q = p ∧ j = i ∧ e = d) := by
  rw [not_iff_not]
  constructor
  · rintro rfl
    have := hs.unique (o := .entry q j e) (u := .entry p i d) ⟨hq, he⟩ ⟨h.parent, h.was⟩
    cases this
    exact ⟨rfl, rfl, rfl⟩
  · rintro ⟨rfl, rfl, rfl⟩
    exact he.names.symm.trans h.was.names

/-- The live inodes after a removal. -/
theorem Remove.live_iff : t'.Live q ↔ t.Live q ∧ q ≠ f := by
  constructor
  · intro hq
    induction hq with
    | root =>
      rw [h.shape.root]
      refine ⟨.root, fun hr => ?_⟩
      have hd := hs.rootDir
      rw [hr, h.file] at hd
      cases hd
    | child _ he ih =>
      obtain ⟨he, hat⟩ := (h.entry_iff ih.1).1 he
      exact ⟨.child ih.1 he, (h.ne_of_entry hs ih.1 he).2 hat⟩
  · rintro ⟨hq, hne⟩
    induction hq with
    | root => rw [← h.shape.root]; exact .root
    | child hp he ih =>
      -- a file has no entries, so the parent is another inode
      have hpf : ∀ {x}, t.dir x = true → x ≠ f := by
        rintro x hx rfl
        rw [h.file] at hx
        cases hx
      exact .child (ih (hpf he.dir)) ((h.entry_iff hp).2 ⟨he, (h.ne_of_entry hs hp he).1 hne⟩)

/-- The references after a removal. -/
theorem Remove.refers_iff : t'.Refers o b ↔ t.Refers o b ∧ b ≠ f ∧ ∀ j, o ≠ .slot f j := by
  have hf : t.Live f := .child h.parent h.was
  cases o with
  | super =>
    simp only [Refers, h.shape.root, ne_eq, reduceCtorEq, not_false_eq_true, implies_true,
      and_true, iff_self_and]
    rintro rfl hr
    have hd := hs.rootDir
    rw [hr, h.file] at hd
    cases hd
  | entry =>
    simp only [Refers, h.live_iff hs, ne_eq, reduceCtorEq, not_false_eq_true, implies_true,
      and_true]
    constructor
    · rintro ⟨⟨hq, -⟩, he⟩
      obtain ⟨he, hat⟩ := (h.entry_iff hq).1 he
      exact ⟨⟨hq, he⟩, (h.ne_of_entry hs hq he).2 hat⟩
    · rintro ⟨⟨hq, he⟩, hne⟩
      refine ⟨⟨hq, ?_⟩, (h.entry_iff hq).2 ⟨he, (h.ne_of_entry hs hq he).1 hne⟩⟩
      rintro rfl
      have hd := he.dir
      rw [h.file] at hd
      cases hd
  | slot q j =>
    simp only [Refers, h.live_iff hs, ne_eq, Owner.slot.injEq]
    constructor
    · rintro ⟨⟨hq, hne⟩, hj, hb⟩
      rw [(h.inode hq).count] at hj
      rw [(h.inode hq).slot] at hb
      refine ⟨⟨hq, hj, hb⟩, ?_, fun k hk => hne hk.1⟩
      rintro rfl
      exact hs.live_ne_slot hf hq hj hb
    · rintro ⟨⟨hq, hj, hb⟩, -, hne⟩
      exact ⟨⟨hq, fun he => hne j ⟨he, rfl⟩⟩, by rwa [(h.inode hq).count],
        by rwa [(h.inode hq).slot]⟩

end

/-- **A removal keeps the tree sound.** -/
theorem Sound.remove (hs : t.Sound) (h : Remove t t' p i d f) : t'.Sound := by
  have hf : t.Live f := .child h.parent h.was
  refine ⟨?_, fun hr => ?_, fun hr => ?_, fun hr hr' => ?_, fun hp => ?_, fun hp hi hc => ?_⟩
  · rw [h.shape.root, (h.inode .root).dir]; exact hs.rootDir
  · rw [h.shape.lo, h.shape.hi]; exact hs.range ((h.refers_iff hs).1 hr).1
  · obtain ⟨hr, hne, hslot⟩ := (h.refers_iff hs).1 hr
    refine (h.used _ (hs.range hr).2).2 ⟨hs.used hr, hne, fun j hj he => ?_⟩
    exact hslot j (hs.unique hr (u := .slot f j) ⟨hf, hj, he⟩)
  · exact hs.unique ((h.refers_iff hs).1 hr).1 ((h.refers_iff hs).1 hr').1
  · have hp := ((h.live_iff hs).1 hp).1
    rw [h.shape.cap, (h.inode hp).count]; exact hs.count_le hp
  · have hp := ((h.live_iff hs).1 hp).1
    rw [(h.inode hp).slot]
    rw [(h.inode hp).count] at hi
    exact hs.zero hp hi (h.shape.cap ▸ hc)

theorem Complete.remove (hc : t.Complete) (hs : t.Sound) (h : Remove t t' p i d f) :
    t'.Complete := by
  intro b hlo hhi hu
  rw [h.shape.lo] at hlo
  rw [h.shape.hi] at hhi
  obtain ⟨hu, hne, hslot⟩ := (h.used b hhi).1 hu
  obtain ⟨o, ho⟩ := hc b hlo hhi hu
  refine ⟨o, (h.refers_iff hs).2 ⟨ho, hne, ?_⟩⟩
  rintro j rfl
  exact hslot j ho.2.1 ho.2.2

end Remove

/-! ### New data blocks for a file, or fewer -/

/-- The file `f` has another list of data blocks: old ones in their places, and blocks
that were not in use. -/
structure Resize (t t' : BlockTree α) (f : ℕ) : Prop where
  shape : SameShape t t'
  live : t.Live f
  file : t.dir f = false
  inode : ∀ {q}, t.Live q → q ≠ f → SameInode t t' q
  entry : ∀ {q j e}, t.Live q → t.dir q = true → j < t.count q → e < t.width →
    SameEntry t t' (t.slot q j) e
  dir : t'.dir f = false
  count_le : t'.count f ≤ t.cap
  zero : ∀ j, t'.count f ≤ j → j < t.cap → t'.slot f j = 0
  block : ∀ j, j < t'.count f → (j < t.count f ∧ t'.slot f j = t.slot f j) ∨
    (t.lo ≤ t'.slot f j ∧ t'.slot f j < t.hi ∧ t.used (t'.slot f j) = false)
  inj : ∀ j k, j < t'.count f → k < t'.count f → t'.slot f j = t'.slot f k → j = k
  used : ∀ b, b < t.hi → (t'.used b = true ↔
    (t.used b = true ∧ ∀ j, j < t.count f → t.slot f j ≠ b) ∨
      ∃ j, j < t'.count f ∧ t'.slot f j = b)

section Resize

variable {o : Owner} {b : ℕ}

section

variable (h : Resize t t' f)
include h

theorem Resize.entry_iff (hq : t.Live q) : t'.Entry q i d c ↔ t.Entry q i d c := by
  by_cases hqf : q = f
  · subst hqf
    refine iff_of_false (fun he => ?_) (fun he => ?_)
    · have hd := he.dir; rw [h.dir] at hd; cases hd
    · have hd := he.dir; rw [h.file] at hd; cases hd
  · exact (h.inode hq hqf).entry_iff h.shape (h.entry hq)

theorem Resize.live_iff : t'.Live q ↔ t.Live q := h.shape.live_iff h.entry_iff

/-- The references of the other owners are as they were. -/
theorem Resize.refers_iff (ho : ∀ j, o ≠ .slot f j) : t'.Refers o b ↔ t.Refers o b := by
  cases o with
  | super => simp only [Refers, h.shape.root]
  | entry =>
    simp only [Refers, h.live_iff]
    exact and_congr_right fun hq => h.entry_iff hq
  | slot q j =>
    simp only [Refers, h.live_iff]
    have hne : q ≠ f := by rintro rfl; exact ho j rfl
    exact and_congr_right fun hq => by rw [(h.inode hq hne).count, (h.inode hq hne).slot]

theorem Resize.refers_slot : t'.Refers (.slot f j) b ↔ j < t'.count f ∧ t'.slot f j = b := by
  simp only [Refers, h.live_iff]
  exact and_iff_right h.live

/-- What another owner names is none of the file's blocks, before or after. -/
theorem Resize.refers_ne (hs : t.Sound) (ho : ∀ j, o ≠ .slot f j) (hr : t.Refers o b)
    (hj : j < t'.count f) : t'.slot f j ≠ b := by
  intro he
  rcases h.block j hj with ⟨hj', heq⟩ | ⟨-, -, hu⟩
  · exact ho j (hs.unique hr (u := .slot f j) ⟨h.live, hj', heq.symm.trans he⟩)
  · rw [he, hs.used hr] at hu
    cases hu

end

/-- **A resize keeps the tree sound.** -/
theorem Sound.resize (hs : t.Sound) (h : Resize t t' f) : t'.Sound := by
  refine ⟨?_, ?_, ?_, ?_, fun {q} hp => ?_, fun {q _} hp hi hc => ?_⟩
  · have hne : t.root ≠ f := by
      intro hr
      have hd := hs.rootDir
      rw [hr, h.file] at hd
      cases hd
    rw [h.shape.root, (h.inode .root hne).dir]; exact hs.rootDir
  · intro o b hr
    rw [h.shape.lo, h.shape.hi]
    by_cases ho : ∃ j, o = .slot f j
    · obtain ⟨j, rfl⟩ := ho
      obtain ⟨hj, rfl⟩ := h.refers_slot.1 hr
      rcases h.block j hj with ⟨hj', he⟩ | ⟨hlo, hhi, -⟩
      · rw [he]; exact hs.slot_range h.live hj'
      · exact ⟨hlo, hhi⟩
    · push Not at ho
      exact hs.range ((h.refers_iff ho).1 hr)
  · intro o b hr
    by_cases ho : ∃ j, o = .slot f j
    · obtain ⟨j, rfl⟩ := ho
      obtain ⟨hj, rfl⟩ := h.refers_slot.1 hr
      refine (h.used _ ?_).2 (.inr ⟨j, hj, rfl⟩)
      rcases h.block j hj with ⟨hj', he⟩ | ⟨-, hhi, -⟩
      · rw [he]; exact (hs.slot_range h.live hj').2
      · exact hhi
    · push Not at ho
      have hr := (h.refers_iff ho).1 hr
      refine (h.used _ (hs.range hr).2).2 (.inl ⟨hs.used hr, fun j hj he => ?_⟩)
      exact ho j (hs.unique hr (u := .slot f j) ⟨h.live, hj, he⟩)
  · intro o o' b hr hr'
    by_cases ho : ∃ j, o = .slot f j
    · obtain ⟨j, rfl⟩ := ho
      obtain ⟨hj, rfl⟩ := h.refers_slot.1 hr
      by_cases ho' : ∃ k, o' = .slot f k
      · obtain ⟨k, rfl⟩ := ho'
        obtain ⟨hk, he⟩ := h.refers_slot.1 hr'
        rw [h.inj j k hj hk he.symm]
      · push Not at ho'
        exact absurd rfl (h.refers_ne hs ho' ((h.refers_iff ho').1 hr') hj)
    push Not at ho
    have hr := (h.refers_iff ho).1 hr
    by_cases ho' : ∃ k, o' = .slot f k
    · obtain ⟨k, rfl⟩ := ho'
      obtain ⟨hk, he⟩ := h.refers_slot.1 hr'
      exact absurd he (h.refers_ne hs ho hr hk)
    · push Not at ho'
      exact hs.unique hr ((h.refers_iff ho').1 hr')
  · have hq := h.live_iff.1 hp
    rw [h.shape.cap]
    by_cases hqf : q = f
    · rw [hqf]; exact h.count_le
    · rw [(h.inode hq hqf).count]; exact hs.count_le hq
  · have hq := h.live_iff.1 hp
    rw [h.shape.cap] at hc
    by_cases hqf : q = f
    · subst hqf; exact h.zero _ hi hc
    rw [(h.inode hq hqf).slot]
    rw [(h.inode hq hqf).count] at hi
    exact hs.zero hq hi hc

theorem Complete.resize (hc : t.Complete) (h : Resize t t' f) : t'.Complete := by
  intro b hlo hhi hu
  rw [h.shape.lo] at hlo
  rw [h.shape.hi] at hhi
  rcases (h.used b hhi).1 hu with ⟨hu, hne⟩ | ⟨j, hj, he⟩
  · obtain ⟨o, ho⟩ := hc b hlo hhi hu
    refine ⟨o, (h.refers_iff ?_).2 ho⟩
    rintro j rfl
    exact hne j ho.2.1 ho.2.2
  · exact ⟨.slot f j, h.refers_slot.2 ⟨hj, he⟩⟩

end Resize

end BlockTree

end Xos.Lib
