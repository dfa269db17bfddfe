import Mathlib.Data.List.Induction
import Xos.Xfs.Tree

/-!
# Normalised paths

The text of a path and what `resolve_path` makes of it.  The components of a normalised
path are not empty, contain no slash and no zero, and fit the name buffers of 64 bytes.

* **lexing** — `components_pathOf`, `baseName_pathOf`, `parentInode_pathOf`: the loops
  over the text give back the components, the last one and the parent's;
* **resolving** — `resolvePath_iff`: a path resolves to the inode that its names lead to,
  if no name is looked up with success in the data of a regular file.
-/

namespace Xos.Xfs

open Xos.Lib

variable {x : Fs} {l m : List (List Byte)} {a : List Byte}

/-! ## The text -/

/-- A name that fits. -/
structure FileName (a : List Byte) : Prop where
  nonempty : a ≠ []
  noSlash : slash ∉ a
  noZero : 0#8 ∉ a
  short : a.length < xfsNameMax

/-- The components of a normalised path. -/
def Normal (l : List (List Byte)) : Prop := ∀ a ∈ l, FileName a

theorem Normal.left (h : Normal (l ++ m)) : Normal l := fun a ha =>
  h a (List.mem_append_left m ha)

theorem Normal.last (h : Normal (l ++ [a])) : FileName a := h a (by simp)

/-- The text of a path. -/
def pathOf (l : List (List Byte)) : List Byte :=
  if l = [] then [slash] else l.flatMap fun a => slash :: a

theorem pathOf_snoc : pathOf (l ++ [a]) = (l.flatMap fun a => slash :: a) ++ slash :: a := by
  simp [pathOf]

theorem pathOf_head : (pathOf l).head? = some slash := by
  cases l <;> rfl

/-- The bytes of a name are taken into the buffer one after the other. -/
theorem components_append (hslash : slash ∉ a) (hlen : acc.length + a.length < xfsNameMax) :
    components acc (a ++ rest) = components (acc ++ a) rest := by
  induction a generalizing acc with
  | nil => simp
  | cons c a ih =>
    rw [List.mem_cons, not_or] at hslash
    rw [List.length_cons] at hlen
    have hacc : acc.length ≠ xfsNameMax - 1 := by omega
    have hrec : components (acc ++ [c]) (a ++ rest) = components (acc ++ [c] ++ a) rest :=
      ih hslash.2 (by rw [List.length_append, List.length_singleton]; omega)
    rw [List.cons_append, components, if_neg (Ne.symm hslash.1), if_neg hacc, hrec]
    simp

theorem components_flatMap (ha : FileName a) (hl : Normal l) :
    components [] (a ++ l.flatMap fun a => slash :: a) = a :: l := by
  induction l generalizing a with
  | nil =>
    rw [components_append ha.noSlash (by simpa using ha.short)]
    rfl
  | cons b l ih =>
    have hb : FileName b := hl b (by simp)
    have hne : b ++ l.flatMap (fun a => slash :: a) ≠ [] := by simp [hb.nonempty]
    rw [components_append ha.noSlash (by simpa using ha.short)]
    rw [List.flatMap_cons, List.cons_append, components, if_neg hne]
    rw [ih hb fun c hc => hl c (by simp [hc])]
    rfl

/-- **Components.**  The loop of `resolve_path` finds the names of a normalised path. -/
theorem components_pathOf (hl : Normal l) (hne : l ≠ []) :
    ∃ p, pathOf l = slash :: p ∧ p ≠ [] ∧ components [] p = l := by
  cases l with
  | nil => exact absurd rfl hne
  | cons b l =>
    have hb : FileName b := hl b (by simp)
    refine ⟨b ++ l.flatMap fun a => slash :: a, by simp [pathOf], by simp [hb.nonempty], ?_⟩
    exact components_flatMap hb fun c hc => hl c (by simp [hc])

theorem pathOf_injective (hl : Normal l) (hm : Normal m) (h : pathOf l = pathOf m) : l = m := by
  have hroot : ∀ {k}, Normal k → pathOf k = pathOf [] → k = [] := by
    intro k hk he
    by_contra hne
    obtain ⟨p, hp, hpne, -⟩ := components_pathOf hk hne
    rw [hp] at he
    exact hpne (List.cons.inj he).2
  by_cases hle : l = []
  · subst hle
    exact (hroot hm h.symm).symm
  by_cases hme : m = []
  · subst hme
    exact hroot hl h
  obtain ⟨p, hp, -, hlc⟩ := components_pathOf hl hle
  obtain ⟨q, hq, -, hmc⟩ := components_pathOf hm hme
  rw [hp, hq] at h
  rw [← hlc, ← hmc, (List.cons.inj h).2]

theorem baseName_pathOf (ha : slash ∉ a) : baseName (pathOf (l ++ [a])) = a := by
  have hall : ∀ c ∈ a.reverse, decide (c ≠ slash) = true := by
    intro c hc
    rw [List.mem_reverse] at hc
    exact decide_eq_true fun h => ha (h ▸ hc)
  rw [baseName, pathOf_snoc, List.reverse_append, List.reverse_cons, List.append_assoc,
    List.takeWhile_append_of_pos hall]
  simp

theorem length_before_baseName (ha : slash ∉ a) :
    (pathOf (l ++ [a])).length - (baseName (pathOf (l ++ [a]))).length - 1 =
      (l.flatMap fun a => slash :: a).length := by
  rw [baseName_pathOf ha, pathOf_snoc, List.length_append, List.length_cons]
  omega

/-- The parent's path, if it fits the buffer. -/
theorem parentPath_pathOf (ha : slash ∉ a) (hne : l ≠ [])
    (hshort : (pathOf l).length < xfsNameMax) : parentPath (pathOf (l ++ [a])) = pathOf l := by
  have hl : pathOf l = l.flatMap fun a => slash :: a := if_neg hne
  rw [hl] at hshort ⊢
  rw [parentPath, length_before_baseName ha, min_eq_left (by omega), pathOf_snoc, List.take_left]

/-! ## Resolving -/

/-- Nothing is found where a name of the path is looked up in a regular file. -/
def Clear (x : Fs) (l : List (List Byte)) : Prop :=
  ∀ m a, m ++ [a] <+: l → ∀ c, (tree x).Path m c → (tree x).dir c = false → lookup x c a = none

theorem Clear.left (h : Clear x (l ++ m)) : Clear x l := fun k a hk =>
  h k a (hk.trans (List.prefix_append l m))

theorem resolvePath_root (hs : (tree x).Sound) : resolvePath x (pathOf []) = some x.rootBlock := by
  have hdir : isDir (readInode x x.rootBlock) = true := hs.rootDir
  change resolvePath x [slash] = _
  simp [resolvePath, hdir]

theorem resolvePath_pathOf (hs : (tree x).Sound) (hl : Normal l) :
    resolvePath x (pathOf l) = walk x x.rootBlock l := by
  by_cases hne : l = []
  · subst hne
    exact resolvePath_root hs
  obtain ⟨p, hp, hpne, hcomp⟩ := components_pathOf hl hne
  have hdir : isDir (readInode x x.rootBlock) = true := hs.rootDir
  rw [hp]
  simp [resolvePath, hdir, hpne, hcomp]

/-- The directory that a creation or a removal works in is what the parent's path resolves
to. -/
theorem parentInode_pathOf (hs : (tree x).Sound) (ha : slash ∉ a)
    (hshort : (pathOf l).length < xfsNameMax) :
    parentInode x (pathOf (l ++ [a])) = resolvePath x (pathOf l) := by
  by_cases hne : l = []
  · subst hne
    rw [parentInode, length_before_baseName ha, resolvePath_root hs]
    rfl
  have hpos : (l.flatMap fun a => slash :: a).length ≠ 0 := by
    obtain ⟨b, l', rfl⟩ := List.exists_cons_of_ne_nil hne
    simp
  rw [parentInode, length_before_baseName ha, if_neg hpos, parentPath_pathOf ha hne hshort]

theorem walk_append (names : List (List Byte)) (ino : ℕ) :
    walk x ino (names ++ [a]) = (walk x ino names).bind fun p => lookup x p a := by
  induction names generalizing ino with
  | nil =>
    simp only [List.nil_append, walk, Option.bind_some]
    cases lookup x ino a <;> rfl
  | cons name names ih =>
    simp only [List.cons_append, walk]
    cases hlook : lookup x ino name with
    | none => rfl
    | some next => exact ih next

section

variable (hg : Geometry x) (hs : (tree x).Sound) (hd : (tree x).DistinctNames)
include hg hs hd

/-- The scan of a directory finds the child with the name. -/
theorem lookup_iff (hp : (tree x).Live p) (hdir : (tree x).dir p = true) (ha : FileName a) :
    lookup x p a = some c ↔ (tree x).Child p a c := by
  have hslot : ∀ {i}, i < blockCount (readInode x p) → dataBlock (readInode x p) i ≠ 0 := by
    intro i hi
    have hr : x.dataStart ≤ dataBlock (readInode x p) i ∧ _ := hs.slot_range hp hi
    have hpos := hg.dataStart_pos
    omega
  -- what the scan accepts is an entry with the name
  have hfound : ∀ {e}, findDent x (readInode x p)
      (fun b s d => b != 0 && entInode s d != 0 && entMatches s d a) = some e →
      (tree x).Entry p e.1 e.2 (entInode (x.read (dataBlock (readInode x p) e.1)) e.2) ∧
        (tree x).label ((tree x).slot p e.1) e.2 = a := by
    intro e he
    obtain ⟨hi, hdp, hpick⟩ := findDent_some he
    simp only [Bool.and_eq_true, bne_iff_ne] at hpick
    exact ⟨⟨hdir, hi, hdp, rfl, hpick.1.2⟩, (entMatches_iff ha.short ha.noZero).1 hpick.2⟩
  unfold lookup
  simp only [Option.map_eq_some_iff]
  constructor
  · rintro ⟨e, he, rfl⟩
    obtain ⟨hent, hlab⟩ := hfound he
    exact ⟨e.1, e.2, hent, hlab⟩
  · rintro ⟨i, d, hent, hlab⟩
    cases hfd : findDent x (readInode x p)
        (fun b s d => b != 0 && entInode s d != 0 && entMatches s d a) with
    | none =>
      have hno := findDent_none hfd hent.index hent.place
      have hmatch : entMatches (x.read (dataBlock (readInode x p) i)) d a = true :=
        (entMatches_iff ha.short ha.noZero).2 hlab
      have hino : entInode (x.read (dataBlock (readInode x p) i)) d = c := hent.names
      simp [hmatch, hino, hent.nonzero, hslot hent.index] at hno
    | some e =>
      obtain ⟨hent', hlab'⟩ := hfound hfd
      obtain ⟨hi, hde⟩ := hd hp hent' hent (hlab'.trans hlab.symm)
      refine ⟨e, rfl, ?_⟩
      rw [hi, hde]
      exact hent.names

/-- **Resolution.**  A normalised path resolves to what its names lead to. -/
theorem resolvePath_iff (hl : Normal l) (hclear : Clear x l) :
    resolvePath x (pathOf l) = some c ↔ (tree x).Path l c := by
  rw [resolvePath_pathOf hs hl]
  -- both sides take the last name last
  induction l using List.reverseRecOn generalizing c with
  | nil =>
    rw [BlockTree.path_nil_iff]
    exact ⟨fun h => (Option.some.inj h).symm, fun h => congrArg some h.symm⟩
  | append_singleton l a ih =>
    rw [walk_append, Option.bind_eq_some_iff, BlockTree.path_snoc_iff]
    refine exists_congr fun p => ?_
    rw [ih hl.left hclear.left]
    refine and_congr_right fun hp => ?_
    cases hdir : (tree x).dir p with
    | true => exact lookup_iff hg hs hd hp.live hdir hl.last
    | false =>
      rw [hclear l a (List.prefix_refl _) p hp hdir]
      refine iff_of_false (by simp) ?_
      rintro ⟨i, d, hent, -⟩
      rw [hent.dir] at hdir
      cases hdir

end

end Xos.Xfs
