import Xos.Xfs.Ownership
import Xos.Xfs.Paths

/-!
# The disk as a map from paths to objects

`(tree x).Path l c` is the map: the names `l` lead to the inode `c`.  Names and parent
paths go through buffers of 64 bytes, so a long name is stored without its end and not
found again (`long_name_not_found`).  `Nameable` keeps the calls within the buffers;
under it

* resolution is the map, a creation adds one path, an unlink removes one, everything else
  keeps the map, and no directory has two entries with one name — `namespace_refinement`.
-/

namespace Xos.Xfs

open Xos.Lib

variable {x y z x₀ : Fs} {l : List (List Byte)} {call : Call}

/-! ## Names that end in their field -/

/-- The last byte of each name field in the directories is zero. -/
def Terminated (x : Fs) : Prop :=
  ∀ q, DirBlock x q → ∀ d, d < maxDents → x.read q (sizeofDirent * d + 63) = 0#8

theorem setDirent_end (e : ℕ) :
    setDirent s d name ino flags (sizeofDirent * e + 63) = s (sizeofDirent * e + 63) := by
  by_cases hed : e = d
  · subst hed
    unfold setDirent
    rw [writeLE_of_not_mem (by omega), writeLE_of_not_mem (by omega),
      writeLE_of_not_mem (by omega), strncpy_of_not_mem (by simp only [xfsNameMax]; omega)]
  · exact setDirent_of_not_mem (by simp only [sizeofDirent]; omega)

theorem clearDirent_end (h : s (sizeofDirent * e + 63) = 0#8) :
    clearDirent s d (sizeofDirent * e + 63) = 0#8 := by
  unfold clearDirent zeroFill
  split
  · rfl
  · exact h

theorem Terminated.quiet (ht : Terminated x) (h : Quiet x y) : Terminated y := by
  intro q hq d hd
  have hq := h.dirBlock_iff.1 hq
  rw [h.entries q hq]
  exact ht q hq d hd

theorem Terminated.remove (ht : Terminated x) (hs : (tree x).Sound)
    (hrem : BlockTree.Remove (tree x) (tree y) p db d f)
    (hframe : Frame x y (· = (tree x).slot p db))
    (hblock : y.read ((tree x).slot p db) = clearDirent (x.read ((tree x).slot p db)) d) :
    Terminated y := by
  intro q hq e he
  have hq := hq.of_remove hrem hs
  by_cases hqb : q = (tree x).slot p db
  · subst hqb
    rw [hblock]
    exact clearDirent_end (ht _ hq e he)
  · rw [hframe.read q (Meta.range hs (.inr hq)).1 hqb]
    exact ht q hq e he

theorem Terminated.made (ht : Terminated x) (hs : (tree x).Sound)
    (hm : Made x y path flags p db d ino data) (hempty : flags.testBit 0 = true →
      ∀ e, e < maxDents → x.read data (sizeofDirent * e + 63) = 0#8) : Terminated y := by
  intro q hq e he
  have hc := hm.create
  rcases hq.of_create hc with hq | ⟨hdir, rfl⟩
  · by_cases hbs : q = (tree x).slot p db
    · subst hbs
      rw [hm.block, setDirent_end]
      exact ht _ hq e he
    · rw [hm.read_held hs (.inr hq) hbs]
      exact ht q hq e he
  · -- the block of a new directory
    rw [hm.read_data hs]
    exact hempty hdir e he

/-! ## Calls within the buffers -/

/-- The path `l ++ [a]` of a creation: its names and the path of its parent fit the buffers,
none of its names is found in the data of a file, and the parent is no file. -/
structure NewPath (x : Fs) (path : List Byte) (l : List (List Byte)) (a : List Byte) : Prop where
  text : path = pathOf (l ++ [a])
  normal : Normal (l ++ [a])
  short : (pathOf l).length < xfsNameMax
  clear : Clear x (l ++ [a])
  parent : ∀ p, (tree x).Path l p → (tree x).dir p = true

/-- As `Orderly`, and what is created has a path that fits; the block of a new directory
holds no old entries, and no old names that fill their field. -/
def Nameable (x : Fs) : Call → Prop
  | .open _ path flags => Creates x path → flags.testBit 2 = true → ∃ l a, NewPath x path l a
  | .mkdir path => Creates x path → (∃ l a, NewPath x path l a) ∧
      ∀ b, freshData x = some b → ∀ e, e < maxDents →
        entInode (x.read b) e = 0 ∧ x.read b (sizeofDirent * e + 63) = 0#8
  | call => Orderly x call

/-- What nameable calls keep. -/
structure Mapped (x : Fs) : Prop where
  geometry : Geometry x
  sound : (tree x).Sound
  distinct : (tree x).DistinctNames
  terminated : Terminated x

section Mapped

variable {path : List Byte} {a : List Byte}

section

variable (h : Mapped x)
include h

theorem Mapped.resolvePath_iff (hl : Normal l) (hclear : Clear x l) :
    resolvePath x (pathOf l) = some c ↔ (tree x).Path l c :=
  Xfs.resolvePath_iff h.geometry h.sound h.distinct hl hclear

theorem Mapped.resolvePath_eq_none (hl : Normal l) (hclear : Clear x l) :
    resolvePath x (pathOf l) = none ↔ ∀ c, ¬ (tree x).Path l c := by
  rw [Option.eq_none_iff_forall_ne_some]
  exact forall_congr' fun c => not_congr (h.resolvePath_iff hl hclear)

theorem NewPath.parentInode_iff (hn : NewPath x path l a) :
    parentInode x path = some p ↔ (tree x).Path l p := by
  rw [hn.text, parentInode_pathOf h.sound hn.normal.last.noSlash hn.short]
  exact h.resolvePath_iff hn.normal.left hn.clear.left

theorem NewPath.liveDir (hn : NewPath x path l a) (hp : parentInode x path = some p) :
    LiveDir x p := by
  have hpath := (hn.parentInode_iff h).1 hp
  exact ⟨hpath.live, hn.parent p hpath⟩

theorem Nameable.orderly (hn : Nameable x call) : Orderly x call := by
  cases call with
  | «open» =>
    intro hc hflag p hp
    obtain ⟨l, a, hnew⟩ := hn hc hflag
    exact hnew.liveDir h hp
  | mkdir =>
    intro hc
    obtain ⟨⟨l, a, hnew⟩, hempty⟩ := hn hc
    exact ⟨fun p hp => hnew.liveDir h hp, fun b hb e he => (hempty b hb e he).1⟩
  | _ => exact hn

end

end Mapped

/-! ## The map -/

/-- Every path leads where it led. -/
def SamePaths (x y : Fs) : Prop := ∀ m c, (tree y).Path m c ↔ (tree x).Path m c

/-- The path `l` is new, in the directory named by all but its last name, and no other
path is. -/
def Added (x y : Fs) (l : List (List Byte)) : Prop :=
  ∃ m a p c, l = m ++ [a] ∧ (tree x).Path m p ∧ (tree x).dir p = true ∧
    (∀ q, ¬ (tree x).Path l q) ∧ ∀ k q, (tree y).Path k q ↔ (tree x).Path k q ∨ k = l ∧ q = c

/-- The path `l` is gone, and no other. -/
def Removed (x y : Fs) (l : List (List Byte)) : Prop :=
  ∃ c, (tree x).Path l c ∧ ∀ k q, (tree y).Path k q ↔ (tree x).Path k q ∧ k ≠ l

theorem Quiet.samePaths (h : Quiet x y) : SamePaths x y := by
  intro m c
  rcases h.edit with ⟨ha, -⟩ | ⟨f, hr⟩
  · exact ha.path_iff
  · exact hr.path_iff

theorem Mapped.quiet (h : Mapped x) (hsame : SameGlobals x y) (hq : Quiet x y) : Mapped y where
  geometry := h.geometry.same hsame
  sound := hq.sound h.sound
  distinct := by
    rcases hq.edit with ⟨ha, -⟩ | ⟨f, hr⟩
    · exact h.distinct.agree ha
    · exact h.distinct.resize hr
  terminated := h.terminated.quiet hq

/-- **A creation adds its path.** -/
theorem Mapped.made (h : Mapped x) (hn : NewPath x path l a) (habsent : resolvePath x path = none)
    (hm : Made x y path flags p db d ino data) (hempty : flags.testBit 0 = true →
      ∀ e, e < maxDents → x.read data (sizeofDirent * e + 63) = 0#8) :
    Mapped y ∧ Added x y (l ++ [a]) := by
  have hc := hm.create
  have hp : (tree x).Path l p := (hn.parentInode_iff h).1 hm.parent
  have hno : ∀ c, ¬ (tree x).Path (l ++ [a]) c := by
    rw [hn.text] at habsent
    exact (h.resolvePath_eq_none hn.normal hn.clear).1 habsent
  -- the entry carries the last name of the path
  have hlabel : (tree y).label ((tree x).slot p db) d = a := by
    have hend := h.terminated _ ⟨p, db, hc.parent, hc.dir, hc.index, rfl⟩ d hc.place
    rw [tree_label, hm.block, hn.text, baseName_pathOf hn.normal.last.noSlash]
    exact entName_setDirent_self hn.normal.last.short hn.normal.last.noZero hend
  refine ⟨⟨h.geometry.same hm.same, h.sound.create hc (show 1 ≤ maxDirect by decide), ?_,
    h.terminated.made h.sound hm hempty⟩, l, a, p, ino, rfl, hp, hc.dir, hno, fun k q => ?_⟩
  · refine h.distinct.create hc fun c hchild => hno c ?_
    rw [hlabel] at hchild
    exact .snoc hp hchild
  · rw [hc.path_iff, hlabel]
    refine or_congr_right ⟨?_, ?_⟩
    · rintro ⟨rfl, lp, hlp, rfl⟩
      rw [hlp.unique h.sound hp]
      exact ⟨rfl, rfl⟩
    · rintro ⟨rfl, rfl⟩
      exact ⟨rfl, l, hp, rfl⟩

theorem Mapped.setFd (h : Mapped x) (i : ℕ) (f : Fd) : Mapped (x.setFd i f) :=
  ⟨h.geometry.same (setFd_same x i f), h.sound, h.distinct, h.terminated⟩

section Calls

variable {pid flags : ℕ} {path : List Byte}

/-- An open keeps the map, or adds the path; if the path was absent and the call succeeds,
it adds the path. -/
theorem Mapped.xfsOpen_map (h : Mapped x) (hn : Nameable x (.open pid path flags)) :
    Mapped (xfsOpen x pid path flags).2 ∧
    ((SamePaths x (xfsOpen x pid path flags).2 ∧
        (resolvePath x path = none → (xfsOpen x pid path flags).1 = -1)) ∨
      ∃ l a, NewPath x path l a ∧ resolvePath x path = none ∧
        Added x (xfsOpen x pid path flags).2 (l ++ [a])) := by
  have hrefl : SamePaths x x := fun _ _ => Iff.rfl
  unfold xfsOpen
  split
  · exact ⟨h, .inl ⟨hrefl, fun _ => rfl⟩⟩
  rename_i hhead
  cases hr : resolvePath x path with
  | some ino =>
    rcases openFd_eq x pid ino flags with ⟨i, f, he⟩ | he
    · simp only [he]
      exact ⟨h.setFd i f, .inl ⟨hrefl, fun hno => by cases hno⟩⟩
    · simp only [he]
      exact ⟨h, .inl ⟨hrefl, fun hno => by cases hno⟩⟩
  | none =>
    simp only
    split
    · exact ⟨h, .inl ⟨hrefl, fun _ => rfl⟩⟩
    rename_i hcreat
    obtain ⟨l, a, hnew⟩ := hn ⟨not_not.1 hhead, hr⟩ (by simpa using hcreat)
    rcases createEntry_spec h.geometry h.sound 0 (by decide) (fun _ => hnew.liveDir h)
        (by simp) with ⟨z, hz, hu, -⟩ | ⟨z, p, db, d, ino, data, hz, hm⟩
    · rw [hz]
      exact ⟨h.quiet hu.same hu.quiet, .inl ⟨hu.quiet.samePaths, fun _ => rfl⟩⟩
    obtain ⟨hz', hadd⟩ := h.made hnew hr hm (by simp)
    rw [hz]
    simp only
    rcases openFd_eq z pid ino flags with ⟨i, f, he⟩ | he
    · rw [he]
      exact ⟨hz'.setFd i f, .inr ⟨l, a, hnew, trivial, hadd⟩⟩
    · rw [he]
      exact ⟨hz', .inr ⟨l, a, hnew, trivial, hadd⟩⟩

theorem Mapped.xfsMkdir_map (h : Mapped x) (hn : Nameable x (.mkdir path)) :
    Mapped (xfsMkdir x path).2 ∧
    ((SamePaths x (xfsMkdir x path).2 ∧ (xfsMkdir x path).1 = -1) ∨
      ((xfsMkdir x path).1 = 0 ∧ ∃ l a, NewPath x path l a ∧
        Added x (xfsMkdir x path).2 (l ++ [a]))) := by
  have hrefl : SamePaths x x := fun _ _ => Iff.rfl
  unfold xfsMkdir
  split
  · exact ⟨h, .inl ⟨hrefl, rfl⟩⟩
  rename_i hhead
  cases hr : resolvePath x path with
  | some => exact ⟨h, .inl ⟨hrefl, rfl⟩⟩
  | none =>
    obtain ⟨⟨l, a, hnew⟩, hempty⟩ := hn ⟨not_not.1 hhead, hr⟩
    rcases createEntry_spec h.geometry h.sound 1 (by decide) (fun _ => hnew.liveDir h)
        (fun _ b hb e he => (hempty b hb e he).1) with
      ⟨z, hz, hu, -⟩ | ⟨z, p, db, d, ino, data, hz, hm⟩
    · simp only [hz]
      exact ⟨h.quiet hu.same hu.quiet, .inl ⟨hu.quiet.samePaths, trivial⟩⟩
    obtain ⟨hz', hadd⟩ := h.made hnew hr hm fun _ e he => (hempty data hm.fresh e he).2
    simp only [hz]
    exact ⟨hz', .inr ⟨trivial, l, a, hnew, hadd⟩⟩

theorem Mapped.xfsUnlink_map (h : Mapped x) (ho : Orderly x (.unlink path)) :
    Mapped (xfsUnlink x path).2 ∧
    (((xfsUnlink x path).2 = x ∧ (xfsUnlink x path).1 = -1) ∨
      ((xfsUnlink x path).1 = 0 ∧ ∃ ino, resolvePath x path = some ino ∧
        ∀ k q, (tree (xfsUnlink x path).2).Path k q ↔ (tree x).Path k q ∧ q ≠ ino)) := by
  rcases xfsUnlink_spec h.geometry h.sound ho with
    he | ⟨z, p, db, d, ino, he, ht, hsame, -, hrem, hframe, hblock⟩
  · rw [he]
    exact ⟨h, .inl ⟨rfl, rfl⟩⟩
  obtain ⟨-, -, hr, -⟩ := unlinkTarget_spec h.geometry h.sound ht (ho _ _ _ _ ht).2
  rw [he]
  refine ⟨⟨h.geometry.same hsame, h.sound.remove hrem, h.distinct.remove h.sound hrem,
    h.terminated.remove h.sound hrem hframe hblock⟩, .inr ⟨rfl, ino, hr, fun k q => ?_⟩⟩
  exact hrem.path_iff h.sound

end Calls

theorem Mapped.step (h : Mapped x) (hn : Nameable x call) (hstep : Step x call y) : Mapped y := by
  rw [← hstep]
  by_cases hcall : call.Renames
  · cases call with
    | «open» => exact (h.xfsOpen_map hn).1
    | mkdir => exact (h.xfsMkdir_map hn).1
    | unlink => exact (h.xfsUnlink_map hn).1
    | _ => exact hcall.elim
  · obtain ⟨hsame, hq⟩ := exec_quiet h.geometry h.sound (hn.orderly h) hcall
    exact h.quiet hsame hq

theorem Blank.mapped (h : Blank x) : Mapped x := by
  refine ⟨h.geometry, h.sound, ?_, ?_⟩
  · intro p i d c j e c' hp he
    rw [h.live_iff.1 hp] at he
    exact absurd he h.no_entry
  · rintro q ⟨p, i, hp, -, hi, rfl⟩ d -
    rw [h.live_iff.1 hp] at hi ⊢
    have hi0 : i = 0 := by rw [h.count_root] at hi; omega
    rw [hi0, h.slot_zero, h.empty]

/-! ## The refinement -/

/-- What the call, with its result, does to the map. -/
def MapStep (x y : Fs) : Call → Prop
  | .open pid path flags => ∀ l, Normal l → Clear x l → path = pathOf l →
      ((∃ c, (tree x).Path l c) → SamePaths x y) ∧
      ((∀ c, ¬ (tree x).Path l c) → 0 ≤ (xfsOpen x pid path flags).1 → Added x y l) ∧
      (SamePaths x y ∨ Added x y l)
  | .mkdir path => ∀ l, Normal l → Clear x l → path = pathOf l →
      ((xfsMkdir x path).1 = 0 → Added x y l) ∧ ((xfsMkdir x path).1 ≠ 0 → SamePaths x y)
  | .unlink path => ∀ l, Normal l → Clear x l → path = pathOf l →
      ((xfsUnlink x path).1 = 0 → Removed x y l) ∧ ((xfsUnlink x path).1 ≠ 0 → SamePaths x y)
  | _ => SamePaths x y

theorem Mapped.mapStep (h : Mapped x) (hn : Nameable x call) (hstep : Step x call y) :
    MapStep x y call := by
  rw [← hstep]
  by_cases hcall : call.Renames
  · cases call with
    | «open» =>
      rintro l hl hclear rfl
      rcases (h.xfsOpen_map hn).2 with ⟨hsame, hfail⟩ | ⟨m, a, hnew, hno, hadd⟩
      · refine ⟨fun _ => hsame, fun habs hok => ?_, .inl hsame⟩
        have := hfail ((h.resolvePath_eq_none hl hclear).2 habs)
        omega
      obtain rfl := pathOf_injective hl hnew.normal hnew.text
      refine ⟨fun ⟨c, hc⟩ => ?_, fun _ _ => hadd, .inr hadd⟩
      exact absurd hc ((h.resolvePath_eq_none hl hclear).1 hno c)
    | mkdir =>
      rintro l hl hclear rfl
      rcases (h.xfsMkdir_map hn).2 with ⟨hsame, hr⟩ | ⟨hr, m, a, hnew, hadd⟩
      · exact ⟨fun h0 => absurd (hr.symm.trans h0) (by decide), fun _ => hsame⟩
      · obtain rfl := pathOf_injective hl hnew.normal hnew.text
        exact ⟨fun _ => hadd, fun h0 => absurd hr h0⟩
    | unlink path =>
      rintro l hl hclear rfl
      rcases (h.xfsUnlink_map hn).2 with ⟨hsame, hr⟩ | ⟨hr, ino, hres, hpaths⟩
      · refine ⟨fun h0 => absurd (hr.symm.trans h0) (by decide), fun _ m c => ?_⟩
        simp only [exec, hsame]
      have hl' := (h.resolvePath_iff hl hclear).1 hres
      refine ⟨fun _ => ⟨ino, hl', fun k q => ?_⟩, fun h0 => absurd hr h0⟩
      -- the path and the file determine each other
      refine (hpaths k q).trans (and_congr_right fun hk => not_congr ⟨?_, ?_⟩)
      · rintro rfl; exact hk.unique h.sound hl'
      · rintro rfl; exact hk.det h.distinct hl'
    | _ => exact hcall.elim
  · have hsame := (exec_quiet h.geometry h.sound (hn.orderly h) hcall).2.samePaths
    cases call with
    | «open» | mkdir | unlink => exact absurd trivial hcall
    | _ => exact hsame

theorem openFd_nonneg (hfree : ∃ i, i < xfsMaxFds ∧ (x.fds i).used = false) :
    0 ≤ (openFd x pid ino flags).1 := by
  unfold openFd
  split
  · rename_i hnone
    obtain ⟨i, hi, hu⟩ := hfree
    have := List.find?_eq_none.1 hnone i (List.mem_range.2 hi)
    simp [hu] at this
  · exact Int.natCast_nonneg _

/-- **Namespace refinement.**  After every run of nameable calls no directory has two
entries with one name; a normalised path that meets no entry in the data of a file can be
asked for, and opened while a descriptor is free, exactly if the map has it; and every
nameable call changes the map as its result says. -/
theorem namespace_refinement (hfit : Fits x₀) (hmount : xfsMount (xfsFormat x₀) = some x)
    {calls : List Call} (hrun : Run Step Nameable x calls y) :
    (tree y).DistinctNames ∧
    (∀ l, Normal l → Clear y l → ((xfsStat y (pathOf l)).1 = 0 ↔ ∃ c, (tree y).Path l c) ∧
      ∀ pid flags, flags.testBit 2 = false → (∃ i, i < xfsMaxFds ∧ (y.fds i).used = false) →
        (0 ≤ (xfsOpen y pid (pathOf l) flags).1 ↔ ∃ c, (tree y).Path l c)) ∧
    ∀ call z, Nameable y call → Step y call z → MapStep y z call := by
  obtain ⟨x', hx', hblank⟩ := mount_format hfit
  obtain rfl : x = x' := Option.some.inj (hmount.symm.trans hx')
  have hy : Mapped y := hrun.invariant hblank.mapped fun _ _ _ h hn hstep => h.step hn hstep
  refine ⟨hy.distinct, fun l hl hclear => ?_, fun call z hn hstep => hy.mapStep hn hstep⟩
  have hnone := hy.resolvePath_eq_none hl hclear
  cases hr : resolvePath y (pathOf l) with
  | none =>
    have hno : ¬ ∃ c, (tree y).Path l c := fun ⟨c, hc⟩ => hnone.1 hr c hc
    refine ⟨iff_of_false (by simp [xfsStat, hr]) hno, fun pid flags hflag _ => ?_⟩
    refine iff_of_false ?_ hno
    simp [xfsOpen, hr, hflag]
  | some c =>
    have hyes : ∃ c, (tree y).Path l c := ⟨c, (hy.resolvePath_iff hl hclear).1 hr⟩
    refine ⟨iff_of_true (by simp [xfsStat, hr]) hyes, fun pid flags _ hfree => ?_⟩
    refine iff_of_true ?_ hyes
    simp only [xfsOpen, hr, pathOf_head]
    exact openFd_nonneg hfree

/-! ## Two files -/

/-- On the way to an entry of the root directory there is no file. -/
theorem clear_singleton (hs : (tree x).Sound) (a : List Byte) : Clear x [a] := by
  intro m b hm c hc hfile
  obtain rfl : m = [] := by simpa using hm.length_le
  rw [BlockTree.path_nil_iff.1 hc] at hfile
  cases (hs.rootDir : (tree x).dir (tree x).root = true).symm.trans hfile

/-- A file may be created in the root directory. -/
theorem nameable_open_root (hs : (tree x).Sound) (pid flags : ℕ) {a : List Byte}
    (ha : Normal [a]) : Nameable x (.open pid (pathOf [a]) flags) := by
  intro _ _
  refine ⟨[], a, rfl, ha, by decide, clear_singleton hs a, fun p hp => ?_⟩
  rw [BlockTree.path_nil_iff.1 hp]
  exact hs.rootDir

theorem normal_ab : Normal [[0x61#8]] ∧ Normal [[0x62#8]] := by
  constructor <;> intro a ha <;> rw [List.mem_singleton.1 ha] <;>
    exact ⟨by decide, by decide, by decide, by decide⟩

/-- The disk with the files `/a` and `/b`. -/
def twoFiles : Fs :=
  execs (freshDisk 8) [.open 1 (pathOf [[0x61#8]]) 6, .open 1 (pathOf [[0x62#8]]) 6]

theorem run_twoFiles : Run Step Nameable (freshDisk 8)
    [.open 1 (pathOf [[0x61#8]]) 6, .open 1 (pathOf [[0x62#8]]) 6] twoFiles := by
  have hfirst : Nameable (freshDisk 8) (.open 1 (pathOf [[0x61#8]]) 6) :=
    nameable_open_root blank_freshDisk.sound 1 6 normal_ab.1
  have hone := blank_freshDisk.mapped.step hfirst rfl
  exact .cons hfirst rfl (.cons (nameable_open_root hone.sound 1 6 normal_ab.2) rfl .nil)

theorem twoFiles_sound : (tree twoFiles).Sound :=
  (run_twoFiles.invariant blank_freshDisk.mapped fun _ _ _ h hn hstep => h.step hn hstep).sound

/-- An entry of the root directory may be removed, and is. -/
theorem nameable_unlink_root (hs : (tree x).Sound) {path : List Byte}
    (h : unlinkTarget x path = some (c, x.rootBlock, b, d)) :
    Nameable x (.unlink path) ∧ (xfsUnlink x path).1 = 0 := by
  refine ⟨orderly_unlink h hs.rootDir, ?_⟩
  rw [xfsUnlink, h]

/-- The removal of `/a` takes this path away and no other. -/
theorem namespace_refinement_small_disk :
    ∃ y, Step twoFiles (.unlink (pathOf [[0x61#8]])) y ∧ Removed twoFiles y [[0x61#8]] := by
  have htarget : unlinkTarget twoFiles (pathOf [[0x61#8]]) = some (4, twoFiles.rootBlock, 0, 0) := by
    decide +kernel
  obtain ⟨hn, hzero⟩ := nameable_unlink_root twoFiles_sound htarget
  have hstep := (namespace_refinement ⟨by decide, by decide⟩ mount_freshDisk run_twoFiles).2.2 _ _
    hn rfl
  exact ⟨_, rfl, (hstep _ normal_ab.1 (clear_singleton twoFiles_sound _) rfl).1 hzero⟩

/-! ## Long names -/

/-- **A long name is lost.**  A file with a name of 64 bytes is created with success, and
afterwards there is no file of that name. -/
theorem long_name_not_found : (xfsStat (freshDisk 8) (slash :: List.replicate 64 0x61#8)).1 = -1 ∧
      (xfsOpen (freshDisk 8) 1 (slash :: List.replicate 64 0x61#8) 6).1 = 0 ∧
      (xfsStat (xfsOpen (freshDisk 8) 1 (slash :: List.replicate 64 0x61#8) 6).2
        (slash :: List.replicate 64 0x61#8)).1 = -1 := by
  decide +kernel

end Xos.Xfs
