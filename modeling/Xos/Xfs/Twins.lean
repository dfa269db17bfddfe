import Xos.Xfs.Ownership

/-!
# Disks with the same tree

Two disks are twins if they have the same descriptors and bitmap, the same inodes in the
tree and the same entries in its directories; the data of the files may differ.  Whatever
a call reads of the tree is the same on twins:

* **resolution** — `SameDirs.resolvePath_eq`, as long as no name is found in the data of a
  file;
* **allocation** — `allocBlock_congr`, `freshData_congr`, `Twins.plan_eq`;
* **the loops** — `writeLoop_congr`, `extendLoop_congr`: the bytes to be written play no
  role for which blocks are taken.
-/

namespace Xos.Xfs

open Xos.Lib

variable {x y : Fs} {q p : ℕ} {a path : List Byte} {j : ℕ}

/-- The bytes that hold the tree: of its inodes, and of the entries of its directories. -/
def Known (x : Fs) (q j : ℕ) : Prop :=
  (tree x).Live q ∧ j < sizeofInode ∨ DirBlock x q ∧ j < sizeofDirent * maxDents

/-- The two disks have the same descriptors, the same bitmap and the same tree. -/
structure Twins (x y : Fs) : Prop where
  same : SameGlobals x y
  fds : y.fds = x.fds
  used : ∀ b, b < x.total → bitmapGet y b = bitmapGet x b
  read : ∀ q j, Known x q j → y.read q j = x.read q j

theorem Twins.refl (x : Fs) : Twins x x := ⟨.refl x, rfl, fun _ _ => rfl, fun _ _ _ => rfl⟩

theorem Twins.readInode_eq (h : Twins x y) (hq : (tree x).Live q) :
    readInode y q = readInode x q := by
  funext j
  unfold readInode
  split
  · rename_i hj
    exact h.read q j (.inl ⟨hq, hj⟩)
  · rw [h.same.stack]

/-- The directories are the same: their blocks, and the bytes of their entries. -/
structure SameDirs (x y : Fs) : Prop where
  root : y.rootBlock = x.rootBlock
  kind : ∀ {p}, (tree x).Live p → (tree y).dir p = (tree x).dir p
  inode : ∀ {p}, (tree x).Live p → (tree x).dir p = true →
    BlockTree.SameInode (tree x) (tree y) p
  entry : ∀ {q j}, DirBlock x q → j < sizeofDirent * maxDents → y.read q j = x.read q j

section

variable (h : SameDirs x y) (hq : DirBlock x q)
include h hq

theorem SameDirs.entry_byte (hd : d < maxDents) (hj : j < sizeofDirent * (d + 1)) :
    y.read q j = x.read q j := by
  refine h.entry hq ?_
  simp only [sizeofDirent] at *
  omega

theorem SameDirs.entInode_eq (hd : d < maxDents) : entInode (y.read q) d = entInode (x.read q) d :=
  entInode_congr fun _ _ hj => h.entry_byte hq hd hj

theorem SameDirs.entMatches_eq (hd : d < maxDents) (ha : a.length < xfsNameMax) :
    entMatches (y.read q) d a = entMatches (x.read q) d a := by
  apply strEq_congr
  intro j _ hj
  apply h.entry_byte hq hd
  simp only [sizeofDirent, xfsNameMax] at *
  omega

end

theorem Twins.sameInode (h : Twins x y) (hp : (tree x).Live p) :
    BlockTree.SameInode (tree x) (tree y) p := by
  have he := h.readInode_eq hp
  exact ⟨by rw [tree_dir, he, tree_dir], by rw [tree_count, he, tree_count],
    fun i => by rw [tree_slot, he, tree_slot]⟩

theorem Twins.sameDirs (h : Twins x y) : SameDirs x y where
  root := h.same.rootBlock
  kind hp := (h.sameInode hp).dir
  inode hp _ := h.sameInode hp
  entry hq hj := h.read _ _ (.inr ⟨hq, hj⟩)

theorem Quiet.sameDirs (h : Quiet x y) (hsame : SameGlobals x y) : SameDirs x y := by
  have hinode : ∀ {p}, (tree x).Live p → (tree y).dir p = (tree x).dir p ∧
        ((tree x).dir p = true → BlockTree.SameInode (tree x) (tree y) p) := by
    intro p hp
    rcases h.edit with ⟨ha, -⟩ | ⟨f, hr⟩
    · exact ⟨(ha.inode hp).dir, fun _ => ha.inode hp⟩
    by_cases hpf : p = f
    · subst hpf
      exact ⟨by rw [hr.dir, hr.file], fun hd => by rw [hr.file] at hd; cases hd⟩
    · exact ⟨(hr.inode hp hpf).dir, fun _ => hr.inode hp hpf⟩
  exact ⟨hsame.rootBlock, fun hp => (hinode hp).1, fun hp => (hinode hp).2,
    fun hq _ => by rw [h.entries _ hq]⟩

theorem Twins.agree (h : Twins x y) : BlockTree.Agree (tree x) (tree y) where
  shape := h.same.shape
  inode hp := h.sameInode hp
  entry {p i d} hp hdir hi hd := by
    have hq : DirBlock x ((tree x).slot p i) := ⟨p, i, hp, hdir, hi, rfl⟩
    exact ⟨h.sameDirs.entInode_eq hq hd, entName_congr fun _ _ hj => h.sameDirs.entry_byte hq hd hj⟩

/-! ## Resolution -/

/-- Nothing is found where a name is looked up in a regular file. -/
def InDirs (x : Fs) : ℕ → List (List Byte) → Prop
  | _, [] => True
  | ino, a :: names => ((tree x).dir ino = true ∨ lookup x ino a = none) ∧
      ∀ next, lookup x ino a = some next → InDirs x next names

/-- The names that `resolve_path` looks up. -/
def pathNames : List Byte → List (List Byte)
  | _ :: c :: p => components [] (c :: p)
  | _ => []

/-- The path leads through directories only. -/
def ThroughDirs (x : Fs) (path : List Byte) : Prop := InDirs x x.rootBlock (pathNames path)

theorem length_of_mem_components {acc p : List Byte} (hacc : acc.length < xfsNameMax) :
    ∀ a ∈ components acc p, a.length < xfsNameMax := by
  induction p generalizing acc with
  | nil => simpa [components] using hacc
  | cons c p ih =>
    intro a ha
    unfold components at ha
    split at ha
    · rcases List.mem_cons.1 ha with rfl | ha
      · exact hacc
      split at ha
      · cases ha
      · exact ih (by decide) a ha
    split at ha
    · rcases List.mem_cons.1 ha with rfl | ha
      · exact hacc
      · exact ih (by simp) a ha
    · exact ih (by rw [List.length_append, List.length_singleton]; omega) a ha

theorem length_of_mem_pathNames (ha : a ∈ pathNames path) : a.length < xfsNameMax := by
  unfold pathNames at ha
  split at ha
  · exact length_of_mem_components (by decide) a ha
  · cases ha

theorem resolvePath_eq_walk (path : List Byte) : resolvePath x path =
    if path.head? = some slash ∧ isDir (readInode x x.rootBlock) = true then
      walk x x.rootBlock (pathNames path)
    else none := by
  unfold resolvePath
  cases path with
  | nil => rfl
  | cons c p =>
    by_cases hc : c = slash
    · cases hdir : isDir (readInode x x.rootBlock) with
      | false => simp
      | true =>
        cases p with
        | nil => simp [pathNames, walk]
        | cons => simp [pathNames]
    · simp [hc]

theorem SameDirs.lookup_eq (h : SameDirs x y) (hp : (tree x).Live p) (hdir : (tree x).dir p = true)
    (ha : a.length < xfsNameMax) :
    lookup y p a = lookup x p a := by
  have hinode := h.inode hp hdir
  have hcount : blockCount (readInode y p) = blockCount (readInode x p) := hinode.count
  have hslot : ∀ i, dataBlock (readInode y p) i = dataBlock (readInode x p) i := hinode.slot
  have hblock : ∀ {db}, db < blockCount (readInode x p) →
      DirBlock x (dataBlock (readInode x p) db) := fun hdb => ⟨p, _, hp, hdir, hdb, rfl⟩
  have hscan : findDent y (readInode y p)
      (fun b s d => b != 0 && entInode s d != 0 && entMatches s d a) = findDent x (readInode x p)
          (fun b s d => b != 0 && entInode s d != 0 && entMatches s d a) := by
    rw [findDent_inode hcount hslot]
    apply findDent_congr
    intro db d hdb hd
    rw [h.entInode_eq (hblock hdb) hd, h.entMatches_eq (hblock hdb) hd ha]
  unfold lookup
  simp only [hscan, hslot]
  apply Option.map_congr
  intro e he
  obtain ⟨hdb, hd, -⟩ := findDent_some he
  exact h.entInode_eq (hblock hdb) hd

/-- What a directory scan finds is in the tree. -/
theorem live_of_lookup (hp : (tree x).Live p) (hdir : (tree x).dir p = true)
    (h : lookup x p a = some c) : (tree x).Live c := by
  obtain ⟨e, he, rfl⟩ := Option.map_eq_some_iff.1 h
  obtain ⟨hdb, hd, hpick⟩ := findDent_some he
  simp only [Bool.and_eq_true, bne_iff_ne] at hpick
  exact .child hp ⟨hdir, hdb, hd, rfl, hpick.1.2⟩

theorem SameDirs.walk_eq (h : SameDirs x y) (hp : (tree x).Live p)
    (hlen : ∀ a ∈ names, a.length < xfsNameMax) (hx : InDirs x p names) (hy : InDirs y p names) :
    walk y p names = walk x p names ∧ ∀ c, walk x p names = some c → (tree x).Live c := by
  induction names generalizing p with
  | nil =>
    refine ⟨rfl, fun c hc => ?_⟩
    cases hc
    exact hp
  | cons a names ih =>
    have hdirs := h.kind hp
    have hrest : ∀ b ∈ names, b.length < xfsNameMax := fun b hb =>
      hlen b (List.mem_cons_of_mem a hb)
    simp only [walk]
    cases hdir : (tree x).dir p with
    | true =>
      rw [h.lookup_eq hp hdir (hlen a List.mem_cons_self)]
      cases hl : lookup x p a with
      | none => exact ⟨rfl, fun c hc => by cases hc⟩
      | some next =>
        have hly : lookup y p a = some next := by
          rw [h.lookup_eq hp hdir (hlen a List.mem_cons_self), hl]
        exact ih (live_of_lookup hp hdir hl) hrest (hx.2 next hl) (hy.2 next hly)
    | false =>
      -- in a file nothing is found, on either disk
      rw [hdir] at hdirs
      have hlx : lookup x p a = none := hx.1.resolve_left (by rw [hdir]; decide)
      have hly : lookup y p a = none := hy.1.resolve_left (by rw [hdirs]; decide)
      rw [hlx, hly]
      exact ⟨rfl, fun c hc => by cases hc⟩

/-- **Resolution** depends on the directories only. -/
theorem SameDirs.resolvePath_eq (h : SameDirs x y) (hs : (tree x).Sound) (hx : ThroughDirs x path)
    (hy : ThroughDirs y path) :
    resolvePath y path = resolvePath x path ∧
      ∀ c, resolvePath x path = some c → (tree x).Live c := by
  have hroot : (tree x).Live x.rootBlock := .root
  have hdx : isDir (readInode x x.rootBlock) = true := hs.rootDir
  have hdy : isDir (readInode y x.rootBlock) = true := (h.kind hroot).trans hs.rootDir
  unfold ThroughDirs at hy
  rw [h.root] at hy
  obtain ⟨heq, hlive⟩ := h.walk_eq hroot (fun a => length_of_mem_pathNames) hx hy
  rw [resolvePath_eq_walk, resolvePath_eq_walk, h.root, hdx, hdy, heq]
  refine ⟨rfl, fun c hc => ?_⟩
  split at hc
  · exact hlive c hc
  · cases hc

/-! ## Allocation -/

/-- `alloc_block` looks at the bitmap only. -/
theorem allocBlock_congr (hsame : SameGlobals x y)
    (hused : ∀ b, b < x.total → bitmapGet y b = bitmapGet x b) :
    (allocBlock y).1 = (allocBlock x).1 := by
  have hscan : (List.range' y.dataStart (y.total - y.dataStart)).find? (fun b => !bitmapGet y b) =
      (List.range' x.dataStart (x.total - x.dataStart)).find? (fun b => !bitmapGet x b) := by
    rw [hsame.dataStart, hsame.total]
    apply List.find?_congr
    intro b hb
    rw [List.mem_range'_1] at hb
    rw [hused b (by omega)]
  unfold allocBlock
  rw [hscan]
  split <;> rfl

theorem freshData_congr (hg : Geometry x) (hsame : SameGlobals x y)
    (hused : ∀ b, b < x.total → bitmapGet y b = bitmapGet x b) : freshData y = freshData x := by
  have hfirst := allocBlock_congr hsame hused
  unfold freshData
  rcases allocBlock_spec x with ⟨b, hx, -, hhi, -⟩ | hx <;>
    rcases allocBlock_spec y with ⟨c, hy, -, -, -⟩ | hy
  · rw [hx, hy] at hfirst
    obtain rfl : c = b := Option.some.inj hfirst
    rw [hx, hy]
    refine allocBlock_congr ?_ fun d hd => ?_
    · exact ⟨by simp [(bitmapSet_same _ _ _).blockCount, hsame.blockCount],
        by simp [(bitmapSet_same _ _ _).stack, hsame.stack],
        by simp [(bitmapSet_same _ _ _).total, hsame.total],
        by simp [(bitmapSet_same _ _ _).bitmapBlocks, hsame.bitmapBlocks],
        by simp [(bitmapSet_same _ _ _).dataStart, hsame.dataStart],
        by simp [(bitmapSet_same _ _ _).rootBlock, hsame.rootBlock]⟩
    · rw [(bitmapSet_same x c true).total] at hd
      rw [bitmapGet_bitmapSet (hg.same hsame) (by rw [hsame.total]; exact hhi),
        bitmapGet_bitmapSet hg hhi, hused d hd]
  · rw [hx, hy] at hfirst
    cases hfirst
  · rw [hx, hy] at hfirst
    cases hfirst
  · rw [hx, hy]
    exact (congrArg Prod.fst hy).trans (congrArg Prod.fst hx).symm

/-- The blocks of a directory have the same free entries on twins. -/
theorem Twins.plan_eq (h : Twins x y) (hg : Geometry x)
    (hpar : parentInode y path = parentInode x path)
    (hdir : ∀ p, parentInode x path = some p → LiveDir x p) : plan y path = plan x path := by
  unfold plan
  rw [hpar, allocBlock_congr h.same h.used, freshData_congr hg h.same h.used]
  cases hp : parentInode x path with
  | none => rfl
  | some p =>
    obtain ⟨hlive, hd⟩ := hdir p hp
    have hscan : findDent y (readInode x p) (fun _ s d => entInode s d == 0) =
        findDent x (readInode x p) (fun _ s d => entInode s d == 0) := by
      apply findDent_congr
      intro db d hdb hdp
      have hq : DirBlock x (dataBlock (readInode x p) db) := ⟨p, db, hlive, hd, hdb, rfl⟩
      rw [h.sameDirs.entInode_eq hq hdp]
    simp only [Option.bind_some, h.readInode_eq hlive, hscan]

/-! ## The loops -/

section Loops

variable {P P' : Fs → Bytes → Prop} {z w : Fs} {inode : Bytes}

theorem growFor_congr (halloc : (allocBlock w).1 = (allocBlock z).1) (idx : ℕ) :
    (growFor w inode idx).map Prod.snd = (growFor z inode idx).map Prod.snd := by
  unfold growFor
  split
  · rfl
  split
  · rfl
  rcases allocBlock_spec z with ⟨b, hz, -⟩ | hz <;> rcases allocBlock_spec w with ⟨c, hw, -⟩ | hw
  · rw [hz, hw] at halloc
    rw [hz, hw, Option.some.inj halloc]
    rfl
  · rw [hz, hw] at halloc; cases halloc
  · rw [hz, hw] at halloc; cases halloc
  · rw [hz, hw]

section

variable (hP : Kept P) (hP' : Kept P')
  (halloc : ∀ {z w inode}, P z inode → P' w inode → (allocBlock w).1 = (allocBlock z).1)
include hP hP' halloc

/-- Two runs of the loop of `xfs_write` with equally many bytes take the same blocks. -/
theorem writeLoop_congr (offset : ℕ) (hlen : data'.length = data.length) (fuel : ℕ) :
    ∀ {z w : Fs} {inode : Bytes} {done : ℕ}, P z inode → P' w inode →
      InBounds (offset + done) inode →
      (writeLoop offset data' fuel w inode done).2 = (writeLoop offset data fuel z inode done).2 := by
  induction fuel with
  | zero => intro z w inode done _ _ _; rfl
  | succ fuel ih =>
    intro z w inode done hz hw hin
    have hgrow : (growFor w inode ((offset + done) % 2 ^ 32 / xfsBlockSize)).map Prod.snd =
        (growFor z inode ((offset + done) % 2 ^ 32 / xfsBlockSize)).map Prod.snd :=
      growFor_congr (halloc hz hw) _
    unfold writeLoop
    rw [hlen]
    split
    · rfl
    simp only
    cases hgz : growFor z inode ((offset + done) % 2 ^ 32 / xfsBlockSize) with
    | none =>
      rw [hgz, Option.map_none, Option.map_eq_none_iff] at hgrow
      rw [hgrow]
    | some r =>
      rw [hgz, Option.map_some, Option.map_eq_some_iff] at hgrow
      obtain ⟨⟨w', inode''⟩, hgw, rfl⟩ := hgrow
      rw [hgw]
      simp only
      split
      · rfl
      rename_i hb
      obtain ⟨hz', hnext⟩ := writeStep_rule hP hz hin hgz hb
      obtain ⟨hw', -⟩ := writeStep_rule hP' hw hin hgw hb
      refine ih (hz' _) (hw' _) ?_
      rw [← Nat.add_assoc]
      exact hnext _ (min_le_left _ _)

/-- Two runs of the growth loop of `xfs_ftruncate` take the same blocks. -/
theorem extendLoop_congr (needed fuel : ℕ) : ∀ {z w : Fs} {inode : Bytes}, P z inode → P' w inode →
      (extendLoop needed fuel w inode (blockCount inode)).2 =
        (extendLoop needed fuel z inode (blockCount inode)).2 := by
  induction fuel with
  | zero => intro z w inode _ _; rfl
  | succ fuel ih =>
    intro z w inode hz hw
    have hsame := halloc hz hw
    unfold extendLoop
    split
    · rename_i hlt
      rcases allocBlock_spec z with ⟨b, haz, hlo, hhi, hfree⟩ | haz
      · rcases allocBlock_spec w with ⟨c, haw, hlo', hhi', hfree'⟩ | haw
        · rw [haz, haw] at hsame
          obtain rfl : c = b := Option.some.inj hsame
          rw [haz, haw]
          have hcount : blockCount (appendBlock inode c) = blockCount inode + 1 :=
            blockCount_appendBlock hlt.2
          have h := ih (extendStep_rule hP hz hlt.2 hlo hhi hfree)
            (extendStep_rule hP' hw hlt.2 hlo' hhi' hfree')
          rw [hcount] at h
          exact h
        · rw [haz, haw] at hsame; cases hsame
      · rcases allocBlock_spec w with ⟨c, haw, -⟩ | haw
        · rw [haz, haw] at hsame; cases hsame
        · rw [haz, haw]
    · rfl

end

end Loops

/-! ## The edits -/

section Edits

variable {x' y' : Fs}

theorem SameGlobals.pair (h : SameGlobals x y) (hx : SameGlobals x x') (hy : SameGlobals y y') :
    SameGlobals x' y' :=
  ⟨by rw [hy.blockCount, h.blockCount, hx.blockCount], by rw [hy.stack, h.stack, hx.stack],
    by rw [hy.total, h.total, hx.total], by rw [hy.bitmapBlocks, h.bitmapBlocks, hx.bitmapBlocks],
    by rw [hy.dataStart, h.dataStart, hx.dataStart],
    by rw [hy.rootBlock, h.rootBlock, hx.rootBlock]⟩

theorem Twins.setFd (h : Twins x y) (i : ℕ) (f : Fd) : Twins (x.setFd i f) (y.setFd i f) :=
  ⟨⟨h.same.1, h.same.2, h.same.3, h.same.4, h.same.5, h.same.6⟩, by simp [h.fds], h.used, h.read⟩

theorem Known.held (h : Known x q j) : Meta x q := h.elim (fun h => .inl h.1) fun h => .inr h.1

theorem Twins.live_iff (h : Twins x y) : (tree y).Live q ↔ (tree x).Live q := h.agree.live_iff

theorem Twins.dirBlock_iff (h : Twins x y) : DirBlock y q ↔ DirBlock x q :=
  DirBlock.agree_iff h.agree

/-- Nothing that holds the tree has changed, on either side. -/
theorem Twins.unchanged (h : Twins x y) (hx : Unchanged x x') (hy : Unchanged y y') :
    Twins x' y' where
  same := h.same.pair hx.same hy.same
  fds := by rw [hy.fds, h.fds, hx.fds]
  used b hb := by
    rw [hx.same.total] at hb
    rw [hy.used b (by rw [h.same.total]; exact hb), h.used b hb, hx.used b hb]
  read q j hk := by
    have hk : Known x q j := by
      unfold Known at hk ⊢
      rwa [hx.agree.live_iff, hx.quiet.dirBlock_iff] at hk
    have hmy : Meta y q := hk.held.imp h.live_iff.2 h.dirBlock_iff.2
    rw [hy.held q hmy, hx.held q hk.held]
    exact h.read q j hk

theorem setDirent_byte (h : s' j = s j) (d : ℕ) (name : List Byte) (ino flags : ℕ) :
    setDirent s' d name ino flags j = setDirent s d name ino flags j := by
  simp only [setDirent, writeLE, strncpy, h]

theorem clearDirent_byte (h : s' j = s j) (d : ℕ) : clearDirent s' d j = clearDirent s d j := by
  simp only [clearDirent, zeroFill, h]

theorem SameFields.read_byte (h : SameFields (readInode x q) inode) (hj : j < sizeofInode) :
    x.read q j = inode j := by
  rw [← h j hj, readInode, if_pos hj]

/-- The same creation on both sides. -/
theorem Twins.made (h : Twins x y) (hsx : (tree x).Sound) (hsy : (tree y).Sound)
    (hx : Made x x' path flags p db d ino data) (hy : Made y y' path flags p db d ino data)
    (hzero : flags.testBit 0 = true →
      ∀ j, j < sizeofDirent * maxDents → y.read data j = x.read data j) : Twins x' y' where
  same := h.same.pair hx.same hy.same
  fds := by rw [hy.fds, h.fds, hx.fds]
  used b hb := by
    rw [hx.same.total] at hb
    rw [Bool.eq_iff_iff]
    have hux := hx.create.used b hb
    have huy := hy.create.used b (by rw [h.agree.shape.hi]; exact hb)
    simp only [tree_used] at hux huy
    rw [hux, huy, h.used b hb]
  read q j hk := by
    have hslot : (tree y).slot p db = (tree x).slot p db := (h.agree.inode hx.create.parent).slot db
    -- a block that held the tree, other than the one with the new entry
    have hheld : ∀ {q}, Known x q j → q ≠ (tree x).slot p db → y'.read q j = x'.read q j := by
      intro q hk hne
      have hmy : Meta y q := hk.held.imp h.live_iff.2 h.dirBlock_iff.2
      rw [hx.read_held hsx hk.held hne, hy.read_held hsy hmy (by rw [hslot]; exact hne)]
      exact h.read q j hk
    rcases hk with ⟨hq, hj⟩ | ⟨hq, hj⟩
    · rcases hx.create.live_iff.1 hq with hq | rfl
      · exact hheld (.inl ⟨hq, hj⟩) (hsx.live_ne_slot hq hx.create.parent hx.create.index).symm
      · rw [hx.inode.read_byte hj, hy.inode.read_byte hj]
    rcases hq.of_create hx.create with hq | ⟨hdir, rfl⟩
    · by_cases hqs : q = (tree x).slot p db
      · have hby : y'.read q = setDirent (y.read q) d (baseName path) ino flags := by
          rw [hqs, ← hslot]; exact hy.block
        rw [hby, hqs, hx.block]
        exact setDirent_byte (h.read _ j (.inr ⟨hqs ▸ hq, hj⟩)) _ _ _ _
      · exact hheld (.inr ⟨hq, hj⟩) hqs
    · rw [hx.read_data hsx, hy.read_data hsy]
      exact hzero hdir j hj

/-- The same removal on both sides. -/
theorem Twins.removed (h : Twins x y) (hsx : (tree x).Sound)
    (hx : BlockTree.Remove (tree x) (tree x') p db d f)
    (hy : BlockTree.Remove (tree y) (tree y') p db d f) (hfx : Frame x x' (· = (tree x).slot p db))
    (hfy : Frame y y' (· = (tree y).slot p db))
    (hbx : x'.read ((tree x).slot p db) = clearDirent (x.read ((tree x).slot p db)) d)
    (hby : y'.read ((tree y).slot p db) = clearDirent (y.read ((tree y).slot p db)) d)
    (hfds : y'.fds = x'.fds) : Twins x' y' where
  same := h.same.pair hfx.same hfy.same
  fds := hfds
  used b hb := by
    rw [hfx.same.total] at hb
    have hf : (tree x).Live f := .child hx.parent hx.was
    have hux := hx.used b hb
    have huy := hy.used b (by rw [h.agree.shape.hi]; exact hb)
    simp only [tree_used] at hux huy
    rw [Bool.eq_iff_iff, hux, huy, h.used b hb, (h.agree.inode hf).count]
    simp only [(h.agree.inode hf).slot]
  read q j hk := by
    have hslot : (tree y).slot p db = (tree x).slot p db := (h.agree.inode hx.parent).slot db
    have hk : Known x q j := by
      rcases hk with ⟨hq, hj⟩ | ⟨hq, hj⟩
      · exact .inl ⟨((hx.live_iff hsx).1 hq).1, hj⟩
      · exact .inr ⟨hq.of_remove hx hsx, hj⟩
    rw [hslot] at hfy hby
    by_cases hqs : q = (tree x).slot p db
    · rw [hqs] at hk ⊢
      rw [hbx, hby]
      exact clearDirent_byte (h.read _ j hk) d
    have hr := (hk.held.range hsx).1
    rw [hfx.read q hr hqs, hfy.read q (by rw [h.same.dataStart]; exact hr) hqs]
    exact h.read q j hk

/-- The same file gets the same new inode on both sides. -/
theorem Twins.resized (h : Twins x y) (hs : (tree x).Sound)
    (hx : BlockTree.Resize (tree x) (tree x') f) (hy : BlockTree.Resize (tree y) (tree y') f)
    (hsame : SameGlobals x x') (hsame' : SameGlobals y y') (hix : SameFields (readInode x' f) inode)
    (hiy : SameFields (readInode y' f) inode) (hmx : ∀ q, Meta x q → q ≠ f → x'.read q = x.read q)
    (hmy : ∀ q, Meta y q → q ≠ f → y'.read q = y.read q) (hfds : y'.fds = x'.fds) :
    Twins x' y' := by
  have hstack : y'.stack = x'.stack := (h.same.pair hsame hsame').stack
  have hinode : readInode y' f = readInode x' f := by
    funext j
    by_cases hj : j < sizeofInode
    · rw [hix j hj, hiy j hj]
    · rw [readInode, readInode, if_neg hj, if_neg hj, hstack]
  refine ⟨h.same.pair hsame hsame', hfds, fun b hb => ?_, fun q j hk => ?_⟩
  · rw [hsame.total] at hb
    have hux := hx.used b hb
    have huy := hy.used b (by rw [h.agree.shape.hi]; exact hb)
    simp only [tree_used, tree_count, tree_slot, hinode] at hux huy
    rw [Bool.eq_iff_iff, hux, huy, h.used b hb, h.readInode_eq hx.live]
  · have hk : Known x q j := by
      rcases hk with ⟨hq, hj⟩ | ⟨hq, hj⟩
      · exact .inl ⟨hx.live_iff.1 hq, hj⟩
      · exact .inr ⟨(DirBlock.resize_iff hx).1 hq, hj⟩
    by_cases hqf : q = f
    · rcases hk with ⟨-, hj⟩ | ⟨hq, -⟩
      · rw [hqf, hix.read_byte hj, hiy.read_byte hj]
      · exact absurd hqf (hq.ne_live hs hx.live)
    have hm : Meta y q := hk.held.imp h.live_iff.2 h.dirBlock_iff.2
    rw [hmx q hk.held hqf, hmy q hm hqf]
    exact h.read q j hk

end Edits

end Xos.Xfs
