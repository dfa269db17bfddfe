import Xos.Xfs.Twins

/-!
# Data and names are apart

Two runs of the same calls that differ in the bytes handed to `xfs_write`.  The code reads
file data as directory entries in several ways, the plainest being a write to a directory
(`written_entry_resolves`).  `Separate` excludes them; under it

* the two runs give the same replies (but for the bytes that reads return), take the same
  blocks and resolve paths alike — `data_namespace_separation`.
-/

namespace Xos.Xfs

open Xos.Lib

variable {x y x₀ : Fs}

/-! ## Separate calls -/

/-- What a call has to respect so that it reads no entries from file data:

* the names of a path are found in directories only, and a new directory's block is
  clean;
* a descriptor belongs to a file or directory that is still in the tree;
* writes and truncations are orderly, as is the removal of an entry. -/
def Separate (x : Fs) : Call → Prop
  | .open _ path flags => ThroughDirs x path ∧ (Creates x path → flags.testBit 2 = true →
      ThroughDirs x (parentPath path) ∧ ∀ p, parentInode x path = some p → LiveDir x p)
  | .mkdir path => ThroughDirs x path ∧ (Creates x path →
      ThroughDirs x (parentPath path) ∧ (∀ p, parentInode x path = some p → LiveDir x p) ∧
      ∀ b, freshData x = some b → ∀ j, j < sizeofDirent * maxDents → x.read b j = 0#8)
  | .unlink path => ThroughDirs x path ∧ ThroughDirs x (parentPath path) ∧
      Orderly x (.unlink path)
  | .stat path | .exists path => ThroughDirs x path
  | .read pid fd _ | .readdir pid fd _ | .lseek pid fd _ _ | .fstat pid fd =>
    ∀ i, fdOf x pid fd = some i → (tree x).Live (x.fds i).inodeBlock
  | call => Orderly x call

theorem Separate.orderly (h : Separate x call) : Orderly x call := by
  cases call with
  | «open» => exact fun hc hflag => (h.2 hc hflag).2
  | mkdir =>
    intro hc
    obtain ⟨-, hpar, hzero⟩ := h.2 hc
    refine ⟨hpar, fun b hb e he => readLE_eq_zero fun j _ hj => hzero b hb j ?_⟩
    simp only [sizeofDirent] at *
    omega
  | unlink => exact h.2.2
  | write | ftruncate => exact h
  | _ => trivial

/-- The two calls are the same but for the bytes to be written. -/
inductive SameCall : Call → Call → Prop
  | refl (call : Call) : SameCall call call
  | write (pid : ℕ) (fd : ℤ) {data data' : List Byte} : data'.length = data.length →
      SameCall (.write pid fd data) (.write pid fd data')

/-- What the two runs must agree on: all of a reply but the bytes that a read returns. -/
def Reply.frame : Reply → Reply
  | .bytes r _ => .code r
  | reply => reply

/-! ## One call -/

section Calls

variable {pid flags : ℕ} {fd : ℤ} {path : List Byte}

theorem Twins.parentInode_eq (h : Twins x y) (hs : (tree x).Sound) (hx : ThroughDirs x (parentPath path))
    (hy : ThroughDirs y (parentPath path)) :
    parentInode y path = parentInode x path ∧
      ∀ p, parentInode x path = some p → (tree x).Live p := by
  unfold parentInode
  split
  · refine ⟨by rw [h.same.rootBlock], fun p hp => ?_⟩
    cases hp
    exact .root
  · exact h.sameDirs.resolvePath_eq hs hx hy

theorem Twins.after_openFd (h : Twins x y) (pid ino flags : ℕ) :
    (openFd y pid ino flags).1 = (openFd x pid ino flags).1 ∧
      Twins (openFd x pid ino flags).2 (openFd y pid ino flags).2 := by
  unfold openFd
  rw [h.fds]
  split
  · exact ⟨rfl, h⟩
  · exact ⟨rfl, h.setFd _ _⟩

/-- A creation has the same outcome on twins. -/
theorem Twins.after_createEntry (h : Twins x y) (hx : Owned x) (hy : Owned y) (flags : ℕ)
    (hflags : flags < 2)
    (hpar : parentInode y path = parentInode x path)
    (hdx : ∀ p, parentInode x path = some p → LiveDir x p)
    (hdy : ∀ p, parentInode y path = some p → LiveDir y p)
    (hzx : flags.testBit 0 = true → ∀ b, freshData x = some b →
      ∀ j, j < sizeofDirent * maxDents → x.read b j = 0#8)
    (hzy : flags.testBit 0 = true → ∀ b, freshData y = some b →
      ∀ j, j < sizeofDirent * maxDents → y.read b j = 0#8) :
    (createEntry y path flags).1 = (createEntry x path flags).1 ∧
      Twins (createEntry x path flags).2 (createEntry y path flags).2 := by
  have hempty : ∀ {z : Fs}, (∀ b, freshData z = some b →
      ∀ j, j < sizeofDirent * maxDents → z.read b j = 0#8) →
      ∀ b, freshData z = some b → ∀ e, e < maxDents → entInode (z.read b) e = 0 := by
    intro z hz b hb e he
    refine readLE_eq_zero fun j _ hj => hz b hb j ?_
    simp only [sizeofDirent] at *
    omega
  have hplan := h.plan_eq hx.geometry hpar hdx
  rcases createEntry_spec hx.geometry hx.sound flags hflags hdx (fun hf => hempty (hzx hf)) with
    ⟨x', hcx, hux, hnx⟩ | ⟨x', p, db, d, ino, data, hcx, hmx⟩ <;>
  rcases createEntry_spec hy.geometry hy.sound flags hflags hdy (fun hf => hempty (hzy hf)) with
    ⟨y', hcy, huy, hny⟩ | ⟨y', p', db', d', ino', data', hcy, hmy⟩
  · rw [hcx, hcy]
    exact ⟨rfl, h.unchanged hux huy⟩
  · rw [hmy.planned, hnx] at hplan
    cases hplan
  · rw [hmx.planned, hny] at hplan
    cases hplan
  · rw [hmx.planned, hmy.planned] at hplan
    cases hplan
    rw [hcx, hcy]
    refine ⟨rfl, h.made hx.sound hy.sound hmx hmy fun hf j hj => ?_⟩
    rw [hzx hf data hmx.fresh j hj, hzy hf data hmy.fresh j hj]

/-- The call gives the same reply on both sides and leaves twins. -/
def Alike (x y : Fs) (call call' : Call) : Prop :=
  (exec y call').1.frame = (exec x call).1.frame ∧ Twins (exec x call).2 (exec y call').2

section

variable (h : Twins x y) (hx : Owned x)
include h hx

theorem Twins.alike_open (hy : Owned y)
    (gx : Separate x (.open pid path flags)) (gy : Separate y (.open pid path flags)) :
    Alike x y (.open pid path flags) (.open pid path flags) := by
  obtain ⟨hres, -⟩ := h.sameDirs.resolvePath_eq hx.sound gx.1 gy.1
  unfold Alike
  simp only [exec, xfsOpen]
  split
  · exact ⟨rfl, h⟩
  rename_i hhead
  rw [hres]
  cases hr : resolvePath x path with
  | some ino =>
    obtain ⟨h₁, h₂⟩ := h.after_openFd pid ino flags
    exact ⟨by rw [h₁], h₂⟩
  | none =>
    simp only
    split
    · exact ⟨rfl, h⟩
    rename_i hcreat
    have hflag : flags.testBit 2 = true := by simpa using hcreat
    obtain ⟨hpx, hdx⟩ := gx.2 ⟨not_not.1 hhead, hr⟩ hflag
    obtain ⟨hpy, hdy⟩ := gy.2 ⟨not_not.1 hhead, hres.trans hr⟩ hflag
    obtain ⟨h₁, h₂⟩ := h.after_createEntry hx hy 0 (by decide)
      (h.parentInode_eq hx.sound hpx hpy).1 hdx hdy (by simp) (by simp)
    rcases hcx : createEntry x path 0 with ⟨_ | ino, x'⟩ <;>
      rcases hcy : createEntry y path 0 with ⟨_ | ino', y'⟩ <;>
      simp only [hcx, hcy, reduceCtorEq, Option.some.injEq] at h₁ h₂
    · exact ⟨rfl, h₂⟩
    · subst h₁
      obtain ⟨h₁, h₂⟩ := h₂.after_openFd pid ino' flags
      exact ⟨by rw [h₁], h₂⟩

theorem Twins.alike_mkdir (hy : Owned y)
    (gx : Separate x (.mkdir path)) (gy : Separate y (.mkdir path)) :
    Alike x y (.mkdir path) (.mkdir path) := by
  obtain ⟨hres, -⟩ := h.sameDirs.resolvePath_eq hx.sound gx.1 gy.1
  unfold Alike
  simp only [exec, xfsMkdir]
  split
  · exact ⟨rfl, h⟩
  rename_i hhead
  rw [hres]
  cases hr : resolvePath x path with
  | some => exact ⟨rfl, h⟩
  | none =>
    obtain ⟨hpx, hdx, hzx⟩ := gx.2 ⟨not_not.1 hhead, hr⟩
    obtain ⟨hpy, hdy, hzy⟩ := gy.2 ⟨not_not.1 hhead, hres.trans hr⟩
    obtain ⟨h₁, h₂⟩ := h.after_createEntry hx hy 1 (by decide)
      (h.parentInode_eq hx.sound hpx hpy).1 hdx hdy (fun _ => hzx) (fun _ => hzy)
    rcases hcx : createEntry x path 1 with ⟨_ | ino, x'⟩ <;>
      rcases hcy : createEntry y path 1 with ⟨_ | ino', y'⟩ <;>
      simp only [hcx, hcy, reduceCtorEq] at h₁ h₂
    · exact ⟨rfl, h₂⟩
    · exact ⟨rfl, h₂⟩

/-- The search of an unlink finds the same entry on twins. -/
theorem Twins.unlinkTarget_eq (gx : Separate x (.unlink path))
    (gy : Separate y (.unlink path)) : unlinkTarget y path = unlinkTarget x path := by
  obtain ⟨hrx, hpx, hox⟩ := gx
  obtain ⟨hry, hpy, hoy⟩ := gy
  obtain ⟨hres, hlive⟩ := h.sameDirs.resolvePath_eq hx.sound hrx hry
  obtain ⟨hpar, hplive⟩ := h.parentInode_eq hx.sound hpx hpy
  have hox : ∀ ino p db d, unlinkTarget x path = some (ino, p, db, d) → LiveDir x p := hox
  have hoy : ∀ ino p db d, unlinkTarget y path = some (ino, p, db, d) → LiveDir y p := hoy
  unfold unlinkTarget at hox hoy ⊢
  split
  · rfl
  rename_i hhead
  rw [hres, hpar] at hoy ⊢
  simp only [if_neg hhead] at hox hoy
  cases hr : resolvePath x path with
  | none => rfl
  | some ino =>
    simp only [hr] at hox hoy ⊢
    rw [h.readInode_eq (hlive ino hr)] at hoy ⊢
    split
    · rfl
    rename_i hfile
    cases hp : parentInode x path with
    | none => rfl
    | some p =>
      simp only [if_neg hfile, hp, h.readInode_eq (hplive p hp)] at hox hoy ⊢
      cases hdir : (tree x).dir p with
      | true =>
        have hscan : findDent y (readInode x p)
            (fun b s d => b != 0 && entInode s d == ino % 2 ^ 32) = findDent x (readInode x p)
                (fun b s d => b != 0 && entInode s d == ino % 2 ^ 32) := by
          apply findDent_congr
          intro db d hdb hd
          have hq : DirBlock x (dataBlock (readInode x p) db) :=
            ⟨p, db, hplive p hp, hdir, hdb, rfl⟩
          rw [h.sameDirs.entInode_eq hq hd]
        rw [hscan]
      | false =>
        -- an entry in a file would not be orderly
        have hdirs : (tree y).dir p = (tree x).dir p := (h.agree.inode (hplive p hp)).dir
        have hnone : ∀ {z : Fs} {o : Option (ℕ × ℕ)}, (tree z).dir p = false →
            (∀ ino' p' db d, o.map (fun e => (ino, p, e)) = some (ino', p', db, d) →
              LiveDir z p') → o = none := by
          intro z o hz ho
          cases o with
          | none => rfl
          | some e => cases (ho ino p e.1 e.2 rfl).2.symm.trans hz
        rw [hnone hdir hox, hnone (hdirs.trans hdir) hoy]

theorem Twins.alike_unlink (hy : Owned y)
    (gx : Separate x (.unlink path)) (gy : Separate y (.unlink path)) :
    Alike x y (.unlink path) (.unlink path) := by
  have htarget := h.unlinkTarget_eq hx gx gy
  unfold Alike
  simp only [exec]
  cases ht : unlinkTarget x path with
  | none =>
    simp only [xfsUnlink, ht, htarget]
    exact ⟨trivial, h⟩
  | some =>
    rw [ht] at htarget
    rcases xfsUnlink_spec hx.geometry hx.sound gx.2.2 with
      he | ⟨x', p, db, d, ino, hex, htx, -, hfx, hrx, hframex, hbx⟩
    · simp only [xfsUnlink, ht] at he
      cases congrArg Prod.fst he
    rcases xfsUnlink_spec hy.geometry hy.sound gy.2.2 with
      he | ⟨y', p', db', d', ino', hey, hty, -, hfy, hry, hframey, hby⟩
    · simp only [xfsUnlink, htarget] at he
      cases congrArg Prod.fst he
    cases Option.some.inj (ht.symm.trans htx)
    cases Option.some.inj (htarget.symm.trans hty)
    rw [hex, hey]
    exact ⟨rfl, h.removed hx.sound hrx hry hframex hframey hbx hby (by rw [hfy, h.fds, hfx])⟩

end

/-! ### Through descriptors -/

/-- How much a read returns depends on the inode only. -/
theorem readLoop_length (offset count fuel : ℕ) (h : acc'.length = acc.length) :
    (readLoop y inode offset count fuel acc').length =
      (readLoop x inode offset count fuel acc).length := by
  induction fuel generalizing acc acc' with
  | zero => exact h
  | succ fuel ih =>
    unfold readLoop
    rw [h]
    split
    · exact h
    simp only
    split
    · exact h
    · exact ih (by simp [h])

section

variable (h : Twins x y)
include h

theorem Twins.alike_read {count : ℕ} (gx : Separate x (.read pid fd count)) :
    Alike x y (.read pid fd count) (.read pid fd count) := by
  unfold Alike
  simp only [exec, xfsRead, fdOf_congr h.fds]
  cases hfd : fdOf x pid fd with
  | none => exact ⟨rfl, h⟩
  | some i =>
    have hlen : ∀ c, (readLoop y (readInode x (x.fds i).inodeBlock) (x.fds i).offset c c []).length =
        (readLoop x (readInode x (x.fds i).inodeBlock) (x.fds i).offset c c []).length :=
      fun c => readLoop_length _ c c rfl
    simp only [h.fds, h.readInode_eq (gx i hfd)]
    split
    · exact ⟨rfl, h⟩
    · simp only [Reply.frame, hlen]
      exact ⟨trivial, h.setFd _ _⟩

theorem Twins.alike_readdir (gx : Separate x (.readdir pid fd n)) :
    Alike x y (.readdir pid fd n) (.readdir pid fd n) := by
  unfold Alike
  simp only [exec]
  have heq : xfsReaddir y pid fd n = xfsReaddir x pid fd n := by
    unfold xfsReaddir
    rw [fdOf_congr h.fds]
    cases hfd : fdOf x pid fd with
    | none => rfl
    | some i =>
      have hlive := gx i hfd
      simp only [h.fds, h.readInode_eq hlive]
      set inode := readInode x (x.fds i).inodeBlock with hinode
      split
      · rfl
      split
      · rfl
      rename_i hdir
      have hq : ∀ {e}, e ∈ dentPlaces inode →
          DirBlock x (dataBlock inode e.1) ∧ e.2 < maxDents := by
        intro e he
        obtain ⟨h₁, h₂⟩ := mem_dentPlaces.1 he
        exact ⟨⟨_, _, hlive, by rw [tree_dir]; simpa using hdir, h₁, rfl⟩, h₂⟩
      -- the same entries are in use, and they have the same bytes
      have hused : (dentPlaces inode).filter (fun e => dataBlock inode e.1 != 0 &&
          entInode (y.read (dataBlock inode e.1)) e.2 != 0) =
          (dentPlaces inode).filter (fun e => dataBlock inode e.1 != 0 &&
            entInode (x.read (dataBlock inode e.1)) e.2 != 0) :=
        List.filter_congr fun e he => by
          rw [h.sameDirs.entInode_eq (hq he).1 (hq he).2]
      have hbytes : ∀ e ∈ dentPlaces inode, ((List.range sizeofDirent).map fun k =>
          y.read (dataBlock inode e.1) (sizeofDirent * e.2 + k)) =
          (List.range sizeofDirent).map fun k =>
            x.read (dataBlock inode e.1) (sizeofDirent * e.2 + k) := by
        intro e he
        refine List.map_congr_left fun k hk => ?_
        rw [List.mem_range] at hk
        refine h.sameDirs.entry_byte (hq he).1 (hq he).2 ?_
        simp only [sizeofDirent] at *
        omega
      rw [hused, List.map_congr_left fun e he =>
        hbytes e (List.mem_filter.1 (List.mem_of_mem_take he)).1]
  rw [heq]
  exact ⟨rfl, h⟩

theorem Twins.alike_lseek (gx : Separate x (.lseek pid fd offset whence)) :
    Alike x y (.lseek pid fd offset whence) (.lseek pid fd offset whence) := by
  unfold Alike
  simp only [exec, xfsLseek, fdOf_congr h.fds]
  cases hfd : fdOf x pid fd with
  | none => exact ⟨rfl, h⟩
  | some i =>
    simp only [h.fds, h.readInode_eq (gx i hfd)]
    split
    · exact ⟨rfl, h⟩
    split
    · exact ⟨rfl, h⟩
    · exact ⟨rfl, h.setFd _ _⟩

theorem Twins.alike_fstat (gx : Separate x (.fstat pid fd)) :
    Alike x y (.fstat pid fd) (.fstat pid fd) := by
  unfold Alike
  simp only [exec, xfsFstat, fdOf_congr h.fds]
  refine ⟨?_, h⟩
  cases hfd : fdOf x pid fd with
  | none => rfl
  | some i => simp only [h.fds, h.readInode_eq (gx i hfd)]

theorem Twins.alike_stat (hx : Owned x) (gx : Separate x (.stat path))
    (gy : Separate y (.stat path)) : Alike x y (.stat path) (.stat path) := by
  obtain ⟨hres, hlive⟩ := h.sameDirs.resolvePath_eq hx.sound gx gy
  unfold Alike
  simp only [exec, xfsStat, hres]
  refine ⟨?_, h⟩
  cases hr : resolvePath x path with
  | none => rfl
  | some ino => simp only [h.readInode_eq (hlive ino hr)]

theorem Twins.alike_close : Alike x y (.close fd) (.close fd) := by
  unfold Alike
  simp only [exec, xfsClose]
  refine ⟨trivial, ?_⟩
  split
  · rw [h.fds]
    exact h.setFd _ _
  · exact h

/-! ### Writing -/

/-- In the middle of the same growth the next free block is the same. -/
theorem Twins.growing_alloc (hf : (tree x).Live f) (hz : Growing x f z inode)
    (hw : Growing y f w inode) :
    (allocBlock w).1 = (allocBlock z).1 := by
  refine allocBlock_congr (h.same.pair hz.frame.same hw.frame.same) fun b hb => ?_
  rw [hz.frame.same.total] at hb
  have huz := hz.used b hb
  have huw := hw.used b (by rw [h.same.total]; exact hb)
  rw [h.readInode_eq hf, h.used b hb] at huw
  rw [Bool.eq_iff_iff, huz, huw]

theorem Twins.alike_write (hx : Owned x) (hy : Owned y) (hlen : data'.length = data.length)
    (gx : Separate x (.write pid fd data)) (gy : Separate y (.write pid fd data')) :
    Alike x y (.write pid fd data) (.write pid fd data') := by
  unfold Alike
  simp only [exec]
  cases hfd : fdOf x pid fd with
  | none =>
    simp only [xfsWrite, fdOf_congr h.fds, hfd]
    exact ⟨trivial, h⟩
  | some i =>
    have hfdy : fdOf y pid fd = some i := (fdOf_congr h.fds).trans hfd
    by_cases hdata : data = []
    · have hdata' : data' = [] := List.length_eq_zero_iff.1 (by rw [hlen, hdata]; rfl)
      simp only [xfsWrite, hfd, hfdy, hdata, hdata', if_true]
      exact ⟨trivial, h⟩
    have hdata' : data' ≠ [] := by
      rintro rfl
      exact hdata (List.length_eq_zero_iff.1 hlen.symm)
    by_cases hw : Writable (x.fds i)
    · have hwy : Writable (y.fds i) := by rw [h.fds]; exact hw
      obtain ⟨⟨hf, hfile⟩, hin⟩ := gx i hfd hdata hw
      obtain ⟨⟨hfy, hfiley⟩, hiny⟩ := gy i hfdy hdata' hwy
      obtain ⟨x', hex, hsx, hfx, hrx, hix, hmx⟩ :=
        xfsWrite_spec hx.geometry hx.sound hfd hdata hw hf hfile hin
      obtain ⟨y', hey, hsy, hfy', hry, hiy, hmy⟩ :=
        xfsWrite_spec hy.geometry hy.sound hfdy hdata' hwy hfy hfiley hiny
      -- the loops take the same blocks and end at the same place
      have hloop : (writeLoop (x.fds i).offset data' data'.length y
          (readInode x (x.fds i).inodeBlock) 0).2 =
          (writeLoop (x.fds i).offset data data.length x
            (readInode x (x.fds i).inodeBlock) 0).2 := by
        rw [h.fds] at hfy hfiley
        have hstart : Growing y (x.fds i).inodeBlock y (readInode x (x.fds i).inodeBlock) := by
          rw [← h.readInode_eq hf]
          exact .start hy.sound hfy
        rw [hlen]
        exact writeLoop_congr (growing_kept hx.geometry hx.sound hf hfile)
          (growing_kept hy.geometry hy.sound hfy hfiley) (h.growing_alloc hf) _ hlen _
          (.start hx.sound hf) hstart hin
      rw [h.fds, h.readInode_eq hf, hloop] at hey hfy' hiy
      rw [h.fds] at hry hmy
      rw [hex, hey]
      exact ⟨rfl, h.resized hx.sound hrx hry hsx hsy hix hiy hmx hmy (by rw [hfy', hfx])⟩
    · have hwx : ((x.fds i).flags.testBit 0 || (x.fds i).flags.testBit 1) = false := by
        simpa [Writable] using hw
      simp only [xfsWrite, hfd, hfdy, hdata, hdata', h.fds, hwx, if_false, Bool.not_false, if_true]
      exact ⟨trivial, h⟩

theorem Twins.alike_ftruncate (hx : Owned x) (hy : Owned y)
    (gx : Separate x (.ftruncate pid fd size)) (gy : Separate y (.ftruncate pid fd size)) :
    Alike x y (.ftruncate pid fd size) (.ftruncate pid fd size) := by
  unfold Alike
  simp only [exec]
  cases hfd : fdOf x pid fd with
  | none =>
    simp only [xfsFtruncate, fdOf_congr h.fds, hfd]
    exact ⟨trivial, h⟩
  | some i =>
    have hfdy : fdOf y pid fd = some i := (fdOf_congr h.fds).trans hfd
    by_cases hsize : size < 0
    · simp only [xfsFtruncate, hfd, hfdy, hsize, if_true]
      exact ⟨trivial, h⟩
    obtain ⟨⟨hf, hfile⟩, hneed⟩ := gx i hfd (by omega)
    obtain ⟨⟨hfy, hfiley⟩, hneedy⟩ := gy i hfdy (by omega)
    obtain ⟨x', hex, hsx, hfx, hrx, hix, hmx⟩ :=
      xfsFtruncate_spec hx.geometry hx.sound hfd (by omega) hf hfile hneed
    obtain ⟨y', hey, hsy, hfy', hry, hiy, hmy⟩ :=
      xfsFtruncate_spec hy.geometry hy.sound hfdy (by omega) hfy hfiley hneedy
    rw [h.fds] at hfy hfiley hry hiy hmy
    have hinode : truncatedInode y (readInode x (x.fds i).inodeBlock) (size.toNat % 2 ^ 32) =
        truncatedInode x (readInode x (x.fds i).inodeBlock) (size.toNat % 2 ^ 32) := by
      have hstart : Growing y (x.fds i).inodeBlock y (readInode x (x.fds i).inodeBlock) := by
        rw [← h.readInode_eq hf]
        exact .start hy.sound hfy
      unfold truncatedInode
      rw [extendLoop_congr (growing_kept hx.geometry hx.sound hf hfile)
        (growing_kept hy.geometry hy.sound hfy hfiley) (h.growing_alloc hf) _ _
        (.start hx.sound hf) hstart]
    rw [h.readInode_eq hf, hinode] at hiy
    rw [hex, hey]
    exact ⟨rfl, h.resized hx.sound hrx hry hsx hsy hix hiy hmx hmy (by rw [hfy', h.fds, hfx])⟩

end

end Calls

/-- **One call on twins.** -/
theorem Twins.alike (h : Twins x y) (hx : Owned x) (hy : Owned y) (hcall : SameCall call call')
    (gx : Separate x call) (gy : Separate y call') :
    Alike x y call call' := by
  cases hcall with
  | write pid fd hlen => exact h.alike_write hx hy hlen gx gy
  | refl =>
    cases call with
    | «open» => exact h.alike_open hx hy gx gy
    | close => exact h.alike_close
    | read => exact h.alike_read gx
    | write => exact h.alike_write hx hy rfl gx gy
    | mkdir => exact h.alike_mkdir hx hy gx gy
    | readdir => exact h.alike_readdir gx
    | lseek => exact h.alike_lseek gx
    | stat => exact h.alike_stat hx gx gy
    | fstat => exact h.alike_fstat gx
    | unlink => exact h.alike_unlink hx hy gx gy
    | ftruncate => exact h.alike_ftruncate hx hy gx gy
    | «exists» =>
      refine ⟨?_, h⟩
      simp only [exec, xfsExists, (h.sameDirs.resolvePath_eq hx.sound gx gy).1]

/-! ## Two runs -/

/-- What two separate runs keep. -/
structure Paired (x y : Fs) : Prop where
  left : Owned x
  right : Owned y
  twins : Twins x y

theorem Paired.step (h : Paired x y) (hcall : SameCall call call') (gx : Separate x call)
    (gy : Separate y call') (hx : Step x call x') (hy : Step y call' y') : Paired x' y' := by
  refine ⟨h.left.step gx.orderly hx, h.right.step gy.orderly hy, ?_⟩
  rw [← hx, ← hy]
  exact (h.twins.alike h.left h.right hcall gx gy).2

/-- The calls that store bytes in a file. -/
def Call.Stores : Call → Prop
  | .write _ _ _ | .ftruncate _ _ _ => True
  | _ => False

/-- **Data and names are apart.**  Two runs of separate calls that differ in the bytes
written only: the bitmaps and the descriptors are the same, every path that leads through
directories is resolved alike, and every further call gives the same reply.  A write or a
truncation changes the resolution of no such path. -/
theorem data_namespace_separation (hfit : Fits x₀) (hmount : xfsMount (xfsFormat x₀) = some x)
    {calls calls' : List Call} {z : Fs} (hcalls : List.Forall₂ SameCall calls calls')
    (hy : Run Step Separate x calls y) (hz : Run Step Separate x calls' z) :
    (∀ b, b < y.total → bitmapGet z b = bitmapGet y b) ∧ z.fds = y.fds ∧
    (∀ path, ThroughDirs y path → ThroughDirs z path → resolvePath z path = resolvePath y path) ∧
    (∀ call call', SameCall call call' → Separate y call → Separate z call' →
      (exec z call').1.frame = (exec y call).1.frame) ∧
    ∀ call, call.Stores → Separate y call → ∀ path, ThroughDirs y path →
      ThroughDirs (exec y call).2 path → resolvePath (exec y call).2 path = resolvePath y path := by
  obtain ⟨x', hx', hblank⟩ := mount_format hfit
  obtain rfl : x = x' := Option.some.inj (hmount.symm.trans hx')
  have hstep : ∀ x y call call' x' y', Paired x y → SameCall call call' → Separate x call →
      Separate y call' → Step x call x' → Step y call' y' → Paired x' y' :=
    fun _ _ _ _ _ _ h hc gx gy hx hy => h.step hc gx gy hx hy
  have h : Paired y z := hy.pair ⟨hblank.owned, hblank.owned, .refl x⟩ hstep hz hcalls
  refine ⟨h.twins.used, h.twins.fds, fun path gy gz => ?_, fun call call' hc gy gz => ?_,
    fun call hstore gy path hp hp' => ?_⟩
  · exact (h.twins.sameDirs.resolvePath_eq h.left.sound gy gz).1
  · exact (h.twins.alike h.left h.right hc gy gz).1
  · have hquiet : ¬ call.Renames := by
      cases call with
      | write | ftruncate => exact id
      | _ => exact hstore.elim
    obtain ⟨hsame, hq⟩ := exec_quiet h.left.geometry h.left.sound gy.orderly hquiet
    exact ((hq.sameDirs hsame).resolvePath_eq h.left.sound hp hp').1

/-! ## Small disks -/

/-- **Written bytes become a name.**  Two runs open the root directory and write equally
many bytes to it; after the one `/a` is there, after the other it is not. -/
theorem written_entry_resolves : ∃ y z, Run Step (fun _ _ => True) (freshDisk 8)
        [.open 1 [slash] 1, .write 1 0 (0x61#8 :: List.replicate 63 0#8 ++ [2#8, 0#8, 0#8, 0#8])] y ∧
      Run Step (fun _ _ => True) (freshDisk 8)
        [.open 1 [slash] 1, .write 1 0 (List.replicate 68 0#8)] z ∧
      resolvePath y [slash, 0x61#8] = some 2 ∧ resolvePath z [slash, 0x61#8] = none := by
  refine ⟨_, _, run_execs _ _, run_execs _ _, ?_, ?_⟩
  · decide +kernel
  · decide +kernel

/-- A path with one name leads through the root directory only. -/
theorem throughDirs_root (hs : (tree x).Sound) (c : Byte) (hc : c ≠ slash) :
    ThroughDirs x [slash, c] := by
  have hnames : pathNames [slash, c] = [[c]] := by
    simp [pathNames, components, hc]
  unfold ThroughDirs
  rw [hnames]
  exact ⟨.inl hs.rootDir, fun _ _ => trivial⟩

/-- Two runs create a file and write one byte, not the same one. -/
theorem data_namespace_separation_small_disk :
    ∃ y z, Run Step Separate (freshDisk 8) [.open 1 [slash, 0x66#8] 6, .write 1 0 [1#8]] y ∧
      Run Step Separate (freshDisk 8) [.open 1 [slash, 0x66#8] 6, .write 1 0 [2#8]] z ∧
      ∀ b, b < y.total → bitmapGet z b = bitmapGet y b := by
  have hs := blank_freshDisk.sound
  have hopen : Separate (freshDisk 8) (.open 1 [slash, 0x66#8] 6) := by
    exact ⟨throughDirs_root hs _ (by decide), fun h h' => ⟨trivial, orderly_oneFile h h'⟩⟩
  have hrun : ∀ data, Run Step Separate (freshDisk 8) [.open 1 [slash, 0x66#8] 6, .write 1 0 data]
      (exec oneFile (.write 1 0 data)).2 := fun data =>
    .cons hopen rfl <| .cons (orderly_write_oneFile data) rfl .nil
  refine ⟨_, _, hrun _, hrun _, ?_⟩
  have hcalls : List.Forall₂ SameCall [.open 1 [slash, 0x66#8] 6, .write 1 0 [1#8]]
      [.open 1 [slash, 0x66#8] 6, .write 1 0 [2#8]] :=
    .cons (.refl _) (.cons (.write 1 0 rfl) .nil)
  exact (data_namespace_separation ⟨by decide, by decide⟩ mount_freshDisk hcalls (hrun _)
    (hrun _)).1

end Xos.Xfs
