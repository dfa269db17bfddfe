import Mathlib.Algebra.Order.BigOperators.Group.List
import Xos.Lib.Run
import Xos.Xfs.Ops

/-!
# The paths of the system calls

`path_abs` of `kernel/arch/x86_64/syscall.c` turns the path of a call into an absolute one without
`.` and `..`, and `sys_chdir` keeps the result as the current directory.  The scan works in fixed
buffers: 256 bytes for the whole path, 64 for a component, 32 components.

* **the code** — `pathAbs` and `sysChdir`; the components are cut as in `resolve_path`, so the
  scan is a fold over `Xfs.components`;
* **the purpose** — `normalise`, over lists without limits;
* **the result** — a component that does not fit its buffer is cut into two, which are then two
  components of the path (`long_component_split`); if the scan does not come to such a component
  the result is the normal form (`pathAbs_normalises`).
-/

namespace Xos.PathAbs

open Xos.Lib Xos.Xfs

/-- `XOS_PATH_MAX`. -/
def xosPathMax : ℕ := 256

/-- `'.'`. -/
abbrev dot : Byte := 0x2e#8

/-! ## The code -/

/-- The path in `joined`. -/
def join (cwd path : List Byte) : Option (List Byte) :=
  if path.head? = some slash then if xosPathMax ≤ path.length then none else some path
  else if xosPathMax < cwd.length + 1 + path.length + 1 then none
  else if cwd.getLast? = some slash then some (cwd ++ path)
  else some (cwd ++ slash :: path)

/-- One round of the scan; the components so far are in `comps`. -/
def push (comps : List (List Byte)) (comp : List Byte) : Option (List (List Byte)) :=
  if comp = [] ∨ comp = [dot] then some comps
  else if comp = [dot, dot] then some comps.dropLast
  else if 32 ≤ comps.length then none
  else some (comps ++ [comp])

/-- The loop that writes the components to `out`. -/
def emit (outsz : ℕ) : List (List Byte) → List Byte → Option (List Byte)
  | [], out => some out
  | c :: cs, out =>
    if outsz < out.length + 1 + c.length + 1 then none else emit outsz cs (out ++ slash :: c)

/-- `path_abs`; `none` is `-1`. -/
def pathAbs (cwd path : List Byte) (outsz : ℕ) : Option (List Byte) :=
  if path = [] ∨ outsz < 2 then none
  else (join cwd path).bind fun joined =>
    let p := if joined.head? = some slash then joined.tail else joined
    ((components [] p).foldlM push []).bind fun comps =>
      if comps = [] then some [slash] else emit outsz comps []

/-- `sys_chdir`: what it returns, and `g_cwd` after it. -/
def sysChdir (x : Fs) (cwd path : List Byte) : ℤ × List Byte :=
  match pathAbs cwd path xosPathMax with
  | none => (-1, cwd)
  | some abs =>
    match xfsStat x abs with
    | (0, some st) =>
      if st.flags % 2 = 0 ∨ xosPathMax ≤ abs.length then (-1, cwd) else (0, abs)
    | _ => (-1, cwd)

/-- A call of `sys_chdir`, on any file system. -/
def Step (cwd : List Byte) (call : Fs × List Byte) (cwd' : List Byte) : Prop :=
  cwd' = (sysChdir call.1 cwd call.2).2

/-! ## What it is for -/

/-- A component is dropped, removes the one before it, or is kept. -/
def follow (comps : List (List Byte)) (comp : List Byte) : List (List Byte) :=
  if comp = [] ∨ comp = [dot] then comps
  else if comp = [dot, dot] then comps.dropLast
  else comps ++ [comp]

/-- The components of the normal form. -/
def parts (path : List Byte) : List (List Byte) := (path.splitOn slash).foldl follow []

/-- The path with these components. -/
def render (comps : List (List Byte)) : List Byte :=
  if comps = [] then [slash] else comps.flatMap (slash :: ·)

/-- **The normal form** of a path. -/
def normalise (cwd path : List Byte) : List Byte :=
  render (parts (if path.head? = some slash then path else cwd ++ slash :: path))

/-- Every component fits its buffer. -/
def Short (path : List Byte) : Prop := ∀ c ∈ path.splitOn slash, c.length < xfsNameMax

/-- The call is refused before the scan comes to a component that does not fit. -/
def Refused (cwd path : List Byte) (outsz : ℕ) : Prop :=
  path = [] ∨ outsz < 2 ∨ ∀ p, join cwd path = some p →
    ((p.tail.splitOn slash).takeWhile (·.length < xfsNameMax)).foldlM push [] = none

/-! ## Splitting -/

variable {cwd path p q out : List Byte} {comps cs : List (List Byte)} {outsz : ℕ}

theorem splitOn_append (p q : List Byte) :
    (p ++ slash :: q).splitOn slash = p.splitOn slash ++ q.splitOn slash :=
  List.splitOnP_append_cons p q (beq_self_eq_true slash)

theorem splitOn_slash (q : List Byte) : (slash :: q).splitOn slash = [] :: q.splitOn slash := by
  have h := splitOn_append [] q
  rwa [List.splitOn_nil] at h

theorem splitOn_cons (hc : c ≠ slash) (p : List Byte) :
    (c :: p).splitOn slash = (p.splitOn slash).modifyHead (c :: ·) := by
  unfold List.splitOn
  rw [List.splitOnP_cons_eq_if_modifyHead, if_neg (by simpa using hc)]

theorem short_append (p q : List Byte) : Short (p ++ slash :: q) ↔ Short p ∧ Short q := by
  unfold Short
  rw [splitOn_append]
  simp only [List.mem_append]
  exact ⟨fun h => ⟨fun c hc => h c (.inl hc), fun c hc => h c (.inr hc)⟩,
    fun h c hc => hc.elim (h.1 c) (h.2 c)⟩

theorem parts_append (p q : List Byte) :
    parts (p ++ slash :: q) = (q.splitOn slash).foldl follow (parts p) := by
  unfold parts
  rw [splitOn_append, List.foldl_append]

/-- The scan cuts at slashes only, and a part after a slash at the end is empty. -/
theorem components_eq (h : ∀ c ∈ (p.splitOn slash).modifyHead (acc ++ ·), c.length < xfsNameMax) :
    (p.splitOn slash).modifyHead (acc ++ ·) = components acc p ∨
      (p.splitOn slash).modifyHead (acc ++ ·) = components acc p ++ [[]] := by
  induction p generalizing acc with
  | nil => simp [components]
  | cons c p ih =>
    have hid : (p.splitOn slash).modifyHead ([] ++ ·) = p.splitOn slash :=
      congrFun List.modifyHead_id _
    unfold components
    by_cases hc : c = slash
    · subst hc
      rw [splitOn_slash] at h ⊢
      simp only [if_true, List.modifyHead_cons, List.append_nil] at h ⊢
      by_cases hp : p = []
      · subst hp
        exact .inr (by simp)
      rw [if_neg hp]
      have hrest := ih fun d hd => h d (List.mem_cons_of_mem _ (hid ▸ hd))
      rw [hid] at hrest
      exact hrest.imp (fun he => by rw [he]) fun he => by rw [he]; rfl
    rw [splitOn_cons hc] at h ⊢
    have hhead : ((p.splitOn slash).modifyHead (c :: ·)).modifyHead (acc ++ ·) =
        (p.splitOn slash).modifyHead (acc ++ [c] ++ ·) := by
      rw [List.modifyHead_modifyHead]
      congr 1
      funext d
      simp
    rw [hhead] at h ⊢
    have hlen : acc.length ≠ xfsNameMax - 1 := by
      obtain ⟨d, ds, hd⟩ := List.exists_cons_of_ne_nil (List.splitOnP_ne_nil (· == slash) p)
      intro hl
      have := h (acc ++ [c] ++ d) (by unfold List.splitOn; rw [hd]; simp)
      simp only [List.length_append, List.length_singleton] at this
      omega
    rw [if_neg hc, if_neg hlen]
    exact ih h

/-- What follows from it for a path of its own. -/
theorem Short.components (h : Short p) : p.splitOn slash = components [] p ∨
    p.splitOn slash = Xfs.components [] p ++ [[]] := by
  have hid : (p.splitOn slash).modifyHead ([] ++ ·) = p.splitOn slash :=
    congrFun List.modifyHead_id _
  have heq := components_eq (p := p) fun c hc => h c (hid ▸ hc)
  rwa [hid] at heq

/-- Up to the first component that does not fit, the scan cuts at slashes. -/
theorem takeWhile_isPrefix (p : List Byte) :
    ((p.splitOn slash).modifyHead (acc ++ ·)).takeWhile (·.length < xfsNameMax) <+:
      components acc p ++ [[]] := by
  induction p generalizing acc with
  | nil =>
    by_cases hacc : acc.length < xfsNameMax <;> simp [components, hacc]
  | cons c p ih =>
    have hid : (p.splitOn slash).modifyHead ([] ++ ·) = p.splitOn slash :=
      congrFun List.modifyHead_id _
    unfold components
    by_cases hc : c = slash
    · subst hc
      rw [splitOn_slash, List.modifyHead_cons, List.append_nil, List.takeWhile_cons, if_pos rfl]
      split_ifs with hacc hp
      · subst hp
        simp
      · have hrest := @ih []
        rw [hid] at hrest
        exact (List.prefix_cons_inj acc).2 hrest
      all_goals exact List.nil_prefix
    obtain ⟨d, ds, hd⟩ := List.exists_cons_of_ne_nil (List.splitOnP_ne_nil (· == slash) p)
    rw [splitOn_cons hc, if_neg hc]
    unfold List.splitOn at ih ⊢
    rw [hd] at ih ⊢
    simp only [List.modifyHead_cons] at ih ⊢
    split_ifs with hlen
    · -- the buffer is full, and the component goes on
      rw [List.takeWhile_cons_of_neg (by simp [hlen, xfsNameMax]; omega)]
      exact List.nil_prefix
    · simpa using @ih (acc ++ [c])

/-- The buffer of the scan bounds its components, however long the path's are. -/
theorem components_fit (hs : slash ∉ acc) (hl : acc.length < xfsNameMax) (h : c ∈ components acc p) :
    slash ∉ c ∧ c.length < xfsNameMax := by
  induction p generalizing acc with
  | nil =>
    rw [List.mem_singleton.mp h]
    exact ⟨hs, hl⟩
  | cons b p ih =>
    unfold components at h
    split_ifs at h with hb hp hlen
    · rw [List.mem_singleton.mp h]
      exact ⟨hs, hl⟩
    · rcases List.mem_cons.mp h with rfl | h
      · exact ⟨hs, hl⟩
      · exact ih (by simp) (by decide) h
    · rcases List.mem_cons.mp h with rfl | h
      · exact ⟨hs, hl⟩
      · exact ih (by simpa using Ne.symm hb) (by simp) h
    · refine ih ?_ ?_ h
      · simp [hs, Ne.symm hb]
      · rw [List.length_append, List.length_singleton]
        omega

/-! ## The components -/

/-- A component of a normal form. -/
structure Proper (c : List Byte) : Prop where
  ne_nil : c ≠ []
  ne_dot : c ≠ [dot]
  ne_dots : c ≠ [dot, dot]
  no_slash : slash ∉ c
  short : c.length < xfsNameMax

theorem push_proper (h : Proper c) (hn : comps.length < 32) :
    push comps c = some (comps ++ [c]) := by
  unfold push
  rw [if_neg fun hc => hc.elim h.ne_nil h.ne_dot, if_neg h.ne_dots, if_neg (by omega)]

/-- **One round** does what it is for, or the path is rejected. -/
theorem push_spec (h : push comps c = some cs) (hs : slash ∉ c) (hl : c.length < xfsNameMax)
    (hp : ∀ d ∈ comps, Proper d) (hn : comps.length ≤ 32) :
    cs = follow comps c ∧ (∀ d ∈ cs, Proper d) ∧ cs.length ≤ 32 ∧
      (cs.map (·.length + 1)).sum ≤ (comps.map (·.length + 1)).sum + (c.length + 1) := by
  unfold push at h
  unfold follow
  split_ifs at h ⊢ with h1 h2 h3
  · cases h
    exact ⟨rfl, hp, hn, by omega⟩
  · cases h
    have hsub : (comps.dropLast.map (·.length + 1)).Sublist (comps.map (·.length + 1)) :=
      (List.dropLast_sublist comps).map _
    refine ⟨rfl, fun d hd => hp d (List.dropLast_subset comps hd), ?_, ?_⟩
    · rw [List.length_dropLast]
      omega
    · exact (hsub.sum_le_sum fun _ _ => Nat.zero_le _).trans (Nat.le_add_right _ _)
  · cases h
    refine ⟨rfl, fun d hd => ?_, by simp only [List.length_append, List.length_singleton]; omega,
      by simp⟩
    rcases List.mem_append.mp hd with hd | hd
    · exact hp d hd
    · rw [List.mem_singleton.mp hd]
      exact ⟨fun hc => h1 (.inl hc), fun hc => h1 (.inr hc), h2, hs, hl⟩

/-- **The scan**, by its rounds. -/
theorem scan_spec {l : List (List Byte)} (h : l.foldlM push comps = some cs)
    (hl : ∀ c ∈ l, slash ∉ c ∧ c.length < xfsNameMax) (hp : ∀ d ∈ comps, Proper d)
    (hn : comps.length ≤ 32) :
    cs = l.foldl follow comps ∧ (∀ d ∈ cs, Proper d) ∧ cs.length ≤ 32 ∧
      (cs.map (·.length + 1)).sum ≤
        (comps.map (·.length + 1)).sum + (l.map (·.length + 1)).sum := by
  induction l generalizing comps with
  | nil =>
    cases h
    exact ⟨rfl, hp, hn, by simp⟩
  | cons c l ih =>
    obtain ⟨ds, hds, hrest⟩ := Option.bind_eq_some_iff.mp h
    obtain ⟨hc, hcl⟩ := hl c List.mem_cons_self
    obtain ⟨rfl, hp', hn', hsum⟩ := push_spec hds hc hcl hp hn
    obtain ⟨he, hq, hm, hsum'⟩ := ih hrest (fun d hd => hl d (List.mem_cons_of_mem _ hd)) hp' hn'
    refine ⟨he, hq, hm, ?_⟩
    rw [List.map_cons, List.sum_cons]
    omega

theorem scan_proper (hp : ∀ c ∈ cs, Proper c) (hn : comps.length + cs.length ≤ 32) :
    cs.foldlM push comps = some (comps ++ cs) := by
  induction cs generalizing comps with
  | nil => simp
  | cons c cs ih =>
    rw [List.length_cons] at hn
    rw [List.foldlM_cons, push_proper (hp c List.mem_cons_self) (by omega)]
    show cs.foldlM push (comps ++ [c]) = _
    rw [ih (fun d hd => hp d (List.mem_cons_of_mem _ hd))
      (by simp only [List.length_append, List.length_singleton]; omega)]
    simp

theorem push_nil (comps : List (List Byte)) : push comps [] = some comps := by
  simp [push]

/-- A call that is refused there is refused. -/
theorem Refused.pathAbs (h : Refused cwd path outsz)
    (hslash : ∀ p, join cwd path = some p → p.head? = some slash) :
    pathAbs cwd path outsz = none := by
  unfold PathAbs.pathAbs
  split_ifs with h0
  · rfl
  obtain ⟨hpath, hsz⟩ := not_or.1 h0
  cases hj : join cwd path with
  | none => rfl
  | some p =>
    have hstop := (h.resolve_left hpath).resolve_left hsz p hj
    obtain ⟨rest, hrest⟩ := @takeWhile_isPrefix [] p.tail
    rw [show (p.tail.splitOn slash).modifyHead ([] ++ ·) = p.tail.splitOn slash from
      congrFun List.modifyHead_id _] at hrest
    have hscan : ((components [] p.tail) ++ [[]]).foldlM push [] = none := by
      rw [← hrest, List.foldlM_append, hstop]
      rfl
    have hnone : (components [] p.tail).foldlM push [] = none := by
      rw [List.foldlM_append] at hscan
      cases hfold : (components [] p.tail).foldlM push [] with
      | none => rfl
      | some comps =>
        rw [hfold] at hscan
        simp [push_nil] at hscan
    simp [hslash p hj, hnone]

theorem emit_eq : emit outsz cs p =
    if cs ≠ [] ∧ outsz ≤ (p ++ cs.flatMap (slash :: ·)).length then none
    else some (p ++ cs.flatMap (slash :: ·)) := by
  induction cs generalizing p with
  | nil => simp [emit]
  | cons c cs ih =>
    unfold emit
    rw [List.flatMap_cons, ← List.append_assoc, ih]
    by_cases hcs : cs = []
    · subst hcs
      simp only [ne_eq, List.flatMap_nil,
        List.append_nil, List.length_append, List.length_cons, reduceCtorEq, not_false_eq_true,
        true_and]
      exact if_congr (by omega) rfl rfl
    simp only [ne_eq, hcs, not_false_eq_true, true_and, reduceCtorEq]
    split_ifs with h1 h2
    · rfl
    · simp only [List.length_append, List.length_cons] at h1 h2
      omega
    · rfl
    · rfl

theorem splitOn_flatMap (h : ∀ c ∈ cs, slash ∉ c) :
    (p ++ cs.flatMap (slash :: ·)).splitOn slash = p.splitOn slash ++ cs := by
  induction cs generalizing p with
  | nil => simp
  | cons c cs ih =>
    have hc : c.splitOn slash = [c] := by
      have hone : ∀ l ∈ [c], slash ∉ l := by simpa using h c List.mem_cons_self
      simpa using List.splitOn_intercalate slash hone (by simp)
    rw [List.flatMap_cons, List.cons_append, splitOn_append,
      ih fun d hd => h d (List.mem_cons_of_mem _ hd), hc]
    rfl

theorem sum_splitOn (p : List Byte) :
    ((p.splitOn slash).map (·.length + 1)).sum = p.length + 1 := by
  induction p with
  | nil => simp
  | cons c p ih =>
    by_cases hc : c = slash
    · subst hc
      rw [splitOn_slash]
      simp [ih]
      omega
    obtain ⟨d, ds, hd⟩ := List.exists_cons_of_ne_nil (List.splitOnP_ne_nil (· == slash) p)
    rw [splitOn_cons hc]
    unfold List.splitOn at ih ⊢
    rw [hd] at ih ⊢
    simp only [List.modifyHead_cons, List.map_cons, List.sum_cons, List.length_cons] at ih ⊢
    omega

/-! ## The current directory -/

/-- What `sys_chdir` keeps of the current directory. -/
structure Directory (cwd : List Byte) : Prop where
  head : cwd.head? = some slash
  short : Short cwd

/-- The join of the code has the parts of the one of the normal form. -/
theorem join_spec (h : Directory cwd) (hj : join cwd path = some p) :
    p.head? = some slash ∧ p.length < xosPathMax ∧ (Short path → Short p) ∧
      parts p = parts (if path.head? = some slash then path else cwd ++ slash :: path) := by
  unfold join at hj
  split_ifs at hj with h1 h2 h3 h4 <;> cases hj
  · rw [if_pos h1]
    exact ⟨h1, by omega, id, rfl⟩
  · rw [if_neg h1]
    obtain ⟨c, rfl⟩ := List.getLast?_eq_some_iff.mp h4
    refine ⟨?_, by simp only [List.length_append] at *; omega, fun hs => ?_, ?_⟩
    · cases c with
      | nil => rfl
      | cons => simpa using h.head
    · rw [List.append_assoc]
      exact (short_append c path).mpr ⟨((short_append c []).mp h.short).1, hs⟩
    · -- the directory ends in a slash: the part after it is empty
      rw [parts_append (c ++ [slash]), parts_append c [], List.append_assoc]
      exact parts_append c path
  · rw [if_neg h1]
    refine ⟨?_, by simp only [List.length_append, List.length_cons] at *; omega, fun hs => ?_, rfl⟩
    · rw [List.head?_append, h.head]
      rfl
    · exact (short_append cwd path).mpr ⟨h.short, hs⟩

/-- **What a success means**: the result is written from components that fit. -/
theorem pathAbs_cases (h : Directory cwd) (ho : pathAbs cwd path outsz = some out) :
    ∃ q, join cwd path = some (slash :: q) ∧ ∃ cs, (components [] q).foldlM push [] = some cs ∧
      out = render cs ∧ out.length < outsz := by
  unfold pathAbs at ho
  split_ifs at ho with h0
  obtain ⟨p, hj, ho⟩ := Option.bind_eq_some_iff.mp ho
  obtain ⟨q, rfl⟩ : ∃ q, p = slash :: q := List.head?_eq_some_iff.mp (join_spec h hj).1
  obtain ⟨cs, hcs, ho⟩ := Option.bind_eq_some_iff.mp ho
  refine ⟨q, hj, cs, by simpa using hcs, ?_⟩
  unfold render
  split_ifs at ho ⊢ with he
  · cases ho
    exact ⟨rfl, by simp only [List.length_singleton]; omega⟩
  rw [emit_eq] at ho
  split_ifs at ho with hl
  cases ho
  exact ⟨rfl, not_le.mp fun hc => hl ⟨he, hc⟩⟩

/-- What the code writes is a current directory for `sys_chdir`. -/
theorem directory_render (hp : ∀ c ∈ cs, Proper c) : Directory (render cs) := by
  unfold render
  split_ifs with he
  · exact ⟨rfl, by unfold Short; decide⟩
  refine ⟨?_, fun c hc => ?_⟩
  · obtain ⟨c, cs, rfl⟩ := List.exists_cons_of_ne_nil he
    rfl
  · have hsplit := splitOn_flatMap (p := []) fun c hc => (hp c hc).no_slash
    rw [List.nil_append] at hsplit
    rw [hsplit] at hc
    rcases List.mem_cons.mp hc with rfl | hc
    · decide
    · exact (hp c hc).short

theorem Directory.pathAbs (h : Directory cwd) (ho : pathAbs cwd path outsz = some out) :
    Directory out := by
  obtain ⟨q, -, cs, hcs, rfl, -⟩ := pathAbs_cases h ho
  exact directory_render
    (scan_spec hcs (fun c hc => components_fit (by simp) (by decide) hc) (by simp) (by simp)).2.1

theorem Directory.sysChdir (h : Directory cwd) (x : Fs) (path : List Byte) :
    Directory (sysChdir x cwd path).2 := by
  unfold PathAbs.sysChdir
  split
  · exact h
  next abs ho =>
  split
  · split
    · exact h
    · exact h.pathAbs ho
  · exact h

/-- **A normal form is kept.** -/
theorem pathAbs_render (hp : ∀ c ∈ cs, Proper c) (hn : cs.length ≤ 32)
    (hl : (render cs).length < outsz) (hmax : (render cs).length < xosPathMax) (h2 : 2 ≤ outsz) :
    pathAbs cwd (render cs) outsz = some (render cs) := by
  have hd := directory_render hp
  obtain ⟨q, hq⟩ : ∃ q, render cs = slash :: q := List.head?_eq_some_iff.mp hd.head
  have hjoin : join cwd (render cs) = some (render cs) := by
    unfold join
    rw [if_pos hd.head, if_neg (by omega)]
  unfold pathAbs
  rw [if_neg (by rw [hq]; simp; omega), hjoin]
  simp only [Option.bind_some, hd.head, if_true]
  by_cases he : cs = []
  · subst he
    rfl
  have hcs : (components [] (render cs).tail).foldlM push [] = some cs := by
    have hsplit : q.splitOn slash = cs := by
      have hsplit := splitOn_flatMap (p := []) fun c hc => (hp c hc).no_slash
      unfold render at hq
      rw [if_neg he] at hq
      rw [List.nil_append, hq] at hsplit
      exact List.tail_eq_of_cons_eq hsplit
    have hshort : Short q := fun c hc => (hp c (hsplit ▸ hc)).short
    have hscan : (q.splitOn slash).foldlM push [] = some cs := by
      rw [hsplit]
      exact scan_proper hp (by simpa using hn)
    rw [hq]
    rcases hshort.components with hc | hc
    · rwa [hc] at hscan
    rw [hc, List.foldlM_append] at hscan
    obtain ⟨ds, hds, hlast⟩ := Option.bind_eq_some_iff.mp hscan
    cases hlast
    exact hds
  rw [hcs, Option.bind_some, if_neg he]
  unfold render at hl ⊢
  rw [if_neg he] at hl ⊢
  rw [emit_eq, if_neg fun hc => absurd hc.2 (not_le.mpr hl)]
  rfl

/-! ## The result -/

/-- **Paths are normalised.**  In every current directory that calls of `sys_chdir` lead to: for a
path whose components fit their buffer, or that is refused before the scan comes to one that does
not, what `path_abs` returns is the normal form, which starts with a slash, fits the buffer of the
caller and is its own normal form; and a normal form that does not fit is rejected. -/
theorem pathAbs_normalises {calls : List (Fs × List Byte)}
    (hcwd : Run Step (fun _ _ => True) [slash] calls cwd)
    (hs : Short path ∨ Refused cwd path outsz) :
    (∀ out, pathAbs cwd path outsz = some out → out = normalise cwd path ∧
      out.head? = some slash ∧ out.length < outsz ∧ pathAbs cwd out outsz = some out) ∧
    (outsz ≤ (normalise cwd path).length → pathAbs cwd path outsz = none) := by
  have hdir : Directory cwd := by
    refine hcwd.invariant (I := Directory) ⟨rfl, by unfold Short; decide⟩ ?_
    rintro s call s' h - rfl
    exact h.sysChdir call.1 call.2
  rcases hs with hs | hs
  swap
  · rw [hs.pathAbs fun p hj => (join_spec hdir hj).1]
    exact ⟨nofun, fun _ => rfl⟩
  have hmain : ∀ out, pathAbs cwd path outsz = some out → out = normalise cwd path ∧
      out.head? = some slash ∧ out.length < outsz ∧ pathAbs cwd out outsz = some out := by
    intro out ho
    have hout := hdir.pathAbs ho
    obtain ⟨q, hj, cs, hcs, rfl, hlen⟩ := pathAbs_cases hdir ho
    obtain ⟨-, hmax, hshort, hparts⟩ := join_spec hdir hj
    have hq : Short q := ((short_append [] q).mp (hshort hs)).2
    obtain ⟨hfold, hp, hn, hsum⟩ := scan_spec hcs
      (fun c hc => components_fit (by simp) (by decide) hc) (by simp) (by simp)
    have hsplit : (q.splitOn slash).foldl follow [] = cs ∧
        ((components [] q).map (·.length + 1)).sum ≤ q.length + 1 := by
      rw [← sum_splitOn q, hfold]
      rcases hq.components with hc | hc <;> rw [hc]
      · exact ⟨rfl, le_refl _⟩
      · rw [List.foldl_append, List.map_append, List.sum_append]
        exact ⟨rfl, Nat.le_add_right _ _⟩
    have hlong : (render cs).length < xosPathMax := by
      unfold render
      split_ifs
      · decide
      rw [List.length_flatMap]
      simp only [List.length_cons, List.map_nil, List.sum_nil] at hsum hmax ⊢
      omega
    refine ⟨?_, hout.head, hlen, pathAbs_render hp hn hlen hlong ?_⟩
    · unfold normalise
      rw [← hparts]
      exact congrArg render hsplit.1.symm
    · by_contra h2
      unfold pathAbs at ho
      rw [if_pos (.inr (by omega))] at ho
      cases ho
  refine ⟨hmain, fun hlen => ?_⟩
  cases ho : pathAbs cwd path outsz with
  | none => rfl
  | some out =>
    obtain ⟨rfl, -, hlt, -⟩ := hmain out ho
    omega

/-- In the root, `/a/./b//../c` is `/a/c`, and a name of 300 bytes is rejected. -/
theorem dots_resolved : pathAbs [slash] [slash, 0x61#8, slash, dot, slash, 0x62#8, slash, slash, dot,
    dot, slash, 0x63#8] xosPathMax = some [slash, 0x61#8, slash, 0x63#8] ∧
    normalise [slash] [slash, 0x61#8, slash, dot, slash, 0x62#8, slash, slash, dot, dot, slash,
      0x63#8] = [slash, 0x61#8, slash, 0x63#8] ∧
    pathAbs [slash] (slash :: List.replicate 300 0x61#8) xosPathMax = none := by
  have hval : pathAbs [slash] [slash, 0x61#8, slash, dot, slash, 0x62#8, slash, slash, dot, dot,
      slash, 0x63#8] xosPathMax = some [slash, 0x61#8, slash, 0x63#8] := by decide +kernel
  have hlong : join [slash] (slash :: List.replicate 300 0x61#8) = none := by decide +kernel
  exact ⟨hval, ((pathAbs_normalises .nil (.inl (by unfold Short; decide +kernel))).1 _ hval).1.symm,
    (pathAbs_normalises .nil (.inr (.inr (.inr fun _ hj => by cases hlong.symm.trans hj)))).2
      (by decide +kernel)⟩

/-- **A long component is split.**  The 64th byte of a component becomes a component of its own:
`path_abs` succeeds with the path of another file. -/
theorem long_component_split : pathAbs [slash] (slash :: List.replicate 64 0x61#8) xosPathMax =
        some (slash :: List.replicate 63 0x61#8 ++ [slash, 0x61#8]) ∧
      normalise [slash] (slash :: List.replicate 64 0x61#8) = slash :: List.replicate 64 0x61#8 := by
  decide +kernel

end Xos.PathAbs
