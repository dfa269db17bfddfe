import Xos.Lib.Bytes

/-!
# Reading an ELF file

`elf_validate` and `elf_load` of `kernel/elf/elf.c` as readers of the file: which bytes they look
at, and how many pages they take.  Offsets are 64-bit words, like the pointers of the code, so an
offset below zero is one near the top.  Of the memory only the number of free frames counts here;
`tables` is how many of them `vmm_map_page` takes for the tables.

* **`elfLoad_returns`** — a load comes back after at most as many pages as there are free frames;
* **`elfLoad_confined_iff`** — it only reads the file exactly if the end of the program headers does
  not wrap, or the file is refused all the same;
* **`headers_before_file`** — if it does wrap, the load reads in front of the file.
-/

namespace Xos.ElfFile

open Xos.Lib

/-- The bytes from the offset on, and how many of them. -/
abbrev Read := ℕ × ℕ

/-- A field of `n` bytes; the address wraps. -/
def field (data : Bytes) (o n : ℕ) : ℕ := readLE (fun k => data (k % 2 ^ 64)) o n

/-! ## The headers -/

/-- The fields of `elf64_ehdr_t` that locate the program headers. -/
def phoff (data : Bytes) : ℕ := field data 32 8
def phentsize (data : Bytes) : ℕ := field data 54 2
def phnum (data : Bytes) : ℕ := field data 56 2

/-- The checks of `elf_validate` before that of the program headers. -/
def identOk (data : Bytes) (len : ℕ) : Bool :=
  64 ≤ len &&
    (data 0 == 0x7f && data 1 == 0x45 && data 2 == 0x4c && data 3 == 0x46) &&
    data 4 == 2 && data 5 == 1 && data 6 == 1 &&
    field data 16 2 == 2 && field data 18 2 == 62 && 56 ≤ phentsize data

/-- The end of the program headers, before it is cut to 64 bits. -/
def phdrsEnd (data : Bytes) : ℕ := phoff data + phnum data * phentsize data

/-- `elf_validate`. -/
def elfValidate (data : Bytes) (len : ℕ) : Bool :=
  identOk data len && phdrsEnd data % 2 ^ 64 ≤ len

/-- A program header of type `PT_LOAD`. -/
structure Phdr where
  offset : ℕ
  vaddr : ℕ
  filesz : ℕ
  memsz : ℕ

def phdrAt (data : Bytes) (o : ℕ) : Phdr where
  offset := field data (o + 8) 8
  vaddr := field data (o + 16) 8
  filesz := field data (o + 32) 8
  memsz := field data (o + 40) 8

namespace Phdr

variable (ph : Phdr)

/-- `offset + filesz`. -/
def fileEnd : ℕ := (ph.offset + ph.filesz) % 2 ^ 64

/-- The `memcpy` for the page at `va`. -/
def copy (va : ℕ) : List Read :=
  let src := (ph.offset + va + (2 ^ 64 - ph.vaddr)) % 2 ^ 64
  if src < ph.fileEnd then
    [(src, if ph.fileEnd < (src + 4096) % 2 ^ 64 then ph.fileEnd - src else 4096)]
  else []

end Phdr

/-! ## The loops -/

/-- What a load has done so far. -/
structure Load where
  /-- The free frames. -/
  free : ℕ
  /-- How often `pmm_alloc_frame` gave a page. -/
  pages : ℕ
  reads : List Read
  deriving DecidableEq

/-- The loop over the pages of a segment, from `va` on; `none` if `fuel` rounds are not enough. -/
def loadPages (tables : ℕ → ℕ) (ph : Phdr) : ℕ → ℕ → Load → Option (Bool × Load)
  | 0, _, _ => none
  | fuel + 1, va, l =>
    if va < (ph.vaddr + ph.memsz) % 2 ^ 64 then
      if l.free = 0 then some (false, l)
      else loadPages tables ph fuel ((va + 4096) % 2 ^ 64)
        ⟨l.free - 1 - tables va, l.pages + 1, l.reads ++ ph.copy va⟩
    else some (true, l)

/-- The loop over the program headers. -/
def loadPhdrs (tables : ℕ → ℕ) (data : Bytes) (len fuel : ℕ) :
    List ℕ → Load → Option (Bool × Load)
  | [], l => some (true, l)
  | i :: is, l =>
    let o := (phoff data + i * phentsize data) % 2 ^ 64
    let l := { l with reads := l.reads ++ [(o, 4)] }
    if field data o 4 ≠ 1 then loadPhdrs tables data len fuel is l
    else
      let ph := phdrAt data o
      let l := { l with reads := l.reads ++ [(o + 8, 16), (o + 32, 16)] }
      if len < ph.fileEnd then some (false, l)
      else
        let l := { l with reads := l.reads ++ [(o + 4, 4)] }
        match loadPages tables ph fuel (ph.vaddr / 4096 * 4096) l with
        | some (true, l) => loadPhdrs tables data len fuel is l
        | r => r

/-- `elf_load`, with `free` free frames. -/
def elfLoad (tables : ℕ → ℕ) (data : Bytes) (len free fuel : ℕ) : Option (Bool × Load) :=
  let l : Load := ⟨free, 0, if 64 ≤ len then [(0, 64)] else []⟩
  if elfValidate data len then loadPhdrs tables data len fuel (List.range (phnum data)) l
  else some (false, l)

/-! ## What they read -/

variable {tables : ℕ → ℕ} {data : Bytes} {len free fuel va : ℕ} {ph : Phdr} {l : Load} {r : Read}
  {P : Read → Prop}

/-- The bytes are in the file. -/
def Read.Inside (len : ℕ) (r : Read) : Prop := r.1 + r.2 ≤ len

/-- The copy ends where the bytes of the segment do, wrapped or not. -/
theorem Phdr.copy_inside (hlen : len + 4096 ≤ 2 ^ 64) (hend : ph.fileEnd ≤ len)
    (hr : r ∈ ph.copy va) : Read.Inside len r := by
  unfold Phdr.copy at hr
  dsimp only at hr
  split_ifs at hr with h1 h2
  · rw [List.mem_singleton.mp hr]
    show _ + (_ - _) ≤ len
    omega
  · rw [List.mem_singleton.mp hr]
    show _ + 4096 ≤ len
    omega
  · cases hr

/-- What a loop promises: it comes back, took no more pages than there were frames, and read only
what `P` admits. -/
def Returns (P : Read → Prop) (l : Load) (o : Option (Bool × Load)) : Prop :=
  ∃ ok l', o = some (ok, l') ∧ l'.free + l'.pages ≤ l.free + l.pages ∧
    ((∀ r ∈ l.reads, P r) → ∀ r ∈ l'.reads, P r)

theorem Returns.refl (ok : Bool) : Returns P l (some (ok, l)) := ⟨ok, l, rfl, le_refl _, id⟩

/-- More reads before a loop. -/
theorem Returns.after (rs : List Read) (hrs : ∀ r ∈ rs, P r)
    (h : Returns P { l with reads := l.reads ++ rs } o) : Returns P l o := by
  obtain ⟨ok, l', ho, hle, hP⟩ := h
  refine ⟨ok, l', ho, hle, fun hl => hP fun r hr => ?_⟩
  rcases List.mem_append.mp hr with hr | hr
  · exact hl r hr
  · exact hrs r hr

/-- **The loop over the pages.**  Every round takes a frame. -/
theorem loadPages_returns (hP : ∀ va, ∀ r ∈ ph.copy va, P r) (hfuel : l.free < fuel) :
    Returns P l (loadPages tables ph fuel va l) := by
  induction fuel generalizing va l with
  | zero => omega
  | succ fuel ih =>
    unfold loadPages
    split_ifs with h1 h2
    · exact .refl false
    · have hless : l.free - 1 - tables va < fuel := by omega
      obtain ⟨ok, l', ho, hle, hl'⟩ := ih
        (l := ⟨l.free - 1 - tables va, l.pages + 1, l.reads ++ ph.copy va⟩) hless
      refine Returns.after (ph.copy va) (hP va) ⟨ok, l', ho, hle.trans ?_, hl'⟩
      show l.free - 1 - tables va + (l.pages + 1) ≤ l.free + l.pages
      omega
    · exact .refl true

/-- **The loop over the headers.** -/
theorem loadPhdrs_returns (hhead : ∀ i ∈ is, ∀ k n, k + n ≤ 56 →
      P ((phoff data + i * phentsize data) % 2 ^ 64 + k, n))
    (hcopy : ∀ ph : Phdr, ph.fileEnd ≤ len → ∀ va, ∀ r ∈ ph.copy va, P r)
    (hfuel : l.free + l.pages < fuel) : Returns P l (loadPhdrs tables data len fuel is l) := by
  induction is generalizing l with
  | nil => exact .refl true
  | cons i is ih =>
    have hi := hhead i List.mem_cons_self
    have his := fun j hj => hhead j (List.mem_cons_of_mem _ hj)
    unfold loadPhdrs
    dsimp only
    generalize (phoff data + i * phentsize data) % 2 ^ 64 = o at hi ⊢
    have hfields : ∀ r ∈ [(o + 8, 16), (o + 32, 16)], P r := by
      intro r hr
      simp only [List.mem_cons, List.not_mem_nil, or_false] at hr
      rcases hr with rfl | rfl
      · exact hi 8 16 (by omega)
      · exact hi 32 16 (by omega)
    refine Returns.after [(o, 4)] (by simpa using hi 0 4 (by omega)) ?_
    split_ifs with htype hend
    · exact ih his hfuel
    · exact .after _ hfields (.refl false)
    refine .after _ hfields <| .after [(o + 4, 4)] (by simpa using hi 4 4 (by omega)) ?_
    have hpages : ∀ l : Load, l.free < fuel → Returns P l
        (loadPages tables (phdrAt data o) fuel ((phdrAt data o).vaddr / 4096 * 4096) l) :=
      fun l => loadPages_returns (hcopy _ (not_lt.mp hend))
    obtain ⟨ok, l', ho, hle, hP⟩ := hpages { l with
      reads := l.reads ++ [(o, 4)] ++ [(o + 8, 16), (o + 32, 16)] ++ [(o + 4, 4)] }
      (by show l.free < fuel; omega)
    rw [ho]
    cases ok with
    | false => exact ⟨false, l', rfl, hle, hP⟩
    | true =>
      have hless : l'.free + l'.pages ≤ l.free + l.pages := hle
      obtain ⟨ok, l'', ho', hle', hP'⟩ := ih his (l := l') (by omega)
      exact ⟨ok, l'', ho', hle'.trans hle, fun hl => hP' (hP hl)⟩

/-! ## The result -/

/-- The reads of `elf_validate` are in the file. -/
theorem validate_inside (len : ℕ) :
    ∀ r ∈ (if 64 ≤ len then [((0 : ℕ), (64 : ℕ))] else []), Read.Inside len r := by
  intro r hr
  split_ifs at hr with h
  · rw [List.mem_singleton.mp hr]
    exact h
  · cases hr

theorem elfValidate_iff :
    elfValidate data len = true ↔ identOk data len = true ∧ phdrsEnd data % 2 ^ 64 ≤ len := by
  rw [elfValidate, Bool.and_eq_true, decide_eq_true_eq]

/-- **A load ends.**  It comes back after no more rounds in a row than there are free frames and
takes no more pages than that.  If the end of the program headers does not wrap, or the file is
refused, every byte it reads is in the file. -/
theorem elfLoad_returns (hfuel : free < fuel) (hlen : len < 2 ^ 63) :
    ∃ ok l, elfLoad tables data len free fuel = some (ok, l) ∧ l.pages ≤ free ∧
      ((elfValidate data len = true → phdrsEnd data < 2 ^ 64) → ∀ r ∈ l.reads,
        Read.Inside len r) := by
  unfold elfLoad
  have hfirst := validate_inside len
  generalize (if 64 ≤ len then [((0 : ℕ), (64 : ℕ))] else []) = first at hfirst ⊢
  by_cases hv : elfValidate data len = true
  · rw [if_pos hv]
    have hret : Returns (fun r => phdrsEnd data < 2 ^ 64 → Read.Inside len r) ⟨free, 0, first⟩
        (loadPhdrs tables data len fuel (List.range (phnum data)) ⟨free, 0, first⟩) := by
      refine loadPhdrs_returns (fun i hi k n hk hwrap => ?_)
        (fun ph hend va r hr _ => ph.copy_inside (by omega) hend hr) hfuel
      obtain ⟨hid, htab⟩ := elfValidate_iff.1 hv
      have hent : 56 ≤ phentsize data := by
        rw [identOk, Bool.and_eq_true, decide_eq_true_eq] at hid
        exact hid.2
      unfold phdrsEnd at htab hwrap
      have hi' : (i + 1) * phentsize data ≤ phnum data * phentsize data :=
        Nat.mul_le_mul_right _ (List.mem_range.mp hi)
      rw [Nat.add_mul] at hi'
      show _ % 2 ^ 64 + k + n ≤ len
      omega
    obtain ⟨ok, l, ho, hle, hP⟩ := hret
    refine ⟨ok, l, ho, le_trans (Nat.le_add_left _ _) hle, fun hwrap r hr => ?_⟩
    exact hP (fun r hr _ => hfirst r hr) r hr (hwrap hv)
  · rw [if_neg hv]
    exact ⟨false, _, rfl, Nat.zero_le _, fun _ => hfirst⟩

/-- What a load has read stays read. -/
theorem loadPages_reads {ok : Bool} {l' : Load}
    (h : loadPages tables ph fuel va l = some (ok, l')) (hr : r ∈ l.reads) : r ∈ l'.reads := by
  induction fuel generalizing va l with
  | zero => cases h
  | succ fuel ih =>
    unfold loadPages at h
    split_ifs at h
    · cases h
      exact hr
    · exact ih h (List.mem_append_left _ hr)
    · cases h
      exact hr

theorem loadPhdrs_reads {ok : Bool} {l' : Load}
    (h : loadPhdrs tables data len fuel is l = some (ok, l')) (hr : r ∈ l.reads) :
    r ∈ l'.reads := by
  induction is generalizing l with
  | nil =>
    cases h
    exact hr
  | cons i is ih =>
    unfold loadPhdrs at h
    dsimp only at h
    split_ifs at h
    · exact ih h (List.mem_append_left _ hr)
    · cases h
      simp [hr]
    · split at h
      · next hpages => exact ih h (loadPages_reads hpages (by simp [hr]))
      · exact loadPages_reads h (by simp [hr])

/-- The type of the first program header is read. -/
theorem loadPhdrs_first {ok : Bool} {l' : Load} {k : ℕ} (hk : 0 < k)
    (h : loadPhdrs tables data len fuel (List.range k) l = some (ok, l')) :
    (phoff data % 2 ^ 64, 4) ∈ l'.reads := by
  obtain ⟨k, rfl⟩ := Nat.exists_eq_succ_of_ne_zero hk.ne'
  rw [List.range_succ_eq_map, loadPhdrs] at h
  simp only [Nat.zero_mul, Nat.add_zero] at h
  split_ifs at h
  · exact loadPhdrs_reads h (by simp)
  · cases h
    simp
  · split at h
    · next hpages => exact loadPhdrs_reads h (loadPages_reads hpages (by simp))
    · exact loadPages_reads h (by simp)

theorem field_lt (o n : ℕ) : field data o n < 256 ^ n := readLE_lt

/-- **A load stays inside the file and ends** exactly if one of the checks before that of the
program headers fails, or the end of the program headers does not wrap, or it wraps to a place
behind the end of the file. -/
theorem elfLoad_confined_iff (hfuel : free < fuel) (hlen : len < 2 ^ 63) :
    (∃ ok l, elfLoad tables data len free fuel = some (ok, l) ∧ l.pages ≤ free ∧
      ∀ r ∈ l.reads, Read.Inside len r) ↔
    identOk data len = false ∨ phdrsEnd data < 2 ^ 64 ∨ len < phdrsEnd data % 2 ^ 64 := by
  obtain ⟨ok, l, ho, hle, hin⟩ := @elfLoad_returns tables data len free fuel hfuel hlen
  constructor
  · rintro ⟨ok', l', ho', -, hread⟩
    by_contra hno
    simp only [not_or, Bool.not_eq_false, not_lt] at hno
    obtain ⟨hid, hwrap, hend⟩ := hno
    have hv : elfValidate data len = true := elfValidate_iff.2 ⟨hid, hend⟩
    -- the headers have less than 2 ^ 32 bytes, so they begin near the top
    have hoff : phoff data < 2 ^ 64 := field_lt 32 8
    have hnum : phnum data < 2 ^ 16 := field_lt 56 2
    have hsize : phentsize data < 2 ^ 16 := field_lt 54 2
    have hbytes : phnum data * phentsize data ≤ 2 ^ 16 * 2 ^ 16 :=
      Nat.mul_le_mul hnum.le hsize.le
    unfold phdrsEnd at hwrap
    have hpos : 0 < phnum data := by
      refine Nat.pos_of_ne_zero fun h0 => ?_
      rw [h0, Nat.zero_mul] at hwrap
      omega
    simp only [elfLoad, hv, if_true] at ho'
    have hfirst : Read.Inside len (phoff data % 2 ^ 64, 4) :=
      hread _ (loadPhdrs_first hpos ho')
    unfold Read.Inside at hfirst
    omega
  · intro hcond
    refine ⟨ok, l, ho, hle, hin fun hv => ?_⟩
    rw [elfValidate_iff] at hv
    rcases hcond with hid | hwrap | hend
    · cases hid.symm.trans hv.1
    · exact hwrap
    · exact absurd hv.2 (not_le.2 hend)

/-- An ELF header with one program header at `phoff`, and behind it a program header that loads the
first 4 bytes of the file to `0x400000`. -/
def smallFile (phoff : ℕ) : Bytes :=
  [(0, 7, 0x010102464c457f), (16, 2, 2), (18, 2, 62), (32, 8, phoff), (54, 2, 56), (56, 2, 1),
    (64, 4, 1), (80, 8, 0x400000), (96, 8, 4), (104, 8, 4096)].foldl
      (fun (a : Bytes) w => writeLE a w.1 w.2.1 w.2.2) fun _ => 0#8

/-- The file is loaded with one page; a file that does not begin with the magic bytes is not looked
at any further, wherever it says that its program headers are. -/
theorem smallFile_loaded : elfLoad (fun _ => 3) (smallFile 64) 120 10 11 =
        some (true, ⟨6, 1, [(0, 64), (64, 4), (72, 16), (96, 16), (68, 4), (0, 4)]⟩) ∧
      (∀ r ∈ [((0 : ℕ), (64 : ℕ)), (64, 4), (72, 16), (96, 16), (68, 4), (0, 4)],
        Read.Inside 120 r) ∧
      ∃ ok l, elfLoad (fun _ => 3) (Function.update (smallFile (2 ^ 64 - 56)) 0 0) 120 10 11 =
        some (ok, l) ∧ l.pages ≤ 10 ∧ ∀ r ∈ l.reads, Read.Inside 120 r := by
  have hval : elfLoad (fun _ => 3) (smallFile 64) 120 10 11 =
      some (true, ⟨6, 1, [(0, 64), (64, 4), (72, 16), (96, 16), (68, 4), (0, 4)]⟩) := by
    decide +kernel
  obtain ⟨ok, l, ho, -, hin⟩ := (@elfLoad_confined_iff (fun _ => 3) (smallFile 64) 120 10 11
    (by decide) (by decide)).2 (.inr (.inl (by decide +kernel)))
  rw [hval] at ho
  cases ho
  exact ⟨hval, hin, (elfLoad_confined_iff (by decide) (by decide)).2 (.inl (by decide +kernel))⟩

/-- **Headers in front of the file.**  With `phoff` 56 below 2^64 the end of the one program header
wraps to zero and the check passes; the loop reads the header's type 56 bytes in front of the
file. -/
theorem headers_before_file : elfValidate (smallFile (2 ^ 64 - 56)) 120 = true ∧
      elfLoad (fun _ => 3) (smallFile (2 ^ 64 - 56)) 120 10 11 =
        some (true, ⟨10, 0, [(0, 64), (2 ^ 64 - 56, 4)]⟩) ∧
      ¬ Read.Inside 120 (2 ^ 64 - 56, 4) := by
  unfold Read.Inside
  decide

end Xos.ElfFile
