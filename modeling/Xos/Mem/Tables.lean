import Xos.Lib.Radix
import Xos.Mem.Frames

/-!
# The virtual memory manager

`kernel/memory/vmm.c`: four levels of page tables in physical frames.  Physical memory is an
array of frames of 512 words, and the tables are read from and written to it like any other
word, so nothing here says that a frame that is a table is not also somebody's data.

* **entries** — `vmmP`, `vmmRW`, … are the bits of a word, `frameOf` the frame it names;
* **one page** — `mapPage`, `unmapPage`, `virtToPhys` and `pteLookup`;
* **whole spaces** — `createPml4`, `destroyUser` and `cloneUser`.

`vmm_destroy_user` and `vmm_clone_user` are four nested loops each.  Here a loop over a table
is a fold over its indices and the nesting is the recursion on the level: 3 for the PML4 and 0
for a page table.
-/

namespace Xos.Mem

open Xos.Lib.Radix (store node)

/-! ## Entries -/

abbrev Word := BitVec 64

def vmmP : Word := 0x1#64
def vmmRW : Word := 0x2#64
def vmmU : Word := 0x4#64
def vmmWT : Word := 0x8#64
def vmmCD : Word := 0x10#64
def vmmPS : Word := 0x80#64
def vmmCOW : Word := 0x200#64
def vmmSHARED : Word := 0x400#64
def vmmNX : Word := 0x8000000000000000#64

/-- `VMM_PHYS_MASK`. -/
def physMask : Word := 0x000FFFFFFFFFF000#64

/-- `e & b` as a condition. -/
def has (e b : Word) : Bool := (e &&& b) != 0#64

/-- The frame an entry names: `e & VMM_PHYS_MASK`, as a frame number. -/
def frameOf (e : Word) : ℕ := ((e &&& physMask) >>> 12).toNat

/-- `(phys & VMM_PHYS_MASK) | flags` for the frame `f`. -/
def mkEntry (f : ℕ) (flags : Word) : Word := (BitVec.ofNat 64 (f * 4096) &&& physMask) ||| flags

/-- The next table, if the entry is present. -/
def follow (e : Word) : Option ℕ := if has e vmmP then some (frameOf e) else none

/-- The bits of an entry that a clone keeps. -/
def cloneMask : Word :=
  vmmRW ||| vmmU ||| vmmWT ||| vmmCD ||| vmmNX ||| vmmCOW ||| vmmSHARED

/-- A private writable page, made copy-on-write. -/
def armCow (e : Word) : Word :=
  if !has e vmmSHARED && has e vmmRW then (e &&& ~~~vmmRW) ||| vmmCOW else e

/-! ## Physical memory -/

/-- Physical memory with its manager. -/
structure Ram where
  pmm : Pmm
  mem : ℕ → ℕ → Word
  /-- The kernel's own PML4. -/
  kernel : ℕ

namespace Ram

variable (s : Ram)

@[simps pmm kernel]
def setWord (f i : ℕ) (w : Word) : Ram := { s with mem := store s.mem f i w }

/-- Overwrite a whole frame. -/
@[simps pmm kernel]
def fill (f : ℕ) (c : ℕ → Word) : Ram := { s with mem := Function.update s.mem f c }

def alloc : ℕ × Ram := (s.pmm.allocFrame.1, { s with pmm := s.pmm.allocFrame.2 })

@[simps -fullyApplied]
def ref (f : ℕ) : Ram := { s with pmm := s.pmm.refFrame f }

@[simps -fullyApplied]
def unref (f : ℕ) : Ram := { s with pmm := s.pmm.unrefFrame f }

/-! ## One page -/

/-- `vmm_create_pml4`: 0 if there is no memory. -/
def createPml4 : ℕ × Ram :=
  match s.alloc with
  | (0, s) => (0, s)
  | (f, s) => (f, s.fill f fun i => if 256 ≤ i then s.mem s.kernel i else 0#64)

/-- One level of `vmm_map_page`: the table behind entry `i`, made if it is missing. -/
def ensure (f i : ℕ) : Option ℕ × Ram :=
  if has (s.mem f i) vmmP then (some (frameOf (s.mem f i)), s)
  else match s.alloc with
    | (0, s) => (none, s)
    | (g, s) =>
      let e := mkEntry g (vmmP ||| vmmRW ||| vmmU)
      (some (frameOf e), (s.fill g fun _ => 0#64).setWord f i e)

/-- The levels of `vmm_map_page` above the page table. -/
def ensurePath : Ram → ℕ → List ℕ → Option ℕ × Ram
  | s, f, [] => (some f, s)
  | s, f, i :: p =>
    match s.ensure f i with
    | (none, s) => (none, s)
    | (some g, s) => ensurePath s g p

end Ram

/-- `PT_IDX`, `PD_IDX`, `PDPT_IDX` and `PML4_IDX`, by level. -/
def idx (level va : ℕ) : ℕ := va / 2 ^ (12 + 9 * level) % 512

/-- The indices that lead to the page table of an address. -/
def upper (va : ℕ) : List ℕ := [idx 3 va, idx 2 va, idx 1 va]

namespace Ram

variable (s : Ram)

/-- `vmm_map_page` of the frame `f`. -/
def mapPage (root va f : ℕ) (flags : Word) : Bool × Ram :=
  match s.ensurePath root (upper va) with
  | (none, s) => (false, s)
  | (some pt, s) => (true, s.setWord pt (idx 0 va) (mkEntry f (flags ||| vmmP)))

/-- `vmm_unmap_page`. -/
def unmapPage (root va : ℕ) : Ram :=
  match node follow s.mem root (upper va) with
  | none => s
  | some pt => s.setWord pt (idx 0 va) 0#64

/-- `vmm_virt_to_phys`: a physical address, 0 if there is none.  The present bit of the last
entry is not looked at. -/
def virtToPhys (root va : ℕ) : ℕ :=
  match follow (s.mem root (idx 3 va)) with
  | none => 0
  | some pdpt =>
    let pdpte := s.mem pdpt (idx 2 va)
    match follow pdpte with
    | none => 0
    | some pd =>
      if has pdpte vmmPS then pd * 4096 + va % 2 ^ 30
      else
        let pde := s.mem pd (idx 1 va)
        match follow pde with
        | none => 0
        | some pt =>
          if has pde vmmPS then pt * 4096 + va % 2 ^ 21
          else frameOf (s.mem pt (idx 0 va)) * 4096 + va % 4096

/-- `vmm_pte_lookup`: the page table of the address, whose entry is at `idx 0`. -/
def pteLookup (root va : ℕ) : Option ℕ :=
  match follow (s.mem root (idx 3 va)) with
  | none => none
  | some pdpt =>
    let pdpte := s.mem pdpt (idx 2 va)
    match follow pdpte with
    | none => none
    | some pd =>
      if has pdpte vmmPS then none
      else
        let pde := s.mem pd (idx 1 va)
        match follow pde with
        | none => none
        | some pt => if has pde vmmPS then none else some pt

/-! ## Whole address spaces -/

/-- What `vmm_destroy_user` does with entry `i` of a table: `inner` is the loop over the table
behind it. -/
def destroyEntry (inner : ℕ → Ram → Ram) (f : ℕ) (s : Ram) (i : ℕ) : Ram :=
  let e := s.mem f i
  if has e vmmP then ((inner (frameOf e) s).unref (frameOf e)).setWord f i 0#64 else s

/-- The loop of `vmm_destroy_user` over the first `width` entries of a table. -/
def destroyTable : ℕ → ℕ → ℕ → Ram → Ram
  | 0, width, f, s => (List.range width).foldl (destroyEntry (fun _ s => s) f) s
  | level + 1, width, f, s =>
    (List.range width).foldl (destroyEntry (destroyTable level 512) f) s

/-- `vmm_destroy_user`. -/
def destroyUser (root : ℕ) : Ram := destroyTable 3 256 root s

/-- What `vmm_clone_user` does with one entry of a page table: `va` is its page. -/
def cloneLeaf (dst f va i : ℕ) (s : Ram) : Except Ram Ram :=
  let e := s.mem f i
  if has e vmmP then
    let s := if !has (e &&& cloneMask) vmmSHARED && has (e &&& cloneMask) vmmRW
      then s.setWord f i ((e &&& ~~~vmmRW) ||| vmmCOW) else s
    match s.mapPage dst va (frameOf e) (armCow (e &&& cloneMask)) with
    | (false, s) => .error s
    | (true, s) => .ok (s.ref (frameOf e))
  else .ok s

/-- The loops of `vmm_clone_user`; `va` is the first address that the table covers.  The error
carries the state in which a mapping failed. -/
def cloneTable (dst : ℕ) : ℕ → ℕ → ℕ → ℕ → Ram → Except Ram Ram
  | 0, width, f, va, s =>
    (List.range width).foldlM (fun s i => cloneLeaf dst f (va + i * 4096) i s) s
  | level + 1, width, f, va, s =>
    (List.range width).foldlM (fun s i =>
      match follow (s.mem f i) with
      | none => .ok s
      | some g => cloneTable dst level 512 g (va + i * 2 ^ (12 + 9 * (level + 1))) s) s

/-- `vmm_clone_user`: the new root, 0 if there was not enough memory. -/
def cloneUser (src : ℕ) : ℕ × Ram :=
  match s.createPml4 with
  | (0, s) => (0, s)
  | (dst, s) =>
    match cloneTable dst 3 256 src 0 s with
    | .ok s => (dst, s)
    | .error s => (0, (s.destroyUser dst).unref dst)

end Ram

end Xos.Mem
