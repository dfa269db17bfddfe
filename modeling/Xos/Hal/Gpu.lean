import Xos.Lib.Run
import Xos.Mem.Sound

/-!
# Backing lists and transfer pitches

What the GPU driver (`kernel/hal/gpu/virtio_gpu.c`) and its system calls tell the device about memory.

* **Backing** — a user buffer is sent as a list of physical runs.  The list describes the first
  `buf_size` bytes of the buffer if and only if no run starts after their end (`backing_exact_iff`):
  what is too much is taken off the last run only, modulo `2 ^ 32` (`backing_not_exact`);
* **Pitch** — a transfer takes the width and the height of the resource from a table that creations
  fill.  They are right as long as the table has room for every id and the strides fit into 32 bits
  (`transfer_pitch`); the 65th id is not tracked (`transfer_pitch_lost`).
-/

namespace Xos.Gpu

open Mem Function

/-! ## The backing of a resource -/

/-- A `virtio_gpu_mem_entry`. -/
structure MemEntry where
  addr : ℕ
  length : ℕ
deriving DecidableEq, Repr

/-- The addresses of `n` bytes from `a` on. -/
def span (a n : ℕ) : List ℕ := (List.range n).map (a + ·)

/-- The addresses an entry describes. -/
def MemEntry.bytes (e : MemEntry) : List ℕ := span e.addr e.length

/-- The addresses of the first `n` bytes of a buffer with the pages `pages`. -/
def bufferBytes (pages : ℕ → ℕ) (n : ℕ) : List ℕ :=
  (List.range n).map fun j => pages (j / 4096) + j % 4096

/-- The runs of the pages up to page `i`: the last one, and those before it from the last to the
first. -/
def coalesce (physPages : ℕ → ℕ) : ℕ → MemEntry × List MemEntry
  | 0 => (⟨physPages 0, 4096⟩, [])
  | i + 1 =>
    let (run, runs) := coalesce physPages i
    if physPages (i + 1) = (physPages i + 4096) % 2 ^ 64 then
      ({ run with length := (run.length + 4096) % 2 ^ 32 }, runs)
    else (⟨physPages (i + 1), 4096⟩, run :: runs)

/-- `virtio_gpu_resource_attach_backing_sg`: the entries sent to the device; `runsOk` and `cmdOk`
say whether the two buffers are there. -/
def attachBackingSg (runsOk cmdOk : Bool) (physPages : ℕ → ℕ) (npages bufSize : ℕ) :
    Option (List MemEntry) :=
  if npages = 0 ∨ runsOk = false then none
  else
    let (run, runs) := coalesce physPages (npages - 1)
    let total := npages * 4096
    let run := if bufSize < total then
        { run with length := (run.length + 2 ^ 32 - (total - bufSize) % 2 ^ 32) % 2 ^ 32 }
      else run
    if cmdOk then some (run :: runs).reverse else none

/-- The physical address of a page of the buffer, 0 if there is none. -/
def physPages (s : Ram) (root vaddr i : ℕ) : ℕ := s.virtToPhys root ((vaddr + i * 4096) % 2 ^ 64)

/-- `sys_gpu_res_attach_virt` in the address space `root`; `pagesOk`: the array of pages is there. -/
def sysGpuResAttachVirt (s : Ram) (root : ℕ) (pagesOk runsOk cmdOk : Bool)
    (vaddr npages bufSize : ℕ) : Option (List MemEntry) :=
  if npages = 0 ∨ 4096 < npages ∨ vaddr % 4096 ≠ 0 ∨ bufSize = 0 ∨ npages * 4096 < bufSize then none
  else if pagesOk = false ∨ ∃ i < npages, physPages s root vaddr i = 0 then none
  else attachBackingSg runsOk cmdOk (physPages s root vaddr) npages bufSize

section Backing

variable {s : Ram} {pages : ℕ → ℕ} {root va a m n : ℕ}

theorem virtToPhys_lt : s.virtToPhys root va < 2 ^ 53 := by
  have hframe : ∀ {e : Word}, frameOf e * 4096 + 2 ^ 30 < 2 ^ 53 := by
    intro e
    have := frameOf_lt (e := e)
    omega
  unfold Ram.virtToPhys
  all_goals grind [follow_some_iff]

theorem span_add : span a (m + n) = span a m ++ span (a + m) n := by
  simp [span, List.range_add]

theorem bufferBytes_page :
    bufferBytes pages ((n + 1) * 4096) = bufferBytes pages (n * 4096) ++ span (pages n) 4096 := by
  have hmap : ∀ j ∈ List.range 4096,
      pages ((n * 4096 + j) / 4096) + (n * 4096 + j) % 4096 = pages n + j := by
    intro j hj
    have hj := List.mem_range.mp hj
    rw [show (n * 4096 + j) / 4096 = n by omega, show (n * 4096 + j) % 4096 = j by omega]
  simp only [bufferBytes, span, Nat.succ_mul, List.range_add, List.map_append, List.map_map, comp_def]
  rw [List.map_congr_left hmap]

/-- What is known of the runs up to page `n`. -/
structure Coalesced (pages : ℕ → ℕ) (n : ℕ) (r : MemEntry × List MemEntry) : Prop where
  bytes : r.2.reverse.flatMap MemEntry.bytes ++ r.1.bytes = bufferBytes pages ((n + 1) * 4096)
  last : r.1.addr + r.1.length = pages n + 4096
  start : ∃ j ≤ n, r.1.length = (n + 1 - j) * 4096 ∧ (j = 0 ∨ pages j ≠ pages (j - 1) + 4096) ∧
    ∀ i, j ≤ i → i < n → pages (i + 1) = pages i + 4096

theorem coalesced (hlt : ∀ i, pages i < 2 ^ 53) (hn : n < 4096) :
    Coalesced pages n (coalesce pages n) := by
  induction n with
  | zero =>
    exact ⟨by rw [bufferBytes_page]; rfl, rfl, 0, le_rfl, rfl, .inl rfl, fun i _ hi => by omega⟩
  | succ n ih =>
    obtain ⟨hbytes, hlast, j, hj, hlen, hstart, hadj⟩ := ih (by omega)
    have hfit := hlt n
    rw [coalesce]
    generalize coalesce pages n = r at *
    obtain ⟨run, runs⟩ := r
    dsimp only at *
    rw [Nat.mod_eq_of_lt (by omega)]
    split
    case isTrue h =>
      -- the run goes on
      have hmod : (run.length + 4096) % 2 ^ 32 = run.length + 4096 := Nat.mod_eq_of_lt (by omega)
      rw [hmod]
      refine ⟨?_, by dsimp only; omega, j, by omega, by dsimp only; omega, hstart, fun i hi hin => ?_⟩
      · rw [bufferBytes_page, ← hbytes, List.append_assoc]
        refine congrArg (_ ++ ·) ?_
        rw [h, ← hlast]
        exact span_add
      · rcases Nat.lt_succ_iff_lt_or_eq.mp hin with hin | rfl
        · exact hadj i hi hin
        · exact h
    case isFalse h =>
      refine ⟨?_, rfl, n + 1, le_rfl, by dsimp only; omega, .inr h, fun i hi hin => by omega⟩
      rw [bufferBytes_page, ← hbytes]
      simp [MemEntry.bytes]

theorem attachBackingSg_bytes (hlt : ∀ i, pages i < 2 ^ 53) (hn : n < 4096)
    (hle : bufSize ≤ (n + 1) * 4096) :
    ∃ entries, attachBackingSg true true pages (n + 1) bufSize = some entries ∧
      (entries.flatMap MemEntry.bytes = bufferBytes pages bufSize ↔
        ∀ i < n, pages (i + 1) ≠ pages i + 4096 → (i + 1) * 4096 ≤ bufSize) := by
  obtain ⟨hbytes, -, j, hj, hlen, hstart, hadj⟩ := coalesced hlt hn
  -- the condition is about the page with which the last run starts
  have hcond : (∀ i < n, pages (i + 1) ≠ pages i + 4096 → (i + 1) * 4096 ≤ bufSize) ↔
      j * 4096 ≤ bufSize := by
    constructor
    · intro h
      cases j with
      | zero => simp
      | succ j => exact h j (by omega) (hstart.resolve_left (by omega))
    · intro h i hi hne
      have hij : i < j := by
        by_contra hij
        exact hne (hadj i (not_lt.mp hij) hi)
      exact (Nat.mul_le_mul_right 4096 hij).trans h
  generalize hr : coalesce pages n = r at hbytes hlen
  obtain ⟨run, runs⟩ := r
  dsimp only at hbytes hlen
  have hlen' : (runs.reverse.flatMap MemEntry.bytes).length = j * 4096 := by
    have h := congrArg List.length hbytes
    simp only [List.length_append, MemEntry.bytes, span, bufferBytes, List.length_map,
      List.length_range] at h ⊢
    omega
  obtain ⟨last, hlast⟩ : ∃ last, last = if bufSize < (n + 1) * 4096 then { run with
      length := (run.length + 2 ^ 32 - ((n + 1) * 4096 - bufSize) % 2 ^ 32) % 2 ^ 32 } else run :=
    ⟨_, rfl⟩
  refine ⟨(last :: runs).reverse, ?_, ?_⟩
  · unfold attachBackingSg
    rw [if_neg (by simp), Nat.add_sub_cancel, hr]
    dsimp only
    rw [← hlast, if_pos rfl]
  rw [hcond, List.reverse_cons, List.flatMap_append, List.flatMap_singleton]
  by_cases hin : j * 4096 ≤ bufSize
  · refine iff_of_true ?_ hin
    -- the last run loses what is too much
    have hcut : last = ⟨run.addr, run.length - ((n + 1) * 4096 - bufSize)⟩ := by
      rw [hlast]
      split
      · congr 1
        omega
      · rw [show (n + 1) * 4096 - bufSize = 0 by omega, Nat.sub_zero]
    rw [hcut]
    calc
      _ = (runs.reverse.flatMap MemEntry.bytes ++ run.bytes).take bufSize := ?_
      _ = bufferBytes pages bufSize := ?_
    · rw [List.take_append, List.take_of_length_le (by omega), hlen']
      simp only [MemEntry.bytes, span, ← List.map_take, List.take_range]
      rw [show min (bufSize - j * 4096) run.length = run.length - ((n + 1) * 4096 - bufSize) by omega]
    · simp only [hbytes, bufferBytes, ← List.map_take, List.take_range, min_eq_left hle]
  · refine iff_of_false (fun h => ?_) hin
    -- the difference wraps, and the entries are `2 ^ 32` bytes too long
    have hwrap : last.length = run.length + 2 ^ 32 - ((n + 1) * 4096 - bufSize) := by
      rw [hlast, if_pos (by omega)]
      dsimp only
      omega
    have htotal := congrArg List.length h
    simp only [List.length_append, hlen'] at htotal
    simp only [MemEntry.bytes, span, bufferBytes, List.length_map, List.length_range] at htotal
    omega

/-- The entries that are sent describe the first `buf_size` bytes of the buffer. -/
def Backs (s : Ram) (root vaddr npages bufSize : ℕ) : Prop :=
  ∃ entries, sysGpuResAttachVirt s root true true true vaddr npages bufSize = some entries ∧
    entries.flatMap MemEntry.bytes = bufferBytes (physPages s root vaddr) bufSize

/-- **The backing is exact** if and only if no page is at the physical address 0, which counts as
unmapped, and every page that does not follow the one before it in memory starts within the first
`buf_size` bytes. -/
theorem backing_exact_iff {vaddr npages bufSize : ℕ} (h0 : 0 < npages) (hmax : npages ≤ 4096)
    (hal : vaddr % 4096 = 0) (hsize : 0 < bufSize) (hle : bufSize ≤ npages * 4096) :
    Backs s root vaddr npages bufSize ↔ (∀ i < npages, physPages s root vaddr i ≠ 0) ∧
      ∀ i, i + 1 < npages → physPages s root vaddr (i + 1) ≠ physPages s root vaddr i + 4096 →
        (i + 1) * 4096 ≤ bufSize := by
  obtain ⟨n, rfl⟩ : ∃ n, npages = n + 1 := ⟨npages - 1, by omega⟩
  unfold Backs sysGpuResAttachVirt
  rw [if_neg (by omega)]
  by_cases hmapped : ∀ i < n + 1, physPages s root vaddr i ≠ 0
  · obtain ⟨entries, hsent, hiff⟩ := attachBackingSg_bytes
      (show ∀ i, physPages s root vaddr i < 2 ^ 53 from fun _ => virtToPhys_lt) (by omega) hle
    rw [if_neg (by simpa using hmapped), hsent]
    simp only [Option.some.injEq, exists_eq_left', hiff, Nat.add_lt_add_iff_right]
    exact ⟨fun h => ⟨hmapped, h⟩, fun h => h.2⟩
  · refine iff_of_false ?_ fun h => hmapped h.1
    rw [if_pos (by simpa using hmapped)]
    rintro ⟨entries, ⟨⟩, -⟩

end Backing

/-- Page tables in which no page follows another in memory. -/
def spread : Ram where
  pmm := ⟨0, fun _ => false, fun _ => 0, 0, 0⟩
  mem f i := mkEntry (if f < 3 then f + 1 else 2 * i + 10) vmmP
  kernel := 0

/-- The first 6000 bytes of such a buffer. -/
theorem backing_exact_spread : Backs spread 0 0x400000 2 6000 :=
  (backing_exact_iff (by decide) (by decide) (by decide) (by decide) (by decide)).mpr
    ⟨by decide +kernel, fun i hi _ => by omega⟩

/-- Of two such pages one byte is wanted: the first entry has 4096 bytes, the second almost
`2 ^ 32`. -/
theorem backing_not_exact :
    ∃ entries, sysGpuResAttachVirt spread 0 true true true 0x400000 2 1 = some entries ∧
      entries = [⟨40960, 4096⟩, ⟨49152, 4294963201⟩] ∧
      entries.flatMap MemEntry.bytes ≠ bufferBytes (physPages spread 0 0x400000) 1 := by
  refine ⟨_, by decide +kernel, rfl, fun h => ?_⟩
  have hlen := congrArg List.length h
  simp [MemEntry.bytes, span, bufferBytes] at hlen

/-! ## The pitch of a transfer -/

/-- An entry of `g_res_dims`. -/
structure ResDims where
  id : ℕ
  width : ℕ
  height : ℕ
deriving DecidableEq, Repr

def gpuResDimsMax : ℕ := 64

/-- `gpu_track_res_dims`; `room` is what is left of the array. -/
def gpuTrackResDims (id width height : ℕ) : ℕ → List ResDims → List ResDims
  | room, [] => if 0 < room then [⟨id, width, height⟩] else []
  | room, d :: dims =>
    if d.id = id then ⟨id, width, height⟩ :: dims
    else d :: gpuTrackResDims id width height (room - 1) dims

/-- `virtio_gpu_res_dims`. -/
def virtioGpuResDims (dims : List ResDims) (id : ℕ) : Option ResDims :=
  dims.find? fun d => d.id = id

/-- The command of `virtio_gpu_transfer_to_host_3d_for`; `d` is 1 and `level` is 0. -/
structure Transfer3d where
  resourceId : ℕ
  x : ℕ
  y : ℕ
  z : ℕ
  w : ℕ
  h : ℕ
  offset : ℕ
  stride : ℕ
  layerStride : ℕ
deriving DecidableEq, Repr

/-- `sys_gpu_transfer_3d`. -/
def sysGpuTransfer3d (dims : List ResDims) (resourceId x y z w h : ℕ) : Transfer3d :=
  let id := resourceId % 2 ^ 32
  let d := (virtioGpuResDims dims id).getD ⟨id, w % 2 ^ 32, h % 2 ^ 32⟩
  let resW := if d.width = 0 then w % 2 ^ 32 else d.width
  let resH := if d.height = 0 then h % 2 ^ 32 else d.height
  let stride := resW * 4 % 2 ^ 32
  ⟨id, x % 2 ^ 32, y % 2 ^ 32, z % 2 ^ 32, w % 2 ^ 32, h % 2 ^ 32,
    (y * stride + x * 4) % 2 ^ 64, stride, stride * resH % 2 ^ 32⟩

/-- The table, and the sizes of the resources that the device has. -/
structure State where
  dims : List ResDims
  live : ℕ → Option (ℕ × ℕ)

/-- `sys_gpu_res_create_3d` and `sys_gpu_res_unref`, with what the device answers. -/
inductive Call
  | create (resourceId width height : ℕ) (ok : Bool)
  | unref (resourceId : ℕ) (ok : Bool)

def exec (s : State) : Call → State
  | .create id w h true =>
    ⟨gpuTrackResDims (id % 2 ^ 32) (w % 2 ^ 32) (h % 2 ^ 32) gpuResDimsMax s.dims,
      update s.live (id % 2 ^ 32) (some (w % 2 ^ 32, h % 2 ^ 32))⟩
  | .unref id true => { s with live := update s.live (id % 2 ^ 32) none }
  | _ => s

def State.init : State := ⟨[], fun _ => none⟩

/-- The id is in the table or the table has room, and the strides fit into 32 bits. -/
def Guard (s : State) : Call → Prop
  | .create id w h _ =>
    ((∃ d ∈ s.dims, d.id = id % 2 ^ 32) ∨ s.dims.length < gpuResDimsMax) ∧
      4 * (w % 2 ^ 32) < 2 ^ 32 ∧ 4 * (w % 2 ^ 32) * (h % 2 ^ 32) < 2 ^ 32
  | .unref .. => True

section Pitch

variable {s : State} {dims : List ResDims} {id id' w h room : ℕ}

theorem resDims_track_self (hroom : (∃ d ∈ dims, d.id = id) ∨ dims.length < room) :
    virtioGpuResDims (gpuTrackResDims id w h room dims) id = some ⟨id, w, h⟩ := by
  induction dims generalizing room with
  | nil => simp_all [gpuTrackResDims, virtioGpuResDims]
  | cons d dims ih =>
    rw [gpuTrackResDims]
    by_cases hd : d.id = id
    · simp [hd, virtioGpuResDims]
    have hroom' : (∃ d ∈ dims, d.id = id) ∨ dims.length < room - 1 := by
      refine hroom.imp (by simp [hd]) fun h => ?_
      rw [List.length_cons] at h
      omega
    simpa [hd, virtioGpuResDims] using ih hroom'

theorem resDims_track_of_ne (hne : id' ≠ id) :
    virtioGpuResDims (gpuTrackResDims id w h room dims) id' = virtioGpuResDims dims id' := by
  induction dims generalizing room with
  | nil =>
    rw [gpuTrackResDims]
    split <;> simp [virtioGpuResDims, hne.symm]
  | cons d dims ih =>
    rw [gpuTrackResDims]
    by_cases hd : d.id = id
    · simp [hd, virtioGpuResDims, hne.symm]
    · simp only [virtioGpuResDims, if_neg hd, List.find?_cons] at ih ⊢
      rw [ih]

/-- The sizes of the resources that the device has are in the table. -/
def Tracked (s : State) : Prop :=
  ∀ id w h, s.live id = some (w, h) →
    virtioGpuResDims s.dims id = some ⟨id, w, h⟩ ∧ 4 * w < 2 ^ 32 ∧ 4 * w * h < 2 ^ 32

theorem Tracked.step (hs : Tracked s) (hg : Guard s c) : Tracked (exec s c) := by
  intro id w h hlive
  match c with
  | .create _ _ _ false | .unref _ false => exact hs id w h hlive
  | .unref i true =>
    by_cases hid : id = i % 2 ^ 32
    · simp [exec, hid] at hlive
    · exact hs id w h ((update_of_ne hid ..).symm.trans hlive)
  | .create i w' h' true =>
    by_cases hid : id = i % 2 ^ 32
    · obtain ⟨rfl, rfl⟩ : w' % 2 ^ 32 = w ∧ h' % 2 ^ 32 = h := by simpa [exec, hid] using hlive
      rw [hid]
      exact ⟨resDims_track_self hg.1, hg.2⟩
    · have hs := hs id w h ((update_of_ne hid ..).symm.trans hlive)
      exact ⟨(resDims_track_of_ne hid).trans hs.1, hs.2⟩

end Pitch

/-- **The pitch is that of the resource** in every state reached by calls that each find room in the
table and have strides of 32 bits. -/
theorem transfer_pitch {cs : List Call} {s : State}
    (hrun : Lib.Run (fun s c t => exec s c = t) Guard .init cs s) :
    ∀ resourceId W H, s.live (resourceId % 2 ^ 32) = some (W, H) → ∀ x y z w h, x + w ≤ W →
      y + h ≤ H → (sysGpuTransfer3d s.dims resourceId x y z w h).stride = 4 * W ∧
        (sysGpuTransfer3d s.dims resourceId x y z w h).layerStride = 4 * W * H ∧
        (sysGpuTransfer3d s.dims resourceId x y z w h).offset = y * (4 * W) + x * 4 := by
  have htracked : Tracked s := hrun.invariant (I := Tracked) (by simp [Tracked, State.init])
      fun s c t hs hg (hstep : exec s c = t) => hstep ▸ hs.step hg
  intro id W H hlive x y z w h hx hy
  obtain ⟨hdims, hW, hH⟩ := htracked _ W H hlive
  have hw : (if W = 0 then w % 2 ^ 32 else W) = W := by split <;> omega
  have hh : (if H = 0 then h % 2 ^ 32 else H) = H := by split <;> omega
  have hoff : y * (4 * W) + x * 4 < 2 ^ 64 := by
    have hy := Nat.mul_le_mul_left (4 * W) (show y ≤ H by omega)
    rw [Nat.mul_comm y]
    omega
  simp only [sysGpuTransfer3d, hdims, Option.getD_some, hw, hh, Nat.mul_comm W 4,
    Nat.mod_eq_of_lt hW, Nat.mod_eq_of_lt hH, Nat.mod_eq_of_lt hoff, and_self]

/-- A box of a resource of 640 × 480. -/
theorem transfer_pitch_box : ∃ s,
    Lib.Run (fun s c t => exec s c = t) Guard .init [.create 5 640 480 true] s ∧
      (sysGpuTransfer3d s.dims 5 8 2 0 16 16).offset = 5152 := by
  have hg : Guard .init (.create 5 640 480 true) := ⟨.inr (by decide), by decide, by decide⟩
  have hrun : Lib.Run (fun s c t => exec s c = t) Guard .init _ _ := .cons hg rfl .nil
  exact ⟨_, hrun, (transfer_pitch hrun 5 640 480 rfl 8 2 0 16 16 (by decide) (by decide)).2.2⟩

/-- The ids 0 to 64 are created, 2 × 2 each: the last one is not tracked. -/
theorem transfer_pitch_lost :
    ∃ cs s, Lib.Run (fun s c t => exec s c = t) (fun _ _ => True) .init cs s ∧
      s.live 64 = some (2, 2) ∧ (sysGpuTransfer3d s.dims 64 0 0 0 1 1).stride = 4 :=
  ⟨(List.range 65).map fun i => .create i 2 2 true, _, .of_foldl, by decide +kernel,
    by decide +kernel⟩

end Xos.Gpu
