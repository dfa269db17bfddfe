import Xos.Composer.Surface

/-!
# The composer's table of surfaces

The state of `userspace/services/composer/main.c` between two frames, and what messages do to it:
`spawn_surface_custom`, `destroy_surface`, `cull_dead_surfaces`, and the branches of `display_main`
for the messages of clients.

An index of -1 is `none`.  What is sent to clients, the pages that are shared with them and the
objects of the GPU are left out; whether `sys_mem_alloc` succeeds is given with the call.
-/

namespace Xos.Composer

open Xos.Lib Function

/-- The variables of the composer. -/
structure Desk where
  scr : Screen
  surfaces : ℕ → Surface
  surfaceCount : ℕ
  dragIdx : Option ℕ
  dragOffX : ℤ
  dragOffY : ℤ
  focusedIdx : Option ℕ
  pointerGrabIdx : Option ℕ
  resizeIdx : Option ℕ
  resizeEdge : ℕ
  /-- `resize_orig_x` and so on. -/
  resizeOrigX : ℤ
  resizeOrigY : ℤ
  resizeOrigW : ℕ
  resizeOrigH : ℕ
  resizeStartX : ℤ
  resizeStartY : ℤ
  /-- `max_save_x`, `max_save_y`, `max_save_w` and `max_save_h`, if `max_saved`. -/
  maxSaved : ℕ → Option (ℤ × ℤ × ℕ × ℕ)
  zSeqCounter : ℕ
  generationCounter : ℕ
  zChanged : Bool
  /-- `dmg_x0`, …, `dmg_y1`, if `damage_pending`. -/
  damage : Option Rect
  dmgRestore : Bool
  /-- `old_sx` and `old_sy`. -/
  oldS : ℕ → ℤ × ℤ
  /-- What was reported since the last frame, by `damage_add` or as a dirty rectangle. -/
  damaged : List Rect

namespace Desk

variable (d : Desk)

/-- Change a surface. -/
def setSurface (i : ℕ) (s : Surface) : Desk :=
  { d with surfaces := update d.surfaces i s }

/-- `damage_add`. -/
def damageAdd (r : Rect) (needRestore : Bool) : Desk :=
  let c := d.scr.clip r
  let empty := decide (c.x1 ≤ c.x0 ∨ c.y1 ≤ c.y0)
  { d with
    damage := if empty then d.damage else some (d.damage.elim c fun b => b.join c)
    dmgRestore := d.dmgRestore || (!empty && needRestore)
    damaged := r :: d.damaged }

end Desk

/-- The text in a title buffer of 32 bytes, of which the last is zero. -/
def titleText (bytes : List Byte) : List Byte := (bytes.take 31).takeWhile (· ≠ 0#8)

/-- `SURF_W`. -/
def surfW : ℕ := 2560

/-- `SURF_H`. -/
def surfH : ℕ := 1600

/-- Whether a flag is set. -/
def hasFlag (flags bit : ℕ) : Bool := flags &&& bit ≠ 0

/-- The next value of a counter of 32 bits. -/
def tick (n : ℕ) : ℕ := (n + 1) % 2 ^ 32

/-- `++g_surface_generation_counter`, which skips zero. -/
def nextGeneration (n : ℕ) : ℕ := if tick n = 0 then tick (tick n) else tick n

/-- `wm_create_msg_t`. -/
structure CreateMsg where
  x : ℤ
  y : ℤ
  w : ℕ
  h : ℕ
  flags : ℕ
  ownerPid : ℕ
  replyPort : ℕ
  title : List Byte

/-- The level of a new surface. -/
def CreateMsg.level (m : CreateMsg) : Level :=
  if hasFlag m.flags 1 then .panel else if hasFlag m.flags 2 then .overlay else .normal

/-- The surface that `spawn_surface_custom` makes of a request, before its place is adjusted. -/
def CreateMsg.surface (m : CreateMsg) (zSeq generation : ℕ) (memOk : Bool) : Surface where
  x := m.x
  y := m.y
  w := min m.w surfW
  h := min m.h surfH
  pixels := if hasFlag m.flags 0x20 then none else if memOk then some fun _ => 0#32 else none
  level := m.level
  zSeq := zSeq
  valid := true
  generation := generation
  ownerPid := m.ownerPid
  replyPort := m.replyPort
  dirty := false
  dirtyX := 0
  dirtyY := 0
  dirtyW := 0
  dirtyH := 0
  dirtyRestore := false
  hidden := false
  flags := m.flags
  title := titleText m.title
  isGpu := hasFlag m.flags 0x20
  gpuResId := 0
  gpuCtxId := 0
  gpuSvHandle := 0
  gpuTexW := min m.w surfW
  gpuTexH := min m.h surfH

/-- Clamp the position so that the window fits. -/
def Surface.clamped (s : Surface) (scr : Screen) : Surface :=
  let x := if scr.w < int32 (s.x + int32 s.w) then int32 (scr.w - int32 s.w) else s.x
  let y := if scr.h < int32 (s.y + s.totalH) then int32 (scr.h - s.totalH) else s.y
  { s with x := max x 0, y := max y 0 }

/-- The first slot that is free. -/
def freeSlot (d : Desk) : Option ℕ :=
  (List.range maxSurfaces).find? fun i => !(d.surfaces i).valid

/-- `spawn_surface_custom`. -/
def spawnSurfaceCustom (d : Desk) (m : CreateMsg) (memOk : Bool) : Desk :=
  match freeSlot d with
  | none => d
  | some slot =>
    let zSeq := tick d.zSeqCounter
    let generation := nextGeneration d.generationCounter
    let s := (m.surface zSeq generation memOk).clamped d.scr
    { d with
      surfaces := update d.surfaces slot s
      zSeqCounter := zSeq
      generationCounter := generation
      oldS := update d.oldS slot (s.x, s.y)
      surfaceCount := if d.surfaceCount ≤ slot then slot + 1 else d.surfaceCount }

/-- The surface that is left in a slot by `destroy_surface`. -/
def Surface.destroyed (s : Surface) : Surface :=
  { s with
    valid := false
    pixels := none
    replyPort := 0
    ownerPid := 0
    isGpu := false
    gpuResId := 0
    gpuCtxId := 0
    gpuSvHandle := 0
    gpuTexW := 0
    gpuTexH := 0 }

/-- An index that is given up if it is `idx`. -/
def release (cur : Option ℕ) (idx : ℕ) : Option ℕ := if cur = some idx then none else cur

/-- `destroy_surface`. -/
def destroySurface (d : Desk) (idx : ℕ) : Desk :=
  let s := d.surfaces idx
  if d.surfaceCount ≤ idx ∨ s.valid = false then d
  else
    let wasOverlay := decide (s.level = .overlay)
    let d := { d with
      focusedIdx := release d.focusedIdx idx
      dragIdx := release d.dragIdx idx
      pointerGrabIdx := release d.pointerGrabIdx idx
      resizeEdge := if d.resizeIdx = some idx then 0 else d.resizeEdge
      resizeIdx := release d.resizeIdx idx
      maxSaved := update d.maxSaved idx none }
    let d := d.damageAdd s.bounds (wasOverlay || s.isGpu)
    let d := { d with zChanged := d.zChanged || !wasOverlay }
    d.setSurface idx s.destroyed

/-- `cull_dead_surfaces`, for the processes that exist, with the `z_changed` of its caller. -/
def cullDeadSurfaces (d : Desk) (alive : ℕ → Bool) : Desk :=
  (List.range maxSurfaces).foldl (fun d i =>
    let s := d.surfaces i
    if s.valid = false ∨ s.ownerPid = 0 ∨ alive s.ownerPid = true then d
    else
      let d' := destroySurface d i
      -- `destroy_surface` returns 1 if it found the surface
      if i < d.surfaceCount then { d' with zChanged := true } else d') d

/-! ## Messages -/

/-- A surface with the bounds that a request asks for, as far as the screen allows. -/
def Surface.withBounds (s : Surface) (scr : Screen) (x y : ℤ) (w h : ℕ) : Surface :=
  Surface.clamped { s with
    x := max x 0
    y := max y 0
    w := if w = 0 then s.w else w
    h := if h = 0 then s.h else h } scr

/-- `WM_SET_BOUNDS`. -/
def setBounds (d : Desk) (idx : ℕ) (x y : ℤ) (w h : ℕ) : Desk :=
  let s := d.surfaces idx
  if d.surfaceCount ≤ idx ∨ s.valid = false then d
  else
    let t := s.withBounds d.scr x y w h
    let d :=
      if t.x ≠ s.x ∨ t.y ≠ s.y ∨ t.w ≠ s.w ∨ t.h ≠ s.h then
        (d.damageAdd ⟨s.x, s.y, int32 (s.x + int32 s.w), int32 (s.y + int32 s.h)⟩
          (decide (s.level = .overlay))).damageAdd
          ⟨t.x, t.y, int32 (t.x + int32 t.w), int32 (t.y + int32 t.h)⟩ false
      else d
    d.setSurface idx t

/-- The surface is raised above the others of its level. -/
def raise (d : Desk) (idx : ℕ) : Desk :=
  if (d.surfaces idx).level = .normal ∧ topmostInLevel d.surfaces d.surfaceCount idx = false then
    let zSeq := tick d.zSeqCounter
    { (d.setSurface idx { d.surfaces idx with zSeq := zSeq }) with
      zSeqCounter := zSeq
      zChanged := true }
  else d

/-- `WM_BEGIN_MOVE`. -/
def beginMove (d : Desk) (idx : ℕ) (grabOffX grabOffY : ℤ) : Desk :=
  if d.surfaceCount ≤ idx ∨ (d.surfaces idx).valid = false then d
  else
    raise { d with
      dragIdx := some idx
      dragOffX := grabOffX
      dragOffY := grabOffY
      pointerGrabIdx := none
      focusedIdx := some idx } idx

/-- The test for `COMPOSER_DESTROY_SURFACE`, `COMPOSER_SURFACE_DIRTY` and `WM_SURFACE_GPU_READY`. -/
def owned (d : Desk) (sender idx generation : ℕ) : Prop :=
  idx < d.surfaceCount ∧ (d.surfaces idx).valid = true ∧
    (d.surfaces idx).generation = generation ∧ (d.surfaces idx).ownerPid = sender

instance (d : Desk) (sender idx generation : ℕ) : Decidable (owned d sender idx generation) :=
  inferInstanceAs (Decidable (_ ∧ _ ∧ _ ∧ _))

/-- `COMPOSER_DESTROY_SURFACE`. -/
def destroyMsg (d : Desk) (sender idx generation : ℕ) : Desk :=
  if owned d sender idx generation then destroySurface d idx else d

/-- `COMPOSER_DESTROY_BY_PID`. -/
def destroyByPid (d : Desk) (pid : ℕ) : Desk :=
  (List.range maxSurfaces).foldl (fun d i =>
    if (d.surfaces i).valid = true ∧ (d.surfaces i).ownerPid = pid then destroySurface d i else d) d

/-- `WM_SET_TITLE`. -/
def setTitle (d : Desk) (idx : ℕ) (title : List Byte) : Desk :=
  if d.surfaceCount ≤ idx ∨ (d.surfaces idx).valid = false then d
  else
    { (d.setSurface idx { d.surfaces idx with title := titleText title }) with zChanged := true }

/-- `wm_dirty_msg_t`, without the surface. -/
structure DirtyMsg where
  x : ℕ
  y : ℕ
  w : ℕ
  h : ℕ
  flags : ℕ

/-- A surface with a dirty rectangle. -/
def Surface.marked (s : Surface) (m : DirtyMsg) : Surface :=
  let restore := s.dirtyRestore || hasFlag m.flags 1
  if m.w = 0 ∧ m.h = 0 then
    { s with dirty := true, dirtyRestore := restore, dirtyX := 0, dirtyY := 0, dirtyW := s.w,
             dirtyH := s.h }
  else
    { s with dirty := true, dirtyRestore := restore, dirtyX := m.x, dirtyY := m.y, dirtyW := m.w,
             dirtyH := m.h }

/-- `COMPOSER_SURFACE_DIRTY`. -/
def surfaceDirty (d : Desk) (sender idx generation : ℕ) (m : DirtyMsg) : Desk :=
  if owned d sender idx generation then d.setSurface idx ((d.surfaces idx).marked m) else d

/-- `WM_SURFACE_GPU_READY`. -/
def surfaceGpuReady (d : Desk) (sender idx generation resId ctxId texW texH : ℕ) : Desk :=
  let s := d.surfaces idx
  if owned d sender idx generation ∧ s.isGpu = true then
    let tex := decide (0 < texW ∧ 0 < texH)
    let d := d.setSurface idx { s with
      gpuResId := resId
      gpuCtxId := ctxId
      gpuTexW := if tex then texW else s.gpuTexW
      gpuTexH := if tex then texH else s.gpuTexH
      gpuSvHandle := 100 + idx
      dirty := true
      dirtyRestore := false
      dirtyX := 0
      dirtyY := 0
      dirtyW := s.w
      dirtyH := s.h }
    if s.level = .normal then { d with focusedIdx := some idx } else d
  else d

/-! ## At the start -/

/-- A slot that was never used. -/
def noSurface : Surface where
  x := 0
  y := 0
  w := 0
  h := 0
  pixels := none
  level := .desktop
  zSeq := 0
  valid := false
  generation := 0
  ownerPid := 0
  replyPort := 0
  dirty := false
  dirtyX := 0
  dirtyY := 0
  dirtyW := 0
  dirtyH := 0
  dirtyRestore := false
  hidden := false
  flags := 0
  title := []
  isGpu := false
  gpuResId := 0
  gpuCtxId := 0
  gpuSvHandle := 0
  gpuTexW := 0
  gpuTexH := 0

/-- The composer at its start. -/
def emptyDesk (scr : Screen) : Desk where
  scr := scr
  surfaces := fun _ => noSurface
  surfaceCount := 0
  dragIdx := none
  dragOffX := 0
  dragOffY := 0
  focusedIdx := none
  pointerGrabIdx := none
  resizeIdx := none
  resizeEdge := 0
  resizeOrigX := 0
  resizeOrigY := 0
  resizeOrigW := 0
  resizeOrigH := 0
  resizeStartX := 0
  resizeStartY := 0
  maxSaved := fun _ => none
  zSeqCounter := 0
  generationCounter := 0
  zChanged := false
  damage := none
  dmgRestore := false
  oldS := fun _ => (0, 0)
  damaged := []

/-! ## What the calls keep -/

/-- No surface appears, and those that stay are what they were. -/
structure Kept (d t : Desk) : Prop where
  counter : t.generationCounter = d.generationCounter
  count : t.surfaceCount = d.surfaceCount
  valid : ∀ i, (t.surfaces i).valid = true → (d.surfaces i).valid = true ∧
    (t.surfaces i).generation = (d.surfaces i).generation ∧
    (t.surfaces i).isGpu = (d.surfaces i).isGpu

theorem Kept.refl (d : Desk) : Kept d d := ⟨rfl, rfl, fun _ hv => ⟨hv, rfl, rfl⟩⟩

theorem Kept.trans (h : Kept d t) (h' : Kept t u) : Kept d u where
  counter := h'.counter.trans h.counter
  count := h'.count.trans h.count
  valid := by
    intro i hv
    obtain ⟨hv', hg', hc'⟩ := h'.valid i hv
    obtain ⟨hv'', hg'', hc''⟩ := h.valid i hv'
    exact ⟨hv'', hg'.trans hg'', hc'.trans hc''⟩

theorem Kept.foldl {ι : Type*} {f : Desk → ι → Desk} (hf : ∀ d i, Kept d (f d i)) (l : List ι)
    (d : Desk) : Kept d (l.foldl f d) := by
  induction l generalizing d with
  | nil => exact .refl d
  | cons i l ih => exact (hf d i).trans (ih (f d i))

/-- A surface is replaced. -/
theorem kept_update (hs : t.surfaces = update d.surfaces idx u)
    (hc : t.generationCounter = d.generationCounter) (hn : t.surfaceCount = d.surfaceCount)
    (hu : u.valid = true → (d.surfaces idx).valid = true ∧
      u.generation = (d.surfaces idx).generation ∧ u.isGpu = (d.surfaces idx).isGpu) :
    Kept d t where
  counter := hc
  count := hn
  valid := by
    intro i hv
    rw [hs] at hv ⊢
    by_cases hi : i = idx
    · subst hi
      rw [update_self] at hv ⊢
      exact hu hv
    · rw [update_of_ne hi] at hv ⊢
      exact ⟨hv, rfl, rfl⟩

section

variable (d)

theorem setBounds_kept (idx : ℕ) (x y : ℤ) (w h : ℕ) : Kept d (setBounds d idx x y w h) := by
  unfold setBounds
  dsimp only
  split
  · exact .refl d
  split
  · exact kept_update rfl rfl rfl fun hv => ⟨hv, rfl, rfl⟩
  · exact kept_update rfl rfl rfl fun hv => ⟨hv, rfl, rfl⟩

theorem raise_kept (idx : ℕ) : Kept d (raise d idx) := by
  unfold raise
  split
  · exact kept_update rfl rfl rfl fun hv => ⟨hv, rfl, rfl⟩
  · exact .refl d

theorem beginMove_kept (idx : ℕ) (x y : ℤ) : Kept d (beginMove d idx x y) := by
  unfold beginMove
  split
  · exact .refl d
  · refine Kept.trans ?_ (raise_kept _ idx)
    exact ⟨rfl, rfl, fun _ hv => ⟨hv, rfl, rfl⟩⟩

theorem destroySurface_kept (idx : ℕ) : Kept d (destroySurface d idx) := by
  unfold destroySurface
  dsimp only
  split
  · exact .refl d
  · exact kept_update rfl rfl rfl nofun

theorem setTitle_kept (idx : ℕ) (title : List Byte) : Kept d (setTitle d idx title) := by
  unfold setTitle
  split
  · exact .refl d
  · exact kept_update rfl rfl rfl fun hv => ⟨hv, rfl, rfl⟩

theorem surfaceDirty_kept (sender idx generation : ℕ) (m : DirtyMsg) :
    Kept d (surfaceDirty d sender idx generation m) := by
  unfold surfaceDirty
  split
  · refine kept_update rfl rfl rfl ?_
    unfold Surface.marked
    split
    · exact fun hv => ⟨hv, rfl, rfl⟩
    · exact fun hv => ⟨hv, rfl, rfl⟩
  · exact .refl d

theorem destroyMsg_kept (sender idx generation : ℕ) :
    Kept d (destroyMsg d sender idx generation) := by
  unfold destroyMsg
  split
  · exact destroySurface_kept d idx
  · exact .refl d

theorem surfaceGpuReady_kept (sender idx generation resId ctxId texW texH : ℕ) :
    Kept d (surfaceGpuReady d sender idx generation resId ctxId texW texH) := by
  unfold surfaceGpuReady
  by_cases hown : owned d sender idx generation ∧ (d.surfaces idx).isGpu = true
  · rw [if_pos hown]
    by_cases hlevel : (d.surfaces idx).level = .normal
    · rw [if_pos hlevel]
      exact kept_update rfl rfl rfl fun hv => ⟨hv, rfl, rfl⟩
    · rw [if_neg hlevel]
      exact kept_update rfl rfl rfl fun hv => ⟨hv, rfl, rfl⟩
  · rw [if_neg hown]
    exact .refl d

theorem cull_kept (alive : ℕ → Bool) : Kept d (cullDeadSurfaces d alive) := by
  refine Kept.foldl (fun d i => ?_) _ d
  dsimp only
  split
  · exact .refl d
  split
  · exact (destroySurface_kept d i).trans ⟨rfl, rfl, fun _ hv => ⟨hv, rfl, rfl⟩⟩
  · exact destroySurface_kept d i

theorem destroyByPid_kept (pid : ℕ) : Kept d (destroyByPid d pid) := by
  refine Kept.foldl (fun d i => ?_) _ d
  split
  · exact destroySurface_kept d i
  · exact .refl d

end

end Xos.Composer
