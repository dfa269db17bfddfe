import Xos.Composer.Desk
import Xos.Lib.Run

/-!
# Whose message may change a surface

Clients name surfaces by their slot, and slots are used again.  The composer therefore gives every
surface a generation, and some messages carry it; some are also checked against the owner of the
surface.  A state here has, beside the composer, the number of surfaces that were created so far, and
for every slot which of these is in it: so a message can be addressed to a surface, and not only to a
slot.

* **Checked messages** — dirty rectangles, destruction and `WM_SURFACE_GPU_READY` have the generation
  and the owner compared;
* **Unchecked messages** — `WM_SET_BOUNDS`, `WM_SET_TITLE` and `WM_BEGIN_MOVE` have only an index;
* **The result** — if the unchecked ones that have an effect are sent by clients to their own surfaces,
  and no focus or drag is taken from the window of another client, then a message changes what can be
  seen of a surface only if it comes from its owner, and that of the surface in its slot only if it is
  addressed to it (`surface_authority`).  Without that condition any client can move any window, and
  a late message hits the next window in the slot (`strangers_change_surfaces`).
-/

namespace Xos.Composer.Authority

open Xos.Lib Xos.Composer Function

/-! ## Runs -/

/-- A message about a surface. -/
inductive Msg where
  | setBounds (x y : ℤ) (w h : ℕ)
  | setTitle (title : List Byte)
  | beginMove (grabOffX grabOffY : ℤ)
  | dirty (m : DirtyMsg)
  | destroy
  | gpuReady (resId ctxId texW texH : ℕ)

/-- The composer, with the creation numbers of the surfaces. -/
structure State where
  desk : Desk
  /-- The number of surfaces created so far. -/
  births : ℕ
  /-- The number of the surface that is or was last in a slot. -/
  born : ℕ → ℕ

/-- The generation of the surface with a creation number. -/
def generationOf (n : ℕ) : ℕ := n % (2 ^ 32 - 1) + 1

inductive Label where
  /-- A message from `sender` to the surface with the number `target`, under the index `idx`. -/
  | message (sender idx target : ℕ) (m : Msg)
  | create (m : CreateMsg) (memOk : Bool)
  | destroyByPid (pid : ℕ)
  | cull (alive : ℕ → Bool)

/-- The branches of `display_main` for these messages. -/
def handle (d : Desk) (sender idx generation : ℕ) : Msg → Desk
  | .setBounds x y w h => setBounds d idx x y w h
  | .setTitle title => setTitle d idx title
  | .beginMove x y => beginMove d idx x y
  | .dirty m => surfaceDirty d sender idx generation m
  | .destroy => destroyMsg d sender idx generation
  | .gpuReady resId ctxId texW texH => surfaceGpuReady d sender idx generation resId ctxId texW texH

def exec (s : State) : Label → State
  | .message sender idx target m =>
    { s with desk := handle s.desk sender idx (generationOf target) m }
  | .create m memOk =>
    match freeSlot s.desk with
    | none => s
    | some slot =>
      { desk := spawnSurfaceCustom s.desk m memOk
        births := s.births + 1
        born := update s.born slot s.births }
  | .destroyByPid pid => { s with desk := Composer.destroyByPid s.desk pid }
  | .cull alive => { s with desk := cullDeadSurfaces s.desk alive }

def Step (s : State) (l : Label) (t : State) : Prop := t = exec s l

/-- The slot has a surface, and the message comes from its owner and is addressed to it. -/
def Addressed (s : State) (sender idx target : ℕ) : Prop :=
  (s.desk.surfaces idx).ownerPid = sender ∧ s.born idx = target

/-- Nobody has it, or this surface does, or one of the same owner. -/
def Free (d : Desk) (cur : Option ℕ) (idx sender : ℕ) : Prop :=
  ∀ i, cur = some i → i = idx ∨ (d.surfaces i).ownerPid = sender

/-- The bounds of a surface. -/
def boundsOf (s : Surface) : ℤ × ℤ × ℕ × ℕ := (s.x, s.y, s.w, s.h)

/-- Well-behaved clients: of the messages that are not checked, those that change something are sent
by the owner to the surface that is in the slot, and no focus or drag is taken from a surface of
another owner.  And the generations have not run out. -/
def Guard (s : State) : Label → Prop
  | .message sender idx target m => target < 2 ^ 32 - 1 ∧
      match m with
      | .setBounds x y w h => idx < s.desk.surfaceCount → (s.desk.surfaces idx).valid = true →
          boundsOf ((s.desk.surfaces idx).withBounds s.desk.scr x y w h) ≠
            boundsOf (s.desk.surfaces idx) → Addressed s sender idx target
      | .setTitle title => idx < s.desk.surfaceCount → (s.desk.surfaces idx).valid = true →
          titleText title ≠ (s.desk.surfaces idx).title → Addressed s sender idx target
      | .beginMove _ _ => idx < s.desk.surfaceCount → (s.desk.surfaces idx).valid = true →
          Addressed s sender idx target ∧ Free s.desk s.desk.focusedIdx idx sender ∧
            Free s.desk s.desk.dragIdx idx sender
      | .gpuReady _ _ _ _ => owned s.desk sender idx (generationOf target) →
          (s.desk.surfaces idx).isGpu = true → (s.desk.surfaces idx).level = .normal →
          Free s.desk s.desk.focusedIdx idx sender
      | _ => True
  | .create _ _ => s.births < 2 ^ 32 - 1
  | _ => True

def start (scr : Screen) : State := ⟨emptyDesk scr, 0, fun _ => 0⟩

/-! ## What can be seen of a surface -/

/-- Geometry, title, stacking, existence, dirty state, drag and focus. -/
structure View where
  x : ℤ
  y : ℤ
  w : ℕ
  h : ℕ
  title : List Byte
  zSeq : ℕ
  valid : Bool
  generation : ℕ
  dirty : Bool
  dirtyRect : ℕ × ℕ × ℕ × ℕ
  dirtyRestore : Bool
  dragged : Option (ℤ × ℤ)
  focused : Bool
  deriving DecidableEq

def view (d : Desk) (i : ℕ) : View where
  x := (d.surfaces i).x
  y := (d.surfaces i).y
  w := (d.surfaces i).w
  h := (d.surfaces i).h
  title := (d.surfaces i).title
  zSeq := (d.surfaces i).zSeq
  valid := (d.surfaces i).valid
  generation := (d.surfaces i).generation
  dirty := (d.surfaces i).dirty
  dirtyRect := ((d.surfaces i).dirtyX, (d.surfaces i).dirtyY, (d.surfaces i).dirtyW,
    (d.surfaces i).dirtyH)
  dirtyRestore := (d.surfaces i).dirtyRestore
  dragged := if d.dragIdx = some i then some (d.dragOffX, d.dragOffY) else none
  focused := decide (d.focusedIdx = some i)

variable {i : ℕ} {s : State}

/-- All that can be seen is in these variables. -/
theorem view_congr (hs : t.surfaces i = d.surfaces i) (hd : t.dragIdx = some i ↔ d.dragIdx = some i)
    (ho : d.dragIdx = some i → t.dragOffX = d.dragOffX ∧ t.dragOffY = d.dragOffY)
    (hf : t.focusedIdx = some i ↔ d.focusedIdx = some i) : view t i = view d i := by
  have hdrag : (if t.dragIdx = some i then some (t.dragOffX, t.dragOffY) else none) =
      if d.dragIdx = some i then some (d.dragOffX, d.dragOffY) else none := by
    by_cases h : d.dragIdx = some i
    · rw [if_pos h, if_pos (hd.mpr h), (ho h).1, (ho h).2]
    · rw [if_neg h, if_neg fun h' => h (hd.mp h')]
  unfold view
  rw [hs, hdrag]
  simp only [hf]

/-- Nothing else than the surface in slot `idx` and surfaces of the sender is changed. -/
def OnlyAt (d t : Desk) (idx sender : ℕ) : Prop :=
  ∀ i ≠ idx, (d.surfaces i).ownerPid ≠ sender → view t i = view d i

/-! ## Each call -/

section Calls

variable {d : Desk} {idx : ℕ}

/-- A surface is replaced, and drag and focus stay. -/
theorem onlyAt_update {s : Surface} (hs : t.surfaces = update d.surfaces idx s)
    (hd : t.dragIdx = d.dragIdx) (hx : t.dragOffX = d.dragOffX) (hy : t.dragOffY = d.dragOffY)
    (hf : t.focusedIdx = d.focusedIdx) : OnlyAt d t idx sender := by
  intro i hi _
  refine view_congr ?_ (by rw [hd]) (fun _ => ⟨hx, hy⟩) (by rw [hf])
  rw [hs, update_of_ne hi]

theorem setBounds_onlyAt (d : Desk) (idx sender : ℕ) (x y : ℤ) (w h : ℕ) :
    setBounds d idx x y w h = d ∨ (idx < d.surfaceCount ∧ (d.surfaces idx).valid = true ∧
      boundsOf ((d.surfaces idx).withBounds d.scr x y w h) ≠ boundsOf (d.surfaces idx)) ∧
      OnlyAt d (setBounds d idx x y w h) idx sender := by
  unfold setBounds
  dsimp only
  by_cases hno : d.surfaceCount ≤ idx ∨ (d.surfaces idx).valid = false
  · exact .inl (if_pos hno)
  rw [if_neg hno]
  simp only [not_or, not_le, Bool.not_eq_false] at hno
  by_cases hsame : boundsOf ((d.surfaces idx).withBounds d.scr x y w h) = boundsOf (d.surfaces idx)
  · -- nothing is reported, and the surface is stored as it is
    simp only [boundsOf, Prod.mk.injEq] at hsame
    obtain ⟨hx, hy, hw, hh⟩ := hsame
    have hself : (d.surfaces idx).withBounds d.scr x y w h = d.surfaces idx := by
      unfold Surface.withBounds Surface.clamped at hx hy hw hh ⊢
      simp only at hx hy hw hh ⊢
      rw [hx, hy, hw, hh]
    rw [if_neg (by simp [hx, hy, hw, hh]), hself]
    exact .inl (by rw [Desk.setSurface, update_eq_self])
  · refine .inr ⟨⟨hno.1, hno.2, hsame⟩, ?_⟩
    split
    · exact onlyAt_update rfl rfl rfl rfl rfl
    · exact onlyAt_update rfl rfl rfl rfl rfl

theorem setTitle_onlyAt (d : Desk) (idx sender : ℕ) (title : List Byte) :
    (∀ i, view (setTitle d idx title) i = view d i) ∨
      (idx < d.surfaceCount ∧ (d.surfaces idx).valid = true ∧
        titleText title ≠ (d.surfaces idx).title) ∧ OnlyAt d (setTitle d idx title) idx sender := by
  unfold setTitle
  by_cases hno : d.surfaceCount ≤ idx ∨ (d.surfaces idx).valid = false
  · exact .inl fun i => by rw [if_pos hno]
  rw [if_neg hno]
  simp only [not_or, not_le, Bool.not_eq_false] at hno
  by_cases hsame : titleText title = (d.surfaces idx).title
  · refine .inl fun i => view_congr ?_ Iff.rfl (fun _ => ⟨rfl, rfl⟩) Iff.rfl
    show update d.surfaces idx { d.surfaces idx with title := titleText title } i = _
    rw [hsame, update_eq_self]
  · exact .inr ⟨⟨hno.1, hno.2, hsame⟩, onlyAt_update rfl rfl rfl rfl rfl⟩

/-- A slot that no other client has. -/
theorem Free.iff (h : Free d cur idx sender) (hi : i ≠ idx) (ho : (d.surfaces i).ownerPid ≠ sender) :
    some idx = some i ↔ cur = some i :=
  ⟨fun heq => absurd (Option.some.inj heq).symm hi, fun heq => ((h i heq).elim hi ho).elim⟩

theorem beginMove_onlyAt (d : Desk) (idx sender : ℕ) (x y : ℤ) :
    beginMove d idx x y = d ∨ (idx < d.surfaceCount ∧ (d.surfaces idx).valid = true) ∧
      (Free d d.focusedIdx idx sender → Free d d.dragIdx idx sender →
        OnlyAt d (beginMove d idx x y) idx sender) := by
  unfold beginMove
  by_cases hno : d.surfaceCount ≤ idx ∨ (d.surfaces idx).valid = false
  · exact .inl (if_pos hno)
  rw [if_neg hno]
  simp only [not_or, not_le, Bool.not_eq_false] at hno
  refine .inr ⟨hno, fun hf hd i hi ho => ?_⟩
  have hdrag : d.dragIdx ≠ some i := fun h => hi (Option.some.inj ((hd.iff hi ho).mpr h)).symm
  unfold raise
  split
  · refine view_congr ?_ (hd.iff hi ho) (fun h => absurd h hdrag) (hf.iff hi ho)
    exact update_of_ne hi ..
  · exact view_congr rfl (hd.iff hi ho) (fun h => absurd h hdrag) (hf.iff hi ho)

theorem release_iff (hi : i ≠ idx) :
    release cur idx = some i ↔ cur = some i := by
  unfold release
  split
  · rename_i h
    rw [h]
    constructor
    · intro h'
      cases h'
    · intro h'
      exact absurd (Option.some.inj h').symm hi
  · rfl

theorem destroySurface_onlyAt (d : Desk) (idx sender : ℕ) :
    OnlyAt d (destroySurface d idx) idx sender := by
  intro i hi _
  unfold destroySurface
  by_cases hno : d.surfaceCount ≤ idx ∨ (d.surfaces idx).valid = false
  · rw [if_pos hno]
  rw [if_neg hno]
  exact view_congr (update_of_ne hi ..) (release_iff hi) (fun _ => ⟨rfl, rfl⟩)
    (release_iff hi)

theorem surfaceDirty_onlyAt (d : Desk) (sender idx generation : ℕ) (m : DirtyMsg) :
    surfaceDirty d sender idx generation m = d ∨ owned d sender idx generation ∧
      OnlyAt d (surfaceDirty d sender idx generation m) idx sender := by
  unfold surfaceDirty
  by_cases hown : owned d sender idx generation
  · rw [if_pos hown]
    exact .inr ⟨hown, onlyAt_update rfl rfl rfl rfl rfl⟩
  · exact .inl (if_neg hown)

theorem destroyMsg_onlyAt (d : Desk) (sender idx generation : ℕ) :
    destroyMsg d sender idx generation = d ∨ owned d sender idx generation ∧
      OnlyAt d (destroyMsg d sender idx generation) idx sender := by
  unfold destroyMsg
  by_cases hown : owned d sender idx generation
  · rw [if_pos hown]
    exact .inr ⟨hown, destroySurface_onlyAt d idx sender⟩
  · exact .inl (if_neg hown)

theorem surfaceGpuReady_onlyAt (d : Desk) (sender idx generation resId ctxId texW texH : ℕ)
    (hf : owned d sender idx generation → (d.surfaces idx).isGpu = true →
      (d.surfaces idx).level = .normal → Free d d.focusedIdx idx sender) :
    surfaceGpuReady d sender idx generation resId ctxId texW texH = d ∨
      owned d sender idx generation ∧
        OnlyAt d (surfaceGpuReady d sender idx generation resId ctxId texW texH) idx sender := by
  unfold surfaceGpuReady
  by_cases hown : owned d sender idx generation ∧ (d.surfaces idx).isGpu = true
  · rw [if_pos hown]
    refine .inr ⟨hown.1, fun i hi ho => ?_⟩
    split
    · next hlevel =>
      exact view_congr (update_of_ne hi ..) Iff.rfl (fun _ => ⟨rfl, rfl⟩)
        ((hf hown.1 hown.2 hlevel).iff hi ho)
    · exact view_congr (update_of_ne hi ..) Iff.rfl (fun _ => ⟨rfl, rfl⟩) Iff.rfl
  · exact .inl (if_neg hown)

end Calls

/-! ## Generations -/

theorem handle_kept (d : Desk) (sender idx generation : ℕ) (m : Msg) :
    Kept d (handle d sender idx generation m) := by
  cases m with
  | setBounds x y w h => exact setBounds_kept d idx x y w h
  | setTitle title => exact setTitle_kept d idx title
  | beginMove x y => exact beginMove_kept d idx x y
  | dirty m => exact surfaceDirty_kept d sender idx generation m
  | destroy => exact destroyMsg_kept d sender idx generation
  | gpuReady resId ctxId texW texH =>
    exact surfaceGpuReady_kept d sender idx generation resId ctxId texW texH

theorem generationOf_inj (ha : a < 2 ^ 32 - 1) (hb : b < 2 ^ 32 - 1)
    (h : generationOf a = generationOf b) : a = b := by
  unfold generationOf at h
  omega

/-- Generations are given in order. -/
theorem nextGeneration_generationOf (n : ℕ) :
    nextGeneration (generationOf n) = generationOf (n + 1) := by
  unfold nextGeneration tick generationOf
  split <;> omega

/-- Every surface has the generation of its creation number. -/
structure Inv (s : State) : Prop where
  counter : nextGeneration s.desk.generationCounter = generationOf s.births
  births : s.births ≤ 2 ^ 32 - 1
  generation : ∀ i, (s.desk.surfaces i).valid = true →
    (s.desk.surfaces i).generation = generationOf (s.born i) ∧ s.born i < s.births

theorem Inv.kept (h : Inv s) (hk : Kept s.desk t) :
    Inv { s with desk := t } where
  counter := by
    rw [hk.counter]
    exact h.counter
  births := h.births
  generation := by
    intro i hv
    obtain ⟨hv', hg, -⟩ := hk.valid i hv
    rw [hg]
    exact h.generation i hv'

theorem Inv.create (h : Inv s) (hb : s.births < 2 ^ 32 - 1) :
    Inv (exec s (.create m memOk)) := by
  show Inv (match freeSlot s.desk with
    | none => s
    | some slot =>
      { desk := spawnSurfaceCustom s.desk m memOk
        births := s.births + 1
        born := update s.born slot s.births })
  cases hslot : freeSlot s.desk with
  | none => exact h
  | some slot =>
    unfold spawnSurfaceCustom
    rw [hslot]
    exact
      { counter := by
          rw [h.counter, nextGeneration_generationOf]
        births := hb
        generation := by
          intro i hv
          dsimp only at hv ⊢
          by_cases hi : i = slot
          · subst hi
            rw [update_self, update_self]
            exact ⟨h.counter, Nat.lt_succ_self _⟩
          rw [update_of_ne hi] at hv ⊢
          rw [update_of_ne hi]
          obtain ⟨hg, hlt⟩ := h.generation i hv
          exact ⟨hg, Nat.lt_succ_of_lt hlt⟩ }

theorem Inv.step (h : Inv s) (hg : Guard s l) (hs : Step s l t) :
    Inv t := by
  obtain rfl := hs
  cases l with
  | message => exact h.kept (handle_kept ..)
  | create => exact h.create hg
  | destroyByPid => exact h.kept (destroyByPid_kept ..)
  | cull => exact h.kept (cull_kept ..)

/-! ## The result -/

/-- A handler changes one slot, for its owner, and what the owner has beside it. -/
theorem Inv.handle (h : Inv s) (hg : Guard s (.message sender idx target m)) :
    (∀ i, view (Composer.Authority.handle s.desk sender idx (generationOf target) m) i =
        view s.desk i) ∨
      ((s.desk.surfaces idx).valid = true ∧ Addressed s sender idx target) ∧
        OnlyAt s.desk (Composer.Authority.handle s.desk sender idx (generationOf target) m) idx
          sender := by
  obtain ⟨htarget, hg⟩ := hg
  have hsame : ∀ {t}, t = s.desk → ∀ i, view t i = view s.desk i := fun h i => h ▸ rfl
  have howned : owned s.desk sender idx (generationOf target) →
      (s.desk.surfaces idx).valid = true ∧ Addressed s sender idx target := by
    rintro ⟨-, hv, hgen, hown⟩
    obtain ⟨hborn, hlt⟩ := h.generation idx hv
    have hbirths := h.births
    exact ⟨hv, hown, generationOf_inj (by omega) htarget (hborn.symm.trans hgen)⟩
  cases m with
  | setBounds x y w h' =>
    rcases setBounds_onlyAt s.desk idx sender x y w h' with heq | ⟨⟨hc, hv, hne⟩, hat⟩
    · exact .inl (hsame heq)
    · exact .inr ⟨⟨hv, hg hc hv hne⟩, hat⟩
  | setTitle title =>
    rcases setTitle_onlyAt s.desk idx sender title with heq | ⟨⟨hc, hv, hne⟩, hat⟩
    · exact .inl heq
    · exact .inr ⟨⟨hv, hg hc hv hne⟩, hat⟩
  | beginMove x y =>
    rcases beginMove_onlyAt s.desk idx sender x y with heq | ⟨⟨hc, hv⟩, hat⟩
    · exact .inl (hsame heq)
    · obtain ⟨haddr, hfocus, hdrag⟩ := hg hc hv
      exact .inr ⟨⟨hv, haddr⟩, hat hfocus hdrag⟩
  | dirty m =>
    rcases surfaceDirty_onlyAt s.desk sender idx (generationOf target) m with heq | ⟨hown, hat⟩
    · exact .inl (hsame heq)
    · exact .inr ⟨howned hown, hat⟩
  | destroy =>
    rcases destroyMsg_onlyAt s.desk sender idx (generationOf target) with heq | ⟨hown, hat⟩
    · exact .inl (hsame heq)
    · exact .inr ⟨howned hown, hat⟩
  | gpuReady resId ctxId texW texH =>
    rcases surfaceGpuReady_onlyAt s.desk sender idx (generationOf target) resId ctxId texW texH hg
      with heq | ⟨hown, hat⟩
    · exact .inl (hsame heq)
    · exact .inr ⟨howned hown, hat⟩

theorem inv_start (scr : Screen) : Inv (start scr) where
  counter := show nextGeneration 0 = generationOf 0 from rfl
  births := Nat.zero_le _
  generation := nofun

/-- **Authority over surfaces.**  In a run of well-behaved clients, a message changes what can be
seen of the surface in a slot only if it comes from the owner of this surface; and if it is the slot
that the message names, the slot has a surface, and the message is addressed to this one and not to
an earlier one in the slot. -/
theorem surface_authority {scr : Screen} {ls : List Label} {s : State} {sender idx target i : ℕ}
    {m : Msg} (hrun : Run Step Guard (start scr) ls s)
    (hg : Guard s (.message sender idx target m))
    (hne : view (exec s (.message sender idx target m)).desk i ≠ view s.desk i) :
    (s.desk.surfaces i).ownerPid = sender ∧
      (i = idx → (s.desk.surfaces i).valid = true ∧ s.born i = target) := by
  have h : Inv s := hrun.invariant (inv_start scr) fun s l t h hg hs => h.step hg hs
  rcases h.handle hg with heq | ⟨⟨hv, haddr⟩, hat⟩
  · exact absurd (heq i) hne
  by_cases hi : i = idx
  · subst hi
    exact ⟨haddr.1, fun _ => ⟨hv, haddr.2⟩⟩
  · exact ⟨by_contra fun ho => hne (hat i hi ho), fun h => absurd h hi⟩

/-- A small screen. -/
def smallScreen : Screen := ⟨640, 480⟩

/-- A client asks for a window. -/
def request (pid : ℕ) : CreateMsg where
  x := 10
  y := 10
  w := 100
  h := 100
  flags := 0
  ownerPid := pid
  replyPort := 1
  title := []

/-- The window of one client. -/
def oneClient : State := exec (start smallScreen) (.create (request 10) true)

/-- Its window is destroyed, and another client gets the slot. -/
def secondClient : State :=
  exec (exec oneClient (.message 10 0 0 .destroy)) (.create (request 20) true)

/-- The second client marks its window as dirty, and owns it; the window that was in the slot before
cannot be destroyed any more. -/
theorem owner_marks_window :
    ((secondClient.desk.surfaces 0).ownerPid = 20 ∧
      ((0 : ℕ) = 0 → (secondClient.desk.surfaces 0).valid = true ∧ secondClient.born 0 = 1)) ∧
    view (exec secondClient (.message 10 0 0 .destroy)).desk 0 = view secondClient.desk 0 := by
  have hrun : Run Step Guard (start smallScreen)
      [.create (request 10) true, .message 10 0 0 .destroy, .create (request 20) true]
      secondClient :=
    Run.cons (show 0 < 2 ^ 32 - 1 by decide) rfl <| Run.cons ⟨by decide, trivial⟩ rfl <|
      Run.cons (show 1 < 2 ^ 32 - 1 by decide) rfl .nil
  refine ⟨surface_authority (m := .dirty ⟨0, 0, 0, 0, 0⟩) hrun ⟨by decide, trivial⟩
    (by decide +kernel), ?_⟩
  by_contra hne
  have hown := (surface_authority hrun ⟨by decide, trivial⟩ hne).1
  revert hown
  decide +kernel

/-- **Strangers change surfaces.**  A client moves a window of another one, and a message to a window
that is gone changes the title of the next window in the slot. -/
theorem strangers_change_surfaces :
    (∃ ls, Run Step (fun _ _ => True) (start smallScreen) ls oneClient ∧
      (oneClient.desk.surfaces 0).ownerPid ≠ 20 ∧
      ((exec oneClient (.message 20 0 0 (.setBounds 50 50 0 0))).desk.surfaces 0).x ≠
        (oneClient.desk.surfaces 0).x) ∧
    ∃ ls, Run Step (fun _ _ => True) (start smallScreen) ls secondClient ∧
      secondClient.born 0 = 1 ∧
      ((exec secondClient (.message 10 0 0 (.setTitle [65#8]))).desk.surfaces 0).title ≠
        (secondClient.desk.surfaces 0).title := by
  have hone : Run Step (fun _ _ => True) (start smallScreen) [.create (request 10) true] oneClient :=
    Run.cons trivial rfl .nil
  refine ⟨⟨_, hone, by decide +kernel, by decide +kernel⟩, ?_⟩
  refine ⟨_, hone.trans (Run.cons trivial rfl (Run.cons trivial rfl .nil)), ?_, ?_⟩
  · decide +kernel
  · decide +kernel

end Xos.Composer.Authority
