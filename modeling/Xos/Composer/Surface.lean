import Mathlib.Algebra.Order.Ring.Int
import Xos.Lib.Bytes

/-!
# Surfaces

The windows of `userspace/services/composer/main.c`: where a surface is, what it shows, who owns it
and what the composer remembers of it.  Coordinates are of the type `int`, sizes are unsigned; a sum
of coordinates that leaves the range of `int` wraps.
-/

namespace Xos.Composer

open Xos.Lib

/-- The value as an `int32_t`. -/
def int32 (z : ℤ) : ℤ := z.bmod (2 ^ 32)

/-- The points with `x0 ≤ x < x1` and `y0 ≤ y < y1`. -/
structure Rect where
  x0 : ℤ
  y0 : ℤ
  x1 : ℤ
  y1 : ℤ
  deriving DecidableEq

/-- The smallest rectangle around two. -/
def Rect.join (r s : Rect) : Rect :=
  ⟨min r.x0 s.x0, min r.y0 s.y0, max r.x1 s.x1, max r.y1 s.y1⟩

/-- A pixel: alpha, red, green and blue. -/
abbrev Pixel := BitVec 32

/-- `SURF_LEVEL_*`. -/
inductive Level where
  | desktop
  | normal
  | panel
  | overlay
  deriving DecidableEq

/-- `MAX_SURFACES`. -/
def maxSurfaces : ℕ := 8

/-- `WM_TITLE_BAR_H`. -/
def titleBarH : ℤ := 28

/-- `WM_FLAG_PANEL | WM_FLAG_OVERLAY | WM_FLAG_CLIENT_CHROME`. -/
def plainFlags : ℕ := 0x43

/-- `surface_info_t`. -/
structure Surface where
  x : ℤ
  y : ℤ
  w : ℕ
  h : ℕ
  /-- `NULL`, or the shared buffer. -/
  pixels : Option (ℕ → Pixel)
  level : Level
  zSeq : ℕ
  valid : Bool
  generation : ℕ
  ownerPid : ℕ
  replyPort : ℕ
  dirty : Bool
  dirtyX : ℕ
  dirtyY : ℕ
  dirtyW : ℕ
  dirtyH : ℕ
  dirtyRestore : Bool
  hidden : Bool
  flags : ℕ
  title : List Byte
  isGpu : Bool
  gpuResId : ℕ
  gpuCtxId : ℕ
  gpuSvHandle : ℕ
  gpuTexW : ℕ
  gpuTexH : ℕ

namespace Surface

variable (s : Surface)

/-- `surface_decorated`. -/
def decorated : Prop := s.flags &&& plainFlags = 0

instance : Decidable s.decorated := inferInstanceAs (Decidable (_ = _))

/-- `surface_total_h`. -/
def totalH : ℤ := int32 (int32 s.h + if s.decorated then titleBarH else 0)

/-- The rectangle of the window, with its title bar. -/
def bounds : Rect := ⟨s.x, s.y, int32 (s.x + int32 s.w), int32 (s.y + s.totalH)⟩

end Surface

/-- `fb_w` and `fb_h`. -/
structure Screen where
  w : ℤ
  h : ℤ

/-- A rectangle, cut off at the edges of the screen. -/
def Screen.clip (scr : Screen) (r : Rect) : Rect :=
  ⟨max r.x0 0, max r.y0 0, min r.x1 scr.w, min r.y1 scr.h⟩

/-- `surface_is_topmost_in_level`. -/
def topmostInLevel (surfaces : ℕ → Surface) (surfaceCount idx : ℕ) : Bool :=
  (List.range surfaceCount).all fun i =>
    i == idx || !((surfaces i).valid && !(surfaces i).hidden &&
      decide ((surfaces i).level = (surfaces idx).level) &&
      decide ((surfaces idx).zSeq < (surfaces i).zSeq))

end Xos.Composer
