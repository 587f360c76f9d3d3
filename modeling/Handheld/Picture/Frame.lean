import Handheld.Picture.Shade

/-!
# Viewports and frames

A viewport is the part of the 256 by 256 background that is shown; a frame is
the shades of its pixels, row by row.
-/

namespace Handheld

structure Viewport where
  width : Nat
  height : Nat
  deriving DecidableEq, Repr

namespace Viewport

/-- The side of the background, and the most an axis can show. -/
def side : Nat := 256

def screen : Viewport := ⟨160, 144⟩

def axisValid (n : Nat) : Bool := decide (1 ≤ n) && decide (n ≤ side)

def valid (v : Viewport) : Bool := axisValid v.width && axisValid v.height

def clampAxis (n : Nat) : Nat := max 1 (min n side)

def clamped (v : Viewport) : Viewport := ⟨clampAxis v.width, clampAxis v.height⟩

end Viewport

structure Frame where
  width : Nat
  height : Nat
  pixels : Array Shade

namespace Frame

/-- The frame whose pixel at column `x` and row `y` is `f x y`. -/
def ofFn (width height : Nat) (f : Nat → Nat → Shade) : Frame where
  width := width
  height := height
  pixels := Array.ofFn fun i : Fin (width * height) => f (i.val % width) (i.val / width)

def blank (v : Viewport) : Frame :=
  ⟨v.clamped.width, v.clamped.height,
    Array.replicate (v.clamped.width * v.clamped.height) .white⟩

def get? (f : Frame) (x y : Nat) : Option Shade :=
  if x < f.width ∧ y < f.height then f.pixels[y * f.width + x]? else none

def rgba (f : Frame) : List UInt8 :=
  f.pixels.toList.flatMap fun s => [s.level, s.level, s.level, 0xFF]

def row (f : Frame) (y : Nat) : List Shade :=
  (f.pixels.extract (y * f.width) ((y + 1) * f.width)).toList

def rows (f : Frame) : List (List Shade) := (List.range f.height).map f.row

end Frame

end Handheld
