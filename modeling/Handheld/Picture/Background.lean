import Handheld.Picture.Basic
import Handheld.Picture.Frame
import Handheld.Picture.Tile

/-!
# The background

The background is a map of 32 by 32 tiles that repeats in both directions. The
screen shows it from the scroll position on, through the palette. Rendering
looks every pixel of a viewport up; with the background switched off the frame
is white.
-/

namespace Handheld.Picture

def backgroundOn (p : Picture) : Bool := p.lcdc &&& 0x01 != 0

def addressing (p : Picture) : Tile.Addressing :=
  if p.lcdc &&& 0x10 = 0 then .signed else .unsigned

def map (p : Picture) : Tile.Map := if p.lcdc &&& 0x08 = 0 then .low else .high

def videoByte (p : Picture) (address : Nat) : UInt8 :=
  p.video.get ⟨(address - 0x8000) % 0x2000, Nat.mod_lt _ (by decide)⟩

def tileIndex (p : Picture) (cellX cellY : Nat) : UInt8 :=
  p.videoByte (p.map.base + (cellY * 32 + cellX))

def rowAddress (p : Picture) (index : UInt8) (row : Nat) : Nat :=
  Tile.address index p.addressing + row * 2

def color (p : Picture) (x y : Nat) : Fin 4 :=
  let bgX := (x + p.scx.toNat) % Viewport.side
  let bgY := (y + p.scy.toNat) % Viewport.side
  let start := p.rowAddress (p.tileIndex (bgX / 8) (bgY / 8)) (bgY % 8)
  Tile.color (p.videoByte start) (p.videoByte (start + 1)) ⟨bgX % 8, Nat.mod_lt _ (by decide)⟩

def pixel (p : Picture) (x y : Nat) : Shade :=
  if p.backgroundOn then Shade.ofPalette p.bgp (p.color x y) else .white

/-- The frame that a viewport shows, its axes clamped to the background. -/
def render (p : Picture) (v : Viewport) : Frame :=
  if p.backgroundOn then Frame.ofFn v.clamped.width v.clamped.height p.pixel
  else Frame.blank v

end Handheld.Picture
