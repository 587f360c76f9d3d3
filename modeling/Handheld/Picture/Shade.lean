/-!
# Shades and palettes

The screen shows four shades of grey. A palette byte holds a shade, two bits
wide, for each of the four colors a tile can use.
-/

namespace Handheld

inductive Shade where
  | white
  | light
  | dark
  | black
  deriving DecidableEq, Repr, Inhabited

namespace Shade

def ofBits (b : UInt8) : Shade :=
  if b % 4 = 0 then .white
  else if b % 4 = 1 then .light
  else if b % 4 = 2 then .dark
  else .black

def toNat : Shade → Nat
  | .white => 0
  | .light => 1
  | .dark => 2
  | .black => 3

/-- The grey level, the same in red, green and blue. -/
def level : Shade → UInt8
  | .white => 0xFF
  | .light => 0xAA
  | .dark => 0x55
  | .black => 0x00

def ofPalette (palette : UInt8) (color : Fin 4) : Shade :=
  ofBits (palette >>> UInt8.ofNat (color.val * 2))

end Shade

end Handheld
