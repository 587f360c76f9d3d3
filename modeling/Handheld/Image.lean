/-!
# Images

The contents of a cartridge or of a boot ROM. An image has any length; what
lies past its end reads as `FF`. A cartridge carries its title in its header.
-/

namespace Handheld

abbrev Image := ByteArray

namespace Image

/-- The byte at a position, `FF` past the end. -/
def byteAt (image : Image) (i : Nat) : UInt8 := image[i]?.getD 0xFF

def titleStart : Nat := 0x134

def titleEnd : Nat := 0x143

def titleByte (b : UInt8) : Bool := decide (0x20 ≤ b) && decide (b ≤ 0x7E)

def trimEnd (cs : List Char) : List Char := (cs.reverse.dropWhile (· = ' ')).reverse

/-- The title of a cartridge, if its header is complete and names one: the bytes
up to the first zero, without those that cannot be shown and without the spaces
at the end. -/
def title? (image : Image) : Option String :=
  if image.size < titleEnd then none
  else
    let field := (image.extract titleStart titleEnd).toList
    let shown := (field.takeWhile (· ≠ 0)).filter titleByte
    match trimEnd (shown.map fun b => Char.ofNat b.toNat) with
    | [] => none
    | title => some (String.ofList title)

end Image

end Handheld
