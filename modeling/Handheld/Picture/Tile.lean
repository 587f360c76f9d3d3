import Handheld.Word

/-!
# Tiles

A tile is eight rows of eight pixels, sixteen bytes in all. A row is two bytes,
one for each bit of its colors; the leftmost pixel has the highest bit.
-/

namespace Handheld.Tile

def color (low high : UInt8) (column : Fin 8) : Fin 4 :=
  let bit : Fin 8 := ⟨7 - column.val, by omega⟩
  ⟨(Byte.bit high bit).toNat * 2 + (Byte.bit low bit).toNat, by
    cases Byte.bit high bit <;> cases Byte.bit low bit <;> decide⟩

def row (low high : UInt8) : List (Fin 4) := (List.finRange 8).map (color low high)

inductive Addressing where
  /-- Upwards from `8000`. -/
  | unsigned
  /-- Around `9000`, the number being signed. -/
  | signed
  deriving DecidableEq, Repr

def address (index : UInt8) : Addressing → Nat
  | .unsigned => 0x8000 + index.toNat * 16
  | .signed => if index < 0x80 then 0x9000 + index.toNat * 16 else 0x8000 + index.toNat * 16

inductive Map where
  | low
  | high
  deriving DecidableEq, Repr

def Map.base : Map → Nat
  | .low => 0x9800
  | .high => 0x9C00

end Handheld.Tile
