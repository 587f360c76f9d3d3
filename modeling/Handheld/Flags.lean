import Handheld.Text

/-!
# Condition flags

Four flags, kept as four truth values. As a byte they fill the high nibble;
the low nibble does not exist, so it reads as zero and writes to it are lost.
-/

namespace Handheld

inductive Flag where
  | zero
  | subtract
  | halfCarry
  | carry
  deriving DecidableEq, Repr

/-- With bitflags' `from_bits_retain` a value could be made that keeps bits of the low
nibble, and `set_flags` would store it. None ever is made, and the four truth values
leave such values out. -/
structure Flags where
  zero : Bool := false
  subtract : Bool := false
  halfCarry : Bool := false
  carry : Bool := false
  deriving DecidableEq, Repr, Inhabited

namespace Flags

def get (f : Flags) : Flag → Bool
  | .zero => f.zero
  | .subtract => f.subtract
  | .halfCarry => f.halfCarry
  | .carry => f.carry

def set (f : Flags) (flag : Flag) (on : Bool) : Flags :=
  match flag with
  | .zero => { f with zero := on }
  | .subtract => { f with subtract := on }
  | .halfCarry => { f with halfCarry := on }
  | .carry => { f with carry := on }

theorem get_set (f : Flags) (x y : Flag) (on : Bool) :
    (f.set x on).get y = if y = x then on else f.get y := by
  cases x <;> cases y <;> simp [get, set]

def toByte (f : Flags) : UInt8 :=
  (if f.zero then 0x80 else 0) ||| (if f.subtract then 0x40 else 0) |||
    (if f.halfCarry then 0x20 else 0) ||| (if f.carry then 0x10 else 0)

def ofByte (b : UInt8) : Flags where
  zero := b &&& 0x80 != 0
  subtract := b &&& 0x40 != 0
  halfCarry := b &&& 0x20 != 0
  carry := b &&& 0x10 != 0

@[simp] theorem ofByte_toByte (f : Flags) : ofByte f.toByte = f := by
  obtain ⟨z, n, h, c⟩ := f
  cases z <;> cases n <;> cases h <;> cases c <;> decide

def digits (f : Flags) : String := String.ofList (Text.bits 4 (f.toByte.toNat / 16))

end Flags

end Handheld
