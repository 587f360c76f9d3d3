import Handheld.Flags
import Handheld.Word

/-!
# Arithmetic and logic

The results and flags of the eight accumulator operations, the shifts and
rotates, the decimal adjustment and the two 16-bit additions, as functions of
their operands. Sums are compared as natural numbers, so a carry is a sum that
does not fit and a borrow is a difference below zero.
-/

namespace Handheld

inductive AluOp where
  | add
  | adc
  | sub
  | sbc
  | and
  | xor
  | or
  | cp
  deriving DecidableEq, Repr

inductive ShiftOp where
  | rlc
  | rrc
  | rl
  | rr
  | sla
  | sra
  | swap
  | srl
  deriving DecidableEq, Repr

namespace AluOp

def ofBits : Fin 8 → AluOp
  | 0 => .add
  | 1 => .adc
  | 2 => .sub
  | 3 => .sbc
  | 4 => .and
  | 5 => .xor
  | 6 => .or
  | 7 => .cp

def name : AluOp → String
  | .add => "ADD A,"
  | .adc => "ADC A,"
  | .sub => "SUB"
  | .sbc => "SBC A,"
  | .and => "AND"
  | .xor => "XOR"
  | .or => "OR"
  | .cp => "CP"

end AluOp

namespace ShiftOp

def ofBits : Fin 8 → ShiftOp
  | 0 => .rlc
  | 1 => .rrc
  | 2 => .rl
  | 3 => .rr
  | 4 => .sla
  | 5 => .sra
  | 6 => .swap
  | 7 => .srl

def name : ShiftOp → String
  | .rlc => "RLC"
  | .rrc => "RRC"
  | .rl => "RL"
  | .rr => "RR"
  | .sla => "SLA"
  | .sra => "SRA"
  | .swap => "SWAP"
  | .srl => "SRL"

end ShiftOp

namespace Alu

def sum (a b : UInt8) (carry : Bool) : UInt8 × Flags :=
  let c := carry.toNat
  let result := a + b + UInt8.ofNat c
  (result,
    { zero := result == 0
      subtract := false
      halfCarry := decide (a.toNat % 16 + b.toNat % 16 + c > 15)
      carry := decide (a.toNat + b.toNat + c > 255) })

def difference (a b : UInt8) (borrow : Bool) : UInt8 × Flags :=
  let c := borrow.toNat
  let result := a - b - UInt8.ofNat c
  (result,
    { zero := result == 0
      subtract := true
      halfCarry := decide (a.toNat % 16 < b.toNat % 16 + c)
      carry := decide (a.toNat < b.toNat + c) })

def bitwise (result : UInt8) (halfCarry : Bool) : UInt8 × Flags :=
  (result, { zero := result == 0, halfCarry })

/-- The result and flags of an operation on the accumulator `a`. A comparison
gives the flags of a subtraction; its result is not kept. -/
def compute (op : AluOp) (a value : UInt8) (carry : Bool) : UInt8 × Flags :=
  match op with
  | .add => sum a value false
  | .adc => sum a value carry
  | .sub => difference a value false
  | .sbc => difference a value carry
  | .and => bitwise (a &&& value) true
  | .xor => bitwise (a ^^^ value) false
  | .or => bitwise (a ||| value) false
  | .cp => difference a value false

def increment (v : UInt8) (f : Flags) : UInt8 × Flags :=
  (v + 1, { f with zero := v + 1 == 0, subtract := false, halfCarry := Byte.lowNibble v == 15 })

def decrement (v : UInt8) (f : Flags) : UInt8 × Flags :=
  (v - 1, { f with zero := v - 1 == 0, subtract := true, halfCarry := Byte.lowNibble v == 0 })

def testBit (v : UInt8) (i : Fin 8) (f : Flags) : Flags :=
  { f with zero := !Byte.bit v i, subtract := false, halfCarry := true }

-- ---------------------------------------------------------------------------
-- Shifts
-- ---------------------------------------------------------------------------

/-- The shifted byte and the bit that was shifted out; a swap of the nibbles
shifts none out. -/
def shift (op : ShiftOp) (value : UInt8) (carry : Bool) : UInt8 × Bool :=
  let top := decide (value ≥ 0x80)
  let bottom := decide (value % 2 = 1)
  match op with
  | .rlc => (value * 2 + (if top then 1 else 0), top)
  | .rrc => (value / 2 + (if bottom then 0x80 else 0), bottom)
  | .rl => (value * 2 + (if carry then 1 else 0), top)
  | .rr => (value / 2 + (if carry then 0x80 else 0), bottom)
  | .sla => (value * 2, top)
  | .sra => (value / 2 + (if top then 0x80 else 0), bottom)
  | .swap => (value * 16 + value / 16, false)
  | .srl => (value / 2, bottom)

-- ---------------------------------------------------------------------------
-- Decimal adjustment
-- ---------------------------------------------------------------------------

/-- The accumulator corrected to two decimal digits after an addition or a
subtraction, with the flags that follow. The high digit is corrected before
the low one. -/
def decimalAdjust (a : UInt8) (f : Flags) : UInt8 × Flags :=
  if f.subtract then
    let high := if f.carry then a - 0x60 else a
    let result := if f.halfCarry then high - 0x06 else high
    (result, { f with zero := result == 0, halfCarry := false })
  else
    let carry := f.carry || decide (a > 0x99)
    let high := if carry then a + 0x60 else a
    let result := if f.halfCarry || decide (Byte.lowNibble high > 9) then high + 0x06 else high
    (result, { f with zero := result == 0, halfCarry := false, carry })

-- ---------------------------------------------------------------------------
-- Words
-- ---------------------------------------------------------------------------

def sumWords (hl value : UInt16) (f : Flags) : UInt16 × Flags :=
  (hl + value,
    { zero := f.zero
      subtract := false
      halfCarry := decide (hl.toNat % 4096 + value.toNat % 4096 > 4095)
      carry := decide (hl.toNat + value.toNat > 65535) })

/-- A word plus a signed offset. Half-carry and carry are those of adding the
offset, as an unsigned byte, to the low byte of the word. -/
def offsetWord (sp : UInt16) (offset : UInt8) : UInt16 × Flags :=
  (sp + Byte.signExtend offset,
    { halfCarry := decide (sp.toNat % 16 + offset.toNat % 16 > 15)
      carry := decide (sp.toNat % 256 + offset.toNat > 255) })

end Alu

end Handheld
