import Handheld.Instruction.Operation

/-!
# The two instruction tables

An opcode is read as three fields: a block of two bits, a row and a column of
three bits each. One block holds nothing but loads and one nothing but
accumulator arithmetic; the other two are laid out by column. The byte `CB`
selects the second table, in which every opcode means something.
-/

namespace Handheld

namespace Opcode

def extension : UInt8 := 0xCB

def block (opcode : UInt8) : Fin 4 := ⟨opcode.toNat / 64, by have := opcode.toNat_lt; omega⟩

def row (opcode : UInt8) : Fin 8 := ⟨opcode.toNat / 8 % 8, by omega⟩

def column (opcode : UInt8) : Fin 8 := ⟨opcode.toNat % 8, by omega⟩

def pairBits (row : Fin 8) : Fin 4 := ⟨row.val / 2, by omega⟩

def conditionBits (row : Fin 8) : Fin 4 := ⟨row.val % 4, by omega⟩

end Opcode

open Opcode

namespace Operation

def alternate (row : Fin 8) (even odd : Fin 4 → Operation) : Operation :=
  if row.val % 2 = 0 then even (pairBits row) else odd (pairBits row)

def accumulatorRow : Fin 8 → Operation
  | 0 => .rotateAccumulator .rlc
  | 1 => .rotateAccumulator .rrc
  | 2 => .rotateAccumulator .rl
  | 3 => .rotateAccumulator .rr
  | 4 => .decimalAdjust
  | 5 => .complement
  | 6 => .setCarry
  | 7 => .complementCarry

def relativeRow : Fin 8 → Operation
  | 0 => .nop
  | 1 => .storeStackPointer
  | 2 => .unimplemented
  | 3 => .jumpRelative none
  | row => .jumpRelative (some (.ofBits (conditionBits row)))

def firstBlock (row column : Fin 8) : Operation :=
  match column with
  | 0 => relativeRow row
  | 1 => alternate row (fun p => .loadWord (.ofBits p)) (fun p => .addHL (.ofBits p))
  | 2 => alternate row (fun p => .storeThrough (.ofBits p)) (fun p => .loadThrough (.ofBits p))
  | 3 => alternate row (fun p => .incrementWord (.ofBits p)) (fun p => .decrementWord (.ofBits p))
  | 4 => .increment (.ofBits row)
  | 5 => .decrement (.ofBits row)
  | 6 => .loadLiteral (.ofBits row)
  | 7 => accumulatorRow row

/-- Loads between operands. Memory to memory has no instruction. -/
def loadBlock (row column : Fin 8) : Operation :=
  match Operand.ofBits row, Operand.ofBits column with
  | .memory, .memory => .unimplemented
  | target, source => .load target source

/-- A conditional operation in the rows below four, others after. -/
def conditionalRow (op : Option Condition → Operation) (others : Fin 8 → Operation)
    (row : Fin 8) : Operation :=
  if row.val < 4 then op (some (.ofBits (conditionBits row))) else others row

def lastBlock (row column : Fin 8) : Operation :=
  match column with
  | 0 => conditionalRow .ret (fun
      | 4 => .storeLastPage
      | 5 => .addStackPointer
      | 6 => .loadLastPage
      | _ => .hlFromStackPointer) row
  | 1 => match row with
    | 1 => .ret none
    | 3 => .retEnable
    | 5 => .jumpHL
    | 7 => .stackPointerFromHL
    | row => .pop (.ofBits (pairBits row))
  | 2 => conditionalRow .jump (fun
      | 4 => .storeLastPageC
      | 5 => .storeAt
      | 6 => .loadLastPageC
      | _ => .loadFrom) row
  | 3 => match row with
    | 0 => .jump none
    | 1 => .extend
    | 6 => .disableInterrupts
    | 7 => .enableInterrupts
    | _ => .unimplemented
  | 4 => conditionalRow .call (fun _ => .unimplemented) row
  | 5 => match row with
    | 1 => .call none
    | 3 => .unimplemented
    | 5 => .unimplemented
    | 7 => .unimplemented
    | row => .push (.ofBits (pairBits row))
  | 6 => .aluLiteral (.ofBits row)
  | 7 => .restart (UInt8.ofNat (row.val * 8))

def primary (opcode : UInt8) : Operation :=
  match block opcode with
  | 0 => firstBlock (row opcode) (column opcode)
  | 1 => loadBlock (row opcode) (column opcode)
  | 2 => .alu (.ofBits (row opcode)) (.ofBits (column opcode))
  | 3 => lastBlock (row opcode) (column opcode)

def extended (opcode : UInt8) : Operation :=
  let operand := Operand.ofBits (column opcode)
  match block opcode with
  | 0 => .shift (.ofBits (row opcode)) operand
  | 1 => .bit (row opcode) operand
  | 2 => .reset (row opcode) operand
  | 3 => .set (row opcode) operand

end Operation

/-- An instruction as read from memory: where its first byte is, whether an
extension byte came first, the opcode, and the literal that followed. -/
structure Decoded where
  address : UInt16
  prefixed : Bool
  opcode : UInt8
  operation : Operation
  literal : Literal
  deriving DecidableEq, Repr

end Handheld
