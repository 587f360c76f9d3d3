import Handheld.Alu
import Handheld.Registers

/-!
# Operations

What an instruction does, with its operands, apart from the literal that
follows it in memory. Each operation says which literal it takes, how many
cycles it spends without touching the bus, and how long it is documented to
take.
-/

namespace Handheld

inductive Operand where
  | register (r : ByteRegister)
  | memory
  deriving DecidableEq, Repr

inductive Condition where
  | notZero
  | zero
  | notCarry
  | carry
  deriving DecidableEq, Repr

/-- Where the accumulator is loaded from or stored to through a pair; the last
two move HL by one. -/
inductive Pointer where
  | bc
  | de
  | hlIncrement
  | hlDecrement
  deriving DecidableEq, Repr

namespace Operand

def ofBits : Fin 8 → Operand
  | 0 => .register .b
  | 1 => .register .c
  | 2 => .register .d
  | 3 => .register .e
  | 4 => .register .h
  | 5 => .register .l
  | 6 => .memory
  | 7 => .register .a

def name : Operand → String
  | .register r => r.name
  | .memory => "(HL)"

end Operand

namespace Condition

def ofBits : Fin 4 → Condition
  | 0 => .notZero
  | 1 => .zero
  | 2 => .notCarry
  | 3 => .carry

def name : Condition → String
  | .notZero => "NZ"
  | .zero => "Z"
  | .notCarry => "NC"
  | .carry => "C"

def holds (f : Flags) : Condition → Bool
  | .notZero => !f.zero
  | .zero => f.zero
  | .notCarry => !f.carry
  | .carry => f.carry

def met (f : Flags) : Option Condition → Bool
  | none => true
  | some c => c.holds f

end Condition

namespace Pointer

def ofBits : Fin 4 → Pointer
  | 0 => .bc
  | 1 => .de
  | 2 => .hlIncrement
  | 3 => .hlDecrement

def name : Pointer → String
  | .bc => "(BC)"
  | .de => "(DE)"
  | .hlIncrement => "(HL+)"
  | .hlDecrement => "(HL-)"

end Pointer

inductive Operation where
  | unimplemented
  | extend
  | nop
  -- loads
  | load (target source : Operand)
  | loadLiteral (target : Operand)
  | loadWord (target : WordRegister)
  | storeThrough (p : Pointer)
  | loadThrough (p : Pointer)
  | storeAt
  | loadFrom
  | storeLastPage
  | loadLastPage
  | storeLastPageC
  | loadLastPageC
  | storeStackPointer
  | stackPointerFromHL
  | hlFromStackPointer
  -- stack
  | push (p : StackPair)
  | pop (p : StackPair)
  -- arithmetic
  | alu (op : AluOp) (source : Operand)
  | aluLiteral (op : AluOp)
  | addHL (source : WordRegister)
  | addStackPointer
  | increment (target : Operand)
  | decrement (target : Operand)
  | incrementWord (target : WordRegister)
  | decrementWord (target : WordRegister)
  | rotateAccumulator (op : ShiftOp)
  | decimalAdjust
  | complement
  | setCarry
  | complementCarry
  -- control flow
  | jump (c : Option Condition)
  | jumpHL
  | jumpRelative (c : Option Condition)
  | call (c : Option Condition)
  | ret (c : Option Condition)
  | retEnable
  | restart (vector : UInt8)
  | disableInterrupts
  | enableInterrupts
  -- second table
  | shift (op : ShiftOp) (target : Operand)
  | bit (index : Fin 8) (source : Operand)
  | reset (index : Fin 8) (target : Operand)
  | set (index : Fin 8) (target : Operand)
  deriving DecidableEq, Repr

inductive LiteralKind where
  | none
  | byte
  | word
  deriving DecidableEq, Repr

inductive Literal where
  | none
  | byte (v : UInt8)
  | word (v : UInt16)
  deriving DecidableEq, Repr

namespace Literal

/-- The literal as a byte: the low one of a word, zero if there is none. -/
def toByte : Literal → UInt8
  | .none => 0
  | .byte v => v
  | .word v => Word.low v

def toWord : Literal → UInt16
  | .none => 0
  | .byte v => v.toUInt16
  | .word v => v

def kind : Literal → LiteralKind
  | .none => .none
  | .byte _ => .byte
  | .word _ => .word

end Literal

namespace Operation

def implemented (op : Operation) : Bool := op != .unimplemented

def literal : Operation → LiteralKind
  | .loadLiteral _ | .storeLastPage | .loadLastPage | .hlFromStackPointer
  | .aluLiteral _ | .addStackPointer | .jumpRelative _ => .byte
  | .loadWord _ | .storeAt | .loadFrom | .storeStackPointer | .jump _ | .call _ => .word
  | _ => .none

/-- Machine cycles without bus traffic, apart from the one a taken branch adds. -/
def delay : Operation → Nat
  | .addStackPointer => 2
  | .hlFromStackPointer | .stackPointerFromHL | .addHL _
  | .incrementWord _ | .decrementWord _ | .push _ | .ret (some _) | .restart _ => 1
  | _ => 0

def byPlace (o : Operand) (onMemory otherwise : Nat) : Nat :=
  match o with
  | .memory => onMemory
  | .register _ => otherwise

/-- The documented length in clock cycles; a conditional branch is counted as
taken. -/
def duration : Operation → Nat
  | .unimplemented => 0
  | .extend | .nop => 4
  | .load .memory _ | .load _ .memory => 8
  | .load _ _ => 4
  | .loadLiteral o => byPlace o 12 8
  | .loadWord _ => 12
  | .storeThrough _ | .loadThrough _ => 8
  | .storeAt | .loadFrom => 16
  | .storeLastPage | .loadLastPage => 12
  | .storeLastPageC | .loadLastPageC => 8
  | .storeStackPointer => 20
  | .stackPointerFromHL => 8
  | .hlFromStackPointer => 12
  | .push _ => 16
  | .pop _ => 12
  | .alu _ o => byPlace o 8 4
  | .aluLiteral _ | .addHL _ => 8
  | .addStackPointer => 16
  | .increment o | .decrement o => byPlace o 12 4
  | .incrementWord _ | .decrementWord _ => 8
  | .rotateAccumulator _ | .decimalAdjust | .complement | .setCarry | .complementCarry => 4
  | .jump _ => 16
  | .jumpHL => 4
  | .jumpRelative _ => 12
  | .call _ => 24
  | .ret none => 16
  | .ret (some _) => 20
  | .retEnable | .restart _ => 16
  | .disableInterrupts | .enableInterrupts => 4
  | .shift _ o | .reset _ o | .set _ o => byPlace o 16 8
  | .bit _ o => byPlace o 12 8

end Operation

end Handheld
