import Handheld.Instruction.Table
import Handheld.Processor.Access

/-!
# Executing an instruction

What each operation does to registers and bus, once its literal has been read.
An operation on an operand reads it, writes the result back, and sets the flags
last. A taken jump or call spends one cycle before it does anything else, a
taken return one after the address was popped.
-/

namespace Handheld

namespace Registers

def accumulate (op : AluOp) (v : UInt8) (r : Registers) : Registers :=
  let (result, flags) := Alu.compute op r.a v r.flags.carry
  { r with a := if op = .cp then r.a else result, flags }

/-- A rotation of the accumulator, which always clears the zero flag. -/
def rotateAccumulator (op : ShiftOp) (r : Registers) : Registers :=
  let (result, carry) := Alu.shift op r.a r.flags.carry
  { r with a := result, flags := { carry } }

def decimalAdjust (r : Registers) : Registers :=
  let (result, flags) := Alu.decimalAdjust r.a r.flags
  { r with a := result, flags }

def complement (r : Registers) : Registers :=
  { r with a := ~~~r.a, flags := { r.flags with subtract := true, halfCarry := true } }

def setCarry (on : Bool) (r : Registers) : Registers :=
  { r with flags := { r.flags with subtract := false, halfCarry := false, carry := on } }

def addHL (source : WordRegister) (r : Registers) : Registers :=
  let (result, flags) := Alu.sumWords r.hl (r.word source) r.flags
  { r with flags }.setHL result

def addStackPointer (offset : UInt8) (r : Registers) : Registers :=
  let (result, flags) := Alu.offsetWord r.sp offset
  { r with flags, sp := result }

def hlFromStackPointer (offset : UInt8) (r : Registers) : Registers :=
  let (result, flags) := Alu.offsetWord r.sp offset
  { r with flags }.setHL result

end Registers

namespace Processor

variable {β : Type} [Bus β]

/-- Replaces an operand by a function of it and of the flags, then the flags. -/
def revise (o : Operand) (f : UInt8 → Flags → UInt8 × Flags) : Action (Processor β) Unit := do
  let v ← readOperand o
  let flags ← reading (·.flags)
  writeOperand o (f v flags).1
  updating fun r => { r with flags := (f v flags).2 }

def shifted (op : ShiftOp) (v : UInt8) (f : Flags) : UInt8 × Flags :=
  let (result, carry) := Alu.shift op v f.carry
  (result, { zero := result == 0, carry })

def whenMet (c : Option Condition) (x : Action (Processor β) Unit) : Action (Processor β) Unit := do
  if ← reading fun r => Condition.met r.flags c then x else pure ()

def jumpTo (target : UInt16) : Action (Processor β) Unit :=
  updating fun r => { r with pc := target }

def callTo (target : UInt16) : Action (Processor β) Unit := do
  let pc ← reading (·.pc)
  push pc
  jumpTo target

def returnFromCall : Action (Processor β) Unit := do
  let target ← pop
  elapsing 1
  jumpTo target

def opcodeFault (prefixed : Bool) (opcode : UInt8) (address : UInt16) : Fault :=
  if prefixed then .unimplementedExtended Opcode.extension opcode address
  else .unimplemented opcode address

def execute (d : Decoded) : Action (Processor β) Unit :=
  let byte := d.literal.toByte
  let word := d.literal.toWord
  match d.operation with
  | .unimplemented | .extend => .fault (opcodeFault d.prefixed d.opcode d.address)
  | .nop => pure ()
  -- loads
  | .load target source => do
    let v ← readOperand source
    writeOperand target v
  | .loadLiteral target => writeOperand target byte
  | .loadWord target => updating (·.setWord target word)
  | .storeThrough p => do
    let address ← pointerAddress p
    storeAccumulator address
  | .loadThrough p => do
    let address ← pointerAddress p
    loadAccumulator address
  | .storeAt => storeAccumulator word
  | .loadFrom => loadAccumulator word
  | .storeLastPage => storeAccumulator (Word.lastPage byte)
  | .loadLastPage => loadAccumulator (Word.lastPage byte)
  | .storeLastPageC => do
    let address ← reading fun r => Word.lastPage r.c
    storeAccumulator address
  | .loadLastPageC => do
    let address ← reading fun r => Word.lastPage r.c
    loadAccumulator address
  | .storeStackPointer => do
    let sp ← reading (·.sp)
    write word (Word.low sp)
    write (word + 1) (Word.high sp)
  | .stackPointerFromHL => updating fun r => { r with sp := r.hl }
  | .hlFromStackPointer => updating (·.hlFromStackPointer byte)
  -- stack
  | .push p => do
    let w ← reading (·.pair p)
    push w
  | .pop p => do
    let w ← pop
    updating (·.setPair p w)
  -- arithmetic
  | .alu op source => do
    let v ← readOperand source
    updating (·.accumulate op v)
  | .aluLiteral op => updating (·.accumulate op byte)
  | .addHL source => updating (·.addHL source)
  | .addStackPointer => updating (·.addStackPointer byte)
  | .increment target => revise target Alu.increment
  | .decrement target => revise target Alu.decrement
  | .incrementWord target => updating fun r => r.setWord target (r.word target + 1)
  | .decrementWord target => updating fun r => r.setWord target (r.word target - 1)
  | .rotateAccumulator op => updating (·.rotateAccumulator op)
  | .decimalAdjust => updating (·.decimalAdjust)
  | .complement => updating (·.complement)
  | .setCarry => updating (·.setCarry true)
  | .complementCarry => updating fun r => r.setCarry (!r.flags.carry)
  -- control flow
  | .jump c => whenMet c do
    elapsing 1
    jumpTo word
  | .jumpHL => updating fun r => { r with pc := r.hl }
  | .jumpRelative c => whenMet c do
    elapsing 1
    updating fun r => { r with pc := r.pc + Byte.signExtend byte }
  | .call c => whenMet c do
    elapsing 1
    callTo word
  | .ret c => whenMet c returnFromCall
  | .retEnable => do
    returnFromCall
    .modify fun p => { p with ime := true }
  | .restart vector => callTo vector.toUInt16
  | .disableInterrupts => .modify (·.schedule .disable)
  | .enableInterrupts => .modify (·.schedule .enable)
  -- second table
  | .shift op target => revise target (shifted op)
  | .bit i source => do
    let v ← readOperand source
    updating fun r => { r with flags := Alu.testBit v i r.flags }
  | .reset i target => do
    let v ← readOperand target
    writeOperand target (v &&& ~~~Byte.mask i)
  | .set i target => do
    let v ← readOperand target
    writeOperand target (v ||| Byte.mask i)

end Processor

end Handheld
