import Handheld.Instruction.Operation
import Handheld.Processor.Basic

/-!
# Bus traffic

Every access costs one machine cycle, counted once it has succeeded. The
program counter moves over a byte after it was fetched, the stack pointer over
a word after both its bytes were moved; literals of two bytes come high byte
first, words on the stack low byte first.
-/

namespace Handheld.Processor

variable {β : Type} [Bus β]

def elapsing (n : Nat) : Action (Processor β) Unit := .modify (·.elapse n)

def reading {α : Type} (f : Registers → α) : Action (Processor β) α := .gets fun p => f p.registers

def updating (f : Registers → Registers) : Action (Processor β) Unit := .modify (·.setRegisters f)

def read (address : UInt16) : Action (Processor β) UInt8 := do
  let v ← onBus (Bus.read address)
  elapsing 1
  pure v

def write (address : UInt16) (v : UInt8) : Action (Processor β) Unit := do
  onBus (Bus.write address v)
  elapsing 1

def fetch : Action (Processor β) UInt8 := do
  let pc ← reading (·.pc)
  let v ← read pc
  updating fun r => { r with pc := pc + 1 }
  pure v

/-- Two bytes at the program counter, high byte first. -/
def fetchWord : Action (Processor β) UInt16 := do
  let high ← fetch
  let low ← fetch
  pure (Word.ofBytes high low)

def fetchLiteral : LiteralKind → Action (Processor β) Literal
  | .none => pure .none
  | .byte => do pure (.byte (← fetch))
  | .word => do pure (.word (← fetchWord))

def push (w : UInt16) : Action (Processor β) Unit := do
  let sp ← reading (·.sp)
  write (sp - 1) (Word.high w)
  write (sp - 2) (Word.low w)
  updating fun r => { r with sp := sp - 2 }

def pop : Action (Processor β) UInt16 := do
  let sp ← reading (·.sp)
  let low ← read sp
  let high ← read (sp + 1)
  updating fun r => { r with sp := sp + 2 }
  pure (Word.ofBytes high low)

def readOperand : Operand → Action (Processor β) UInt8
  | .register r => reading (·.byte r)
  | .memory => do
    let hl ← reading (·.hl)
    read hl

def writeOperand (o : Operand) (v : UInt8) : Action (Processor β) Unit :=
  match o with
  | .register r => updating (·.setByte r v)
  | .memory => do
    let hl ← reading (·.hl)
    write hl v

/-- The address a pointer holds. The moving pointers move before the access. -/
def pointerAddress : Pointer → Action (Processor β) UInt16
  | .bc => reading (·.bc)
  | .de => reading (·.de)
  | .hlIncrement => do
    let hl ← reading (·.hl)
    updating (·.setHL (hl + 1))
    pure hl
  | .hlDecrement => do
    let hl ← reading (·.hl)
    updating (·.setHL (hl - 1))
    pure hl

def storeAccumulator (address : UInt16) : Action (Processor β) Unit := do
  let a ← reading (·.a)
  write address a

def loadAccumulator (address : UInt16) : Action (Processor β) Unit := do
  let v ← read address
  updating fun r => { r with a := v }

end Handheld.Processor
