import Handheld.Instruction.Listing
import Handheld.Processor.Execute

/-!
# Steps

A step settles the interrupt switch, decodes the instruction at the program
counter, enters it into the trace and executes it. A byte that stands for no
instruction leaves program counter and cycles as they were; a fault of the bus
leaves what was done before it.
-/

namespace Handheld.Processor

variable {β : Type} [Bus β]

def fetchOpcode : Action (Processor β) (Bool × UInt8) := do
  let first ← fetch
  if first = Opcode.extension then
    let opcode ← fetch
    pure (true, opcode)
  else pure (false, first)

def operationOf (prefixed : Bool) (opcode : UInt8) : Operation :=
  if prefixed then .extended opcode else .primary opcode

def decode : Action (Processor β) Decoded := do
  let address ← reading (·.pc)
  let (prefixed, opcode) ← fetchOpcode
  let operation := operationOf prefixed opcode
  if operation.implemented then
    let literal ← fetchLiteral operation.literal
    pure { address, prefixed, opcode, operation, literal }
  else .fault (opcodeFault prefixed opcode address)

def traceEntry (d : Decoded) : TraceEntry :=
  ⟨d.address, d.opcode, d.prefixed, d.listing⟩

def enter (d : Decoded) : Action (Processor β) Unit := do
  let e := traceEntry d
  if ← .gets (·.debugging) then .note ⟨.debug, .processor, e.text⟩
  .modify fun p => { p with trace := p.trace.push e }

def rewind (pc : UInt16) (cycles : Cycles) (p : Processor β) : Processor β :=
  { p.setRegisters (fun r => { r with pc }) with cycles }

/-- What is left to do when decoding faulted. -/
def rejected (pc : UInt16) (cycles : Cycles) (e : Fault) : Action (Processor β) Unit := do
  if e.isOpcode then .modify (rewind pc cycles)
  .note ⟨.error, .processor, e.message⟩
  .fault e

def step : Action (Processor β) Unit := do
  .modify settle
  let (pc, cycles) ← .gets fun p => (p.registers.pc, p.cycles)
  match ← Action.attempt decode with
  | .error e => rejected pc cycles e
  | .ok d =>
    enter d
    elapsing d.operation.delay
    execute d
    .modify fun p => { p with instructions := p.instructions + 1 }

end Handheld.Processor
