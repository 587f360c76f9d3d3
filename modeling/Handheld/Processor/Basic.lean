import Handheld.Bus
import Handheld.Registers
import Handheld.Trace

/-!
# The processor's state

The registers and the bus, the interrupt switch with a change to it that is
still to come, and three kinds of bookkeeping that never influence execution:
cycle counters, the number of finished instructions, and the trace.
-/

namespace Handheld

/-- Machine cycles, and clock cycles at four for each. Both counters wrap. -/
structure Cycles where
  m : UInt64 := 0
  t : UInt64 := 0
  deriving DecidableEq, Repr, Inhabited

def Cycles.add (c : Cycles) (n : Nat) : Cycles :=
  ⟨c.m + UInt64.ofNat n, c.t + UInt64.ofNat n * 4⟩

/-- A change to the interrupt switch. It takes effect at the start of the next step. -/
inductive Toggle where
  | disable
  | enable
  deriving DecidableEq, Repr

def Toggle.name : Toggle → String
  | .disable => "Disable"
  | .enable => "Enable"

structure Processor (β : Type) where
  registers : Registers := {}
  bus : β
  ime : Bool := false
  pending : Option Toggle := none
  cycles : Cycles := {}
  /-- Instructions that were executed to their end. -/
  instructions : UInt64 := 0
  trace : Trace := .empty Trace.defaultCapacity
  debugging : Bool := false

namespace Processor

variable {α β : Type}

def new (bus : β) (traceCapacity : Nat) : Processor β :=
  { bus, trace := .empty traceCapacity }

def new? (bus : β) (traceCapacity : Nat) : Option (Processor β) :=
  (Trace.empty? traceCapacity).map fun trace => { bus, trace }

theorem new?_of_le {bus : β} {traceCapacity : Nat} (h : traceCapacity ≤ Trace.largestCapacity) :
    new? bus traceCapacity = some (new bus traceCapacity) := by
  rw [new?, Trace.empty?_of_le h, Option.map_some, new]

theorem new?_of_lt {bus : β} {traceCapacity : Nat} (h : Trace.largestCapacity < traceCapacity) :
    new? bus traceCapacity = none := by
  rw [new?, Trace.empty?_of_lt h, Option.map_none]

def elapse (p : Processor β) (n : Nat) : Processor β := { p with cycles := p.cycles.add n }

def resetCycles (p : Processor β) : Processor β := { p with cycles := {} }

def setRegisters (p : Processor β) (f : Registers → Registers) : Processor β :=
  { p with registers := f p.registers }

def schedule (p : Processor β) (t : Toggle) : Processor β := { p with pending := some t }

def settle (p : Processor β) : Processor β :=
  match p.pending with
  | some t => { p with ime := t == .enable, pending := none }
  | none => p

@[simp] theorem registers_settle (p : Processor β) : p.settle.registers = p.registers := by
  unfold settle
  split <;> rfl

@[simp] theorem bus_settle (p : Processor β) : p.settle.bus = p.bus := by
  unfold settle
  split <;> rfl

@[simp] theorem cycles_settle (p : Processor β) : p.settle.cycles = p.cycles := by
  unfold settle
  split <;> rfl

def onBus (x : Action β α) : Action (Processor β) α := fun
  | ⟨registers, bus, ime, pending, cycles, instructions, trace, debugging⟩ =>
    match x bus with
    | ⟨r, bus, trail⟩ =>
      ⟨r, ⟨registers, bus, ime, pending, cycles, instructions, trace, debugging⟩, trail⟩

end Processor

end Handheld
