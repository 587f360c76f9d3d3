import Handheld.Text

/-!
# The trace

The last instructions that were about to be executed, oldest first. Once the
trace is full, each new entry drives the oldest out; a trace without capacity
remembers nothing.
-/

namespace Handheld

structure TraceEntry where
  address : UInt16
  opcode : UInt8
  prefixed : Bool
  listing : String
  deriving DecidableEq, Repr

def TraceEntry.text (e : TraceEntry) : String :=
  if e.prefixed then
    s!"{Text.hexWord e.address}: CB {Text.hexByte e.opcode}  {e.listing}"
  else
    s!"{Text.hexWord e.address}: {Text.hexByte e.opcode}     {e.listing}"

structure Trace where
  capacity : Nat
  entries : Array TraceEntry := #[]
  deriving DecidableEq, Repr

namespace Trace

def defaultCapacity : Nat := 64

/-- The most entries there can be room for: with 32 bytes for each, no more of
them fit into half of a 64-bit address space. -/
def largestCapacity : Nat := 0x3FFFFFFFFFFFFFF

def empty (capacity : Nat) : Trace := { capacity }

/-- A trace takes the room for all its entries from the start, if there can be so
much. The program breaks off where there cannot. -/
def empty? (capacity : Nat) : Option Trace :=
  if capacity ≤ largestCapacity then some (empty capacity) else none

theorem empty?_of_le {capacity : Nat} (h : capacity ≤ largestCapacity) :
    empty? capacity = some (empty capacity) := if_pos h

theorem empty?_of_lt {capacity : Nat} (h : largestCapacity < capacity) :
    empty? capacity = none := if_neg (Nat.not_le.mpr h)

def push (t : Trace) (e : TraceEntry) : Trace :=
  if t.capacity = 0 then t
  else if t.entries.size < t.capacity then { t with entries := t.entries.push e }
  else { t with entries := (t.entries.extract 1 t.entries.size).push e }

def toList (t : Trace) : List TraceEntry := t.entries.toList

def size (t : Trace) : Nat := t.entries.size

def last? (t : Trace) : Option TraceEntry := t.entries.back?

end Trace

end Handheld
