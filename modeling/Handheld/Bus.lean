import Handheld.Action
import Handheld.Word

/-!
# Buses

A bus answers reads and takes writes of bytes at 16-bit addresses. It may leave
addresses unmapped, and reads leave it as it is. Words are stored low byte
first.
-/

namespace Handheld

class Bus (β : Type) where
  /-- The byte at an address, if something answers there. -/
  read? : β → UInt16 → Option UInt8
  writable : β → UInt16 → UInt8 → Bool
  /-- The bus after a write that something takes. -/
  store : β → UInt16 → UInt8 → β
  /-- What there is to say about an access that is about to happen. -/
  remarks : β → Access → List Journal.Record := fun _ _ => []

namespace Bus

variable {β : Type} [Bus β]

def peek (b : β) (address : UInt16) : UInt8 := (read? b address).getD 0xFF

theorem peek_of_read? {b : β} {address : UInt16} {v : UInt8} (h : read? b address = some v) :
    peek b address = v := by
  simp [peek, h]

def write? (b : β) (address : UInt16) (value : UInt8) : Option β :=
  if writable b address value then some (store b address value) else none

def said (b : β) (a : Access) : List Event := (remarks b a).map .remark

def read (address : UInt16) : Action β UInt8 := fun b =>
  let said := said b (.read address)
  match read? b address with
  | some value => ⟨.ok value, b, said ++ [.access (.read address)]⟩
  | none => ⟨.error (.unmapped address .read), b, said⟩

def write (address : UInt16) (value : UInt8) : Action β Unit := fun b =>
  let said := said b (.write address value)
  if writable b address value then
    ⟨.ok (), store b address value, said ++ [.access (.write address value)]⟩
  else
    ⟨.error (.unmapped address .write), b, said⟩

def readWord (address : UInt16) : Action β UInt16 := do
  let low ← read address
  let high ← read (address + 1)
  pure (Word.ofBytes high low)

def writeWord (address value : UInt16) : Action β Unit := do
  write address (Word.low value)
  write (address + 1) (Word.high value)

def writeBytes (address : UInt16) : List UInt8 → Action β Unit
  | [] => pure ()
  | v :: vs => do
    write address v
    writeBytes (address + 1) vs

end Bus

end Handheld
