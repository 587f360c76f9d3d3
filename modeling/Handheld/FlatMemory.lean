import Handheld.Bus
import Handheld.Ram

/-!
# Flat memory

64 KiB of plain memory: every address is a cell of its own, so nothing faults.
-/

namespace Handheld

structure FlatMemory where
  cells : Ram 65536

namespace FlatMemory

def zeros : FlatMemory := ⟨Ram.zeros 65536⟩

def peek (m : FlatMemory) (address : UInt16) : UInt8 :=
  m.cells.get ⟨address.toNat, address.toNat_lt⟩

def poke (m : FlatMemory) (address : UInt16) (value : UInt8) : FlatMemory :=
  ⟨m.cells.set ⟨address.toNat, address.toNat_lt⟩ value⟩

theorem peek_poke (m : FlatMemory) (a b : UInt16) (v : UInt8) :
    (m.poke a v).peek b = if a = b then v else m.peek b := by
  simp [peek, poke, Ram.get_set, UInt16.toFin_inj]

/-- Copies bytes in from an address on, wrapping at the top of memory. -/
def load (m : FlatMemory) (origin : UInt16) : List UInt8 → FlatMemory
  | [] => m
  | v :: vs => (m.poke origin v).load (origin + 1) vs

def withProgram (origin : UInt16) (program : List UInt8) : FlatMemory :=
  zeros.load origin program

instance : Bus FlatMemory where
  read? m address := some (m.peek address)
  writable _ _ _ := true
  store := poke

end FlatMemory

end Handheld
