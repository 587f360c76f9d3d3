import Handheld.Text

/-!
# Faults

Why the processor cannot go on: an address that nothing answers, or a byte
that stands for no instruction.
-/

namespace Handheld

inductive Direction where
  | read
  | write
  deriving DecidableEq, Repr

def Direction.name : Direction → String
  | .read => "read"
  | .write => "write"

inductive Fault where
  | unmapped (address : UInt16) (direction : Direction)
  | unimplemented (opcode : UInt8) (pc : UInt16)
  | unimplementedExtended (leading opcode : UInt8) (pc : UInt16)
  deriving DecidableEq, Repr

namespace Fault

/-- The fault is that of an opcode, found before anything was executed. -/
def isOpcode : Fault → Bool
  | .unmapped .. => false
  | .unimplemented .. => true
  | .unimplementedExtended .. => true

def message : Fault → String
  | .unmapped address direction =>
    s!"unmapped address 0x{Text.hexWord address} ({direction.name})"
  | .unimplemented opcode pc =>
    s!"unimplemented opcode 0x{Text.hexByte opcode} at PC=0x{Text.hexWord pc}"
  | .unimplementedExtended leading opcode pc =>
    s!"unimplemented extended opcode 0x{Text.hexByte leading} 0x{Text.hexByte opcode} " ++
      s!"at PC=0x{Text.hexWord pc}"

end Fault

end Handheld
