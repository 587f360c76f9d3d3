import Handheld.Journal
import Handheld.Ram
import Handheld.Text

/-!
# The sound unit

Registers at `FF10`-`FF3F` that remember what is written to them, each under a
mask. Some addresses in the range have no register: they read as `FF`, and
writes to them are lost.
-/

namespace Handheld

structure Sound where
  registers : Ram 48 := Ram.zeros 48

namespace Sound

inductive Sweep where
  | increase
  | decrease
  deriving DecidableEq, Repr

inductive Envelope where
  | attenuate
  | amplify
  deriving DecidableEq, Repr

/-- The offset of an address from `FF10`, if it is in the range. -/
def slot? (address : UInt16) : Option (Fin 48) :=
  if h : 0xFF10 ≤ address.toNat ∧ address.toNat < 0xFF40 then
    some ⟨address.toNat - 0xFF10, by omega⟩
  else none

/-- The bits a register keeps, by its offset; none if there is no register. -/
def mask? (i : Fin 48) : Option UInt8 :=
  if i.val = 0x00 then some 0x7F
  else if i.val = 0x05 ∨ i.val = 0x0F ∨ (0x17 ≤ i.val ∧ i.val ≤ 0x1F) then none
  else if i.val = 0x16 then some 0x8F
  else some 0xFF

def read (s : Sound) (i : Fin 48) : UInt8 :=
  match mask? i with
  | some _ => s.registers.get i
  | none => 0xFF

def write (s : Sound) (i : Fin 48) (v : UInt8) : Sound :=
  match mask? i with
  | some mask => ⟨s.registers.set i (v &&& mask)⟩
  | none => s

def readAt (s : Sound) (address : UInt16) : UInt8 :=
  match slot? address with
  | some i => s.read i
  | none => 0xFF

def writeAt (s : Sound) (address : UInt16) (v : UInt8) : Sound :=
  match slot? address with
  | some i => s.write i v
  | none => s

def remarks (address : UInt16) (v : UInt8) : List Journal.Record :=
  match (slot? address).bind mask? with
  | some _ => []
  | none =>
    [⟨.trace, .sound,
      s!"ignored APU write 0x{Text.hexByte v} to hole 0x{Text.hexWord address}"⟩]

-- ---------------------------------------------------------------------------
-- Fields of the registers
-- ---------------------------------------------------------------------------

def sweepRegister (s : Sound) : UInt8 := s.read 0x00

def envelopeRegister (s : Sound) : UInt8 := s.read 0x02

def sweepTime (s : Sound) : UInt8 := s.sweepRegister / 16

def sweepDirection (s : Sound) : Sweep :=
  if s.sweepRegister &&& 0x08 != 0 then .decrease else .increase

def sweepShift (s : Sound) : UInt8 := s.sweepRegister % 8

def volume (s : Sound) : UInt8 := s.envelopeRegister / 16

def envelopeDirection (s : Sound) : Envelope :=
  if s.envelopeRegister &&& 0x08 != 0 then .amplify else .attenuate

def envelopePeriod (s : Sound) : UInt8 := s.envelopeRegister % 8

def enabled (s : Sound) : Bool := s.read 0x16 &&& 0x80 != 0

end Sound

end Handheld
