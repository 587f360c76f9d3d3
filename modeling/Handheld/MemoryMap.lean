import Handheld.Bus
import Handheld.Image
import Handheld.Interrupts
import Handheld.MemoryMap.Place

/-!
# The memory map of the console

The cartridge, with a boot image over its first page until that is switched
off; video, work and high memory; and the registers of the picture unit, the
sound unit, the serial line and the interrupts. Nothing is ever written to the
cartridge or to the boot image.
-/

namespace Handheld

structure MemoryMap where
  cartridge : Image
  /-- The boot image, as long as it lies over the cartridge. -/
  overlay : Option Image
  work : Ram 0x2000 := Ram.zeros 0x2000
  high : Ram 127 := Ram.zeros 127
  interruptEnable : UInt8 := 0
  interruptRequest : UInt8 := 0
  serialData : UInt8 := 0
  serialControl : UInt8 := 0
  /-- The text that was sent through the serial line and not yet taken. -/
  serialOutput : String := ""
  picture : Picture := {}
  sound : Sound := {}

namespace MemoryMap

def new (cartridge : Image) (boot : Option Image) : MemoryMap :=
  { cartridge, overlay := boot }

def overlaySize : Nat := 0x100

def overlayOn (m : MemoryMap) : Bool := m.overlay.isSome

def interrupts (m : MemoryMap) : Interrupts.Snapshot :=
  ⟨m.interruptEnable, m.interruptRequest⟩

-- ---------------------------------------------------------------------------
-- The serial line
-- ---------------------------------------------------------------------------

def serialChar? (b : UInt8) : Option Char :=
  if (0x20 ≤ b ∧ b < 0x7F) ∨ b = 0x0A then some (Char.ofNat b.toNat) else none

def startsTransfer (v : UInt8) : Bool := v &&& 0x80 != 0

/-- A write to the control register. Nothing is connected, so a transfer ends
at once: its start bit is cleared and its interrupt requested. -/
def writeSerialControl (m : MemoryMap) (v : UInt8) : MemoryMap :=
  if startsTransfer v then
    let output := match serialChar? m.serialData with
      | some c => m.serialOutput.push c
      | none => m.serialOutput
    { m with
      serialControl := v &&& 0x7F
      interruptRequest := m.interruptRequest ||| Interrupts.serial
      serialOutput := output }
  else { m with serialControl := v }

def takeSerialOutput (m : MemoryMap) : String × MemoryMap :=
  (m.serialOutput, { m with serialOutput := "" })

-- ---------------------------------------------------------------------------
-- Reads and writes
-- ---------------------------------------------------------------------------

def romByte (m : MemoryMap) (i : Fin 0x8000) : UInt8 :=
  match m.overlay with
  | some boot =>
    if i.val < overlaySize then Image.byteAt boot i.val else Image.byteAt m.cartridge i.val
  | none => Image.byteAt m.cartridge i.val

def readPlace (m : MemoryMap) : Place → UInt8
  | .cartridge i => m.romByte i
  | .picture target => m.picture.read target
  | .work i => m.work.get i
  | .serialData => m.serialData
  | .serialControl => m.serialControl ||| 0x7E
  | .interruptRequest => m.interruptRequest ||| 0xE0
  | .sound i => m.sound.read i
  | .overlaySwitch => 0xFF
  | .high i => m.high.get i
  | .interruptEnable => m.interruptEnable

def writePlace (m : MemoryMap) (place : Place) (v : UInt8) : MemoryMap :=
  match place with
  | .cartridge _ => m
  | .picture target => { m with picture := m.picture.write target v }
  | .work i => { m with work := m.work.set i v }
  | .serialData => { m with serialData := v }
  | .serialControl => m.writeSerialControl v
  | .interruptRequest => { m with interruptRequest := v &&& 0x1F }
  | .sound i => { m with sound := m.sound.write i v }
  | .overlaySwitch => if v = 0 then m else { m with overlay := none }
  | .high i => { m with high := m.high.set i v }
  | .interruptEnable => { m with interruptEnable := v }

-- ---------------------------------------------------------------------------
-- Remarks
-- ---------------------------------------------------------------------------

def hole (direction : Direction) (address : UInt16) : Journal.Record :=
  ⟨.error, .memory, s!"unmapped {direction.name} at 0x{Text.hexWord address}"⟩

def writeRemarks (m : MemoryMap) (address : UInt16) (v : UInt8) : List Journal.Record :=
  match Place.ofAddress? address with
  | none => [hole .write address]
  | some (.cartridge _) =>
    [⟨.warn, .memory,
      s!"dropped write of 0x{Text.hexByte v} to read-only ROM at 0x{Text.hexWord address}"⟩]
  | some (.sound _) => Sound.remarks address v
  | some .overlaySwitch =>
    if v ≠ 0 ∧ m.overlayOn then [⟨.info, .memory, "boot ROM overlay disabled"⟩] else []
  | some _ => []

def remarks (m : MemoryMap) : Access → List Journal.Record
  | .read address => if (Place.ofAddress? address).isSome then [] else [hole .read address]
  | .write address v => m.writeRemarks address v

instance : Bus MemoryMap where
  read? m address := (Place.ofAddress? address).map m.readPlace
  writable _ address _ := (Place.ofAddress? address).isSome
  store m address v :=
    match Place.ofAddress? address with
    | some place => m.writePlace place v
    | none => m
  remarks := remarks

end MemoryMap

end Handheld
