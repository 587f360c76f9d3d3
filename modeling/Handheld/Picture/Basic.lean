import Handheld.Ram
import Handheld.Text

/-!
# The picture unit

Video memory, the registers that control the screen, and the clock that says
which line is being drawn. The line is not stored: it is the number of dots
since the frame began, divided by the dots in a line.
-/

namespace Handheld

structure Picture where
  video : Ram 0x2000 := Ram.zeros 0x2000
  lcdc : UInt8 := 0
  /-- Only bits 3 to 6 are ever stored. -/
  stat : UInt8 := 0
  scy : UInt8 := 0
  scx : UInt8 := 0
  lyc : UInt8 := 0
  dma : UInt8 := 0
  bgp : UInt8 := 0
  obp0 : UInt8 := 0
  obp1 : UInt8 := 0
  wy : UInt8 := 0
  wx : UInt8 := 0
  /-- Dots since the frame began. -/
  dots : UInt32 := 0

namespace Picture

def dotsPerLine : UInt32 := 456

def linesPerFrame : UInt32 := 154

def dotsPerFrame : UInt32 := dotsPerLine * linesPerFrame

inductive Register where
  | lcdc
  | stat
  | scy
  | scx
  | ly
  | lyc
  | dma
  | bgp
  | obp0
  | obp1
  | wy
  | wx
  deriving DecidableEq, Repr

def Register.ofAddress? (address : UInt16) : Option Register :=
  match address with
  | 0xFF40 => some .lcdc
  | 0xFF41 => some .stat
  | 0xFF42 => some .scy
  | 0xFF43 => some .scx
  | 0xFF44 => some .ly
  | 0xFF45 => some .lyc
  | 0xFF46 => some .dma
  | 0xFF47 => some .bgp
  | 0xFF48 => some .obp0
  | 0xFF49 => some .obp1
  | 0xFF4A => some .wy
  | 0xFF4B => some .wx
  | _ => none

inductive Target where
  | video (i : Fin 0x2000)
  | register (r : Register)
  deriving DecidableEq, Repr

def Target.ofAddress? (address : UInt16) : Option Target :=
  if h : 0x8000 ≤ address.toNat ∧ address.toNat < 0xA000 then
    some (.video ⟨address.toNat - 0x8000, by omega⟩)
  else (Register.ofAddress? address).map .register

-- ---------------------------------------------------------------------------
-- The clock
-- ---------------------------------------------------------------------------

def ly (p : Picture) : UInt8 := (p.dots / dotsPerLine).toUInt8

/-- Lets dots pass. Both summands stay below a frame, so the sum does not overflow. -/
def advance (p : Picture) (n : UInt32) : Picture :=
  { p with dots := (p.dots + n % dotsPerFrame) % dotsPerFrame }

-- ---------------------------------------------------------------------------
-- Registers
-- ---------------------------------------------------------------------------

/-- The status byte as it is read: bit 7 is set, bits 3 to 6 are stored, bit 2
says that the line is the one asked for, and the mode reads as zero. -/
def status (p : Picture) : UInt8 :=
  0x80 ||| (p.stat &&& 0x78) ||| (if p.ly = p.lyc then 0x04 else 0)

def register (p : Picture) : Register → UInt8
  | .lcdc => p.lcdc
  | .stat => p.status
  | .scy => p.scy
  | .scx => p.scx
  | .ly => p.ly
  | .lyc => p.lyc
  | .dma => p.dma
  | .bgp => p.bgp
  | .obp0 => p.obp0
  | .obp1 => p.obp1
  | .wy => p.wy
  | .wx => p.wx

/-- A write to a register. Writing the line, whatever the value, starts the
frame again. -/
def setRegister (p : Picture) (r : Register) (v : UInt8) : Picture :=
  match r with
  | .lcdc => { p with lcdc := v }
  | .stat => { p with stat := v &&& 0x78 }
  | .scy => { p with scy := v }
  | .scx => { p with scx := v }
  | .ly => { p with dots := 0 }
  | .lyc => { p with lyc := v }
  | .dma => { p with dma := v }
  | .bgp => { p with bgp := v }
  | .obp0 => { p with obp0 := v }
  | .obp1 => { p with obp1 := v }
  | .wy => { p with wy := v }
  | .wx => { p with wx := v }

def read (p : Picture) : Target → UInt8
  | .video i => p.video.get i
  | .register r => p.register r

def write (p : Picture) (target : Target) (v : UInt8) : Picture :=
  match target with
  | .video i => { p with video := p.video.set i v }
  | .register r => p.setRegister r v

def readAt (p : Picture) (address : UInt16) : UInt8 :=
  match Target.ofAddress? address with
  | some target => p.read target
  | none => 0xFF

def writeAt (p : Picture) (address : UInt16) (v : UInt8) : Picture :=
  match Target.ofAddress? address with
  | some target => p.write target v
  | none => p

-- ---------------------------------------------------------------------------
-- Snapshots
-- ---------------------------------------------------------------------------

structure Snapshot where
  lcdc : UInt8
  stat : UInt8
  scx : UInt8
  scy : UInt8
  ly : UInt8
  lyc : UInt8
  bgp : UInt8
  dots : UInt32
  deriving DecidableEq, Repr

def snapshot (p : Picture) : Snapshot where
  lcdc := p.lcdc
  stat := p.status
  scx := p.scx
  scy := p.scy
  ly := p.ly
  lyc := p.lyc
  bgp := p.bgp
  dots := p.dots

def Snapshot.text (s : Snapshot) : String :=
  s!"LCDC={Text.hexByte s.lcdc} STAT={Text.hexByte s.stat} " ++
    s!"SCX={Text.hexByte s.scx} SCY={Text.hexByte s.scy} " ++
    s!"LY={Text.hexByte s.ly} LYC={Text.hexByte s.lyc} " ++
    s!"BGP={Text.hexByte s.bgp} dots={s.dots.toNat}"

end Picture

end Handheld
