import Handheld.Text

/-!
# Interrupt bits

Five sources, one bit each, in the register that enables them and the one that
requests them.
-/

namespace Handheld.Interrupts

/-- The sources and their bits, lowest first. -/
def sources : List (UInt8 × String) :=
  [(0x01, "VBlank"), (0x02, "LCDStat"), (0x04, "Timer"), (0x08, "Serial"), (0x10, "Joypad")]

def serial : UInt8 := 0x08

def names (b : UInt8) : String :=
  match sources.filter fun s => b &&& s.1 != 0 with
  | [] => "-"
  | set => Text.joined "|" (set.map (·.2))

structure Snapshot where
  enable : UInt8
  request : UInt8
  deriving DecidableEq, Repr

namespace Snapshot

def enabledNames (s : Snapshot) : String := names s.enable

def requestedNames (s : Snapshot) : String := names s.request

def text (s : Snapshot) : String :=
  s!"IE={Text.hexByte s.enable} [{s.enabledNames}] IF={Text.hexByte s.request} [{s.requestedNames}]"

end Snapshot

end Handheld.Interrupts
