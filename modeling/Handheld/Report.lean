import Handheld.Interrupts
import Handheld.Json.Document
import Handheld.Picture.Basic
import Handheld.Processor.Basic

/-!
# Reports

Everything that is worth knowing about a machine that stopped, as lines of text
and as a JSON document. A processor by itself knows nothing of serial output,
interrupt registers and the picture unit; a console fills them in.
-/

namespace Handheld

structure Report where
  error : Option String := none
  registers : Registers
  ime : Bool
  pending : Option Toggle
  cycles : Cycles
  instructions : UInt64
  trace : List TraceEntry
  serialOutput : String := ""
  interrupts : Option Interrupts.Snapshot := none
  picture : Option Picture.Snapshot := none

def Processor.report {β : Type} (p : Processor β) : Report where
  registers := p.registers
  ime := p.ime
  pending := p.pending
  cycles := p.cycles
  instructions := p.instructions
  trace := p.trace.toList

namespace Report

def withFault (r : Report) (f : Fault) : Report := { r with error := some f.message }

-- ---------------------------------------------------------------------------
-- Text
-- ---------------------------------------------------------------------------

def pendingText : Option Toggle → String
  | none => "None"
  | some t => s!"Some({t.name})"

def countersText (r : Report) : String :=
  s!"IME={r.ime} pending={pendingText r.pending} M={r.cycles.m.toNat} T={r.cycles.t.toNat} " ++
    s!"instructions={r.instructions.toNat}"

def lines (r : Report) : List String :=
  (r.error.map fun e => "error: " ++ e).toList ++
    [r.registers.brief, r.countersText] ++
    (r.interrupts.map (·.text)).toList ++
    (r.picture.map (·.text)).toList ++
    (if r.serialOutput.isEmpty then [] else ["serial: " ++ Text.quoted r.serialOutput]) ++
    [s!"last {r.trace.length} instructions:"] ++
    r.trace.map fun e => "  " ++ e.text

/-- The report as text; every line is ended. -/
def text (r : Report) : String := r.lines.foldl (fun text l => text ++ l ++ "\n") ""

-- ---------------------------------------------------------------------------
-- Document
-- ---------------------------------------------------------------------------

open Json (Document)

def byteNumber (b : UInt8) : Document := .number b.toNat

def registersDocument (r : Registers) : Document :=
  .object [("a", byteNumber r.a), ("f", byteNumber r.flags.toByte), ("b", byteNumber r.b),
    ("c", byteNumber r.c), ("d", byteNumber r.d), ("e", byteNumber r.e), ("h", byteNumber r.h),
    ("l", byteNumber r.l), ("sp", .number r.sp.toNat), ("pc", .number r.pc.toNat)]

def entryDocument (e : TraceEntry) : Document :=
  .object [("pc", .number e.address.toNat), ("opcode", byteNumber e.opcode),
    ("prefixed", .bool e.prefixed), ("disassembly", .text e.listing)]

def interruptsDocument (s : Interrupts.Snapshot) : Document :=
  .object [("ie", byteNumber s.enable), ("if_reg", byteNumber s.request),
    ("enabled", .text s.enabledNames), ("requested", .text s.requestedNames)]

def pictureDocument (s : Picture.Snapshot) : Document :=
  .object [("lcdc", byteNumber s.lcdc), ("stat", byteNumber s.stat), ("scx", byteNumber s.scx),
    ("scy", byteNumber s.scy), ("ly", byteNumber s.ly), ("lyc", byteNumber s.lyc),
    ("bgp", byteNumber s.bgp), ("dots", .number s.dots.toNat)]

def orNull {α : Type} (f : α → Document) : Option α → Document
  | some a => f a
  | none => .null

def document (r : Report) : Document :=
  .object [("error", orNull .text r.error),
    ("registers", registersDocument r.registers),
    ("ime", .bool r.ime),
    ("pending_ime", orNull (fun t => .text t.name) r.pending),
    ("cycles", .object [("m", .number r.cycles.m.toNat), ("t", .number r.cycles.t.toNat)]),
    ("instructions", .number r.instructions.toNat),
    ("trace", .list (r.trace.map entryDocument)),
    ("serial_output", .text r.serialOutput),
    ("interrupts", orNull interruptsDocument r.interrupts),
    ("ppu", orNull pictureDocument r.picture)]

def json (r : Report) : String := r.document.pretty

end Report

end Handheld
