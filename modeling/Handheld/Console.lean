import Handheld.MemoryMap
import Handheld.Picture.Background
import Handheld.Processor.Step
import Handheld.Report

/-!
# The console

A processor on the memory map of the console, with a viewport on its picture.
A step executes one instruction and lets the picture unit's clock run for as
long as that took, whether the instruction finished or faulted.
-/

namespace Handheld

structure Console where
  processor : Processor MemoryMap
  viewport : Viewport

namespace Console

def new (cartridge : Image) (boot : Option Image) (traceCapacity : Nat) (viewport : Viewport) :
    Console :=
  ⟨.new (.new cartridge boot) traceCapacity, viewport⟩

def picture (c : Console) : Picture := c.processor.bus.picture

def onProcessor {α : Type} (x : Action (Processor MemoryMap) α) : Action Console α := fun
  | ⟨processor, viewport⟩ =>
    match x processor with
    | ⟨r, processor, trail⟩ => ⟨r, ⟨processor, viewport⟩, trail⟩

/-- Lets the picture unit's clock run for a number of clock cycles, taken as 32 bits. -/
def advancePicture (elapsed : UInt64) (m : MemoryMap) : MemoryMap :=
  { m with picture := m.picture.advance elapsed.toUInt32 }

def step : Action Console UInt64 := onProcessor do
  let before ← .gets (·.cycles.t)
  let result ← Action.attempt Processor.step
  let elapsed ← .gets fun p => p.cycles.t - before
  Processor.onBus (.modify (advancePicture elapsed))
  match result with
  | .ok () => pure elapsed
  | .error e => .fault e

def runSteps (count : Nat) : Action Console UInt64 := .accumulate step (fun _ => true) count

def frameCycles : UInt64 := Picture.dotsPerFrame.toUInt64

/-- More steps than a frame can have, since none takes less than four cycles. -/
def frameSteps : Nat := frameCycles.toNat / 4

def runFrame : Action Console Unit := do
  let _ ← Action.accumulate step (· < frameCycles) frameSteps
  pure ()

def frame (c : Console) : Frame := c.picture.render c.viewport

def report (c : Console) : Report :=
  { c.processor.report with
    serialOutput := c.processor.bus.serialOutput
    interrupts := some c.processor.bus.interrupts
    picture := some c.picture.snapshot }

end Console

end Handheld
