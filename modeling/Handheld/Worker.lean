import Handheld.Console

/-!
# The worker

Steps a console until it is asked to stop, has made all the steps it may make,
or meets a fault. Whichever comes first in this order ends it, and it ends once.
-/

namespace Handheld

structure Worker where
  console : Console
  limit : Option Nat := none
  /-- A count of 64 bits, as a limit is. It goes no further than a limit, and without one it would
  come round after 2^64 steps (`Runner.toNat_ofNat_steps`). -/
  steps : Nat := 0

namespace Worker

inductive Ending where
  | halted (steps : Nat) (fault : Fault) (report : Report)
  | limitReached (steps : Nat) (report : Report)
  | stopped (steps : Nat)

/-- What a turn comes to: the ending, if it was the last one, the worker after
it, and what was said. -/
structure Turn where
  ending : Option Ending
  worker : Worker
  remarks : List Journal.Record

def exhausted (limit : Option Nat) (steps : Nat) : Bool :=
  match limit with
  | some n => decide (n ≤ steps)
  | none => false

def turn (stop : Bool) : Worker → Turn
  | ⟨console, limit, steps⟩ =>
    if stop then ⟨some (.stopped steps), ⟨console, limit, steps⟩, []⟩
    else if exhausted limit steps then
      ⟨some (.limitReached steps console.report), ⟨console, limit, steps⟩, []⟩
    else
      match Console.step console with
      | ⟨.ok _, console, trail⟩ => ⟨none, ⟨console, limit, steps + 1⟩, Event.remarks trail⟩
      | ⟨.error fault, console, trail⟩ =>
        ⟨some (.halted steps fault (console.report.withFault fault)), ⟨console, limit, steps⟩,
          Event.remarks trail⟩

/-- Turns, at most the given number, of a worker that nobody asks to stop, after
what was said before, the last remark first. -/
def runFrom : Nat → List Journal.Record → Worker → Turn
  | 0, said, w => ⟨none, w, said.reverse⟩
  | n + 1, said, w =>
    match turn false w with
    | ⟨none, w, remarks⟩ => runFrom n (remarks.reverseAux said) w
    | ⟨some e, w, remarks⟩ => ⟨some e, w, (remarks.reverseAux said).reverse⟩

def run (turns : Nat) (w : Worker) : Turn := runFrom turns [] w

-- ---------------------------------------------------------------------------
-- Remarks
-- ---------------------------------------------------------------------------

def started : Journal.Record := ⟨.info, .worker, "CPU thread started"⟩

namespace Ending

def remark : Ending → Journal.Record
  | .halted steps fault _ => ⟨.error, .worker, s!"CPU halted after {steps} steps: {fault.message}"⟩
  | .limitReached steps _ => ⟨.info, .worker, s!"step limit reached ({steps})"⟩
  | .stopped steps => ⟨.info, .worker, s!"CPU thread stopped after {steps} steps"⟩

def report? : Ending → Option Report
  | .halted _ _ report => some report
  | .limitReached _ report => some report
  | .stopped _ => none

def exitCode : Ending → Nat
  | .halted .. => 1
  | .limitReached .. => 0
  | .stopped _ => 0

end Ending

end Worker

end Handheld
