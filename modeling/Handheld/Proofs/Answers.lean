import Handheld.Proofs.Commands
import Handheld.Proofs.Lockstep

/-!
# What a console answers

Whoever uses a console asks one thing after another of it, and gets an answer or a
fault each time. A relation of two processors that everything a console can be asked
keeps, and that shows in no answer, cannot be told from equality by asking.
-/

namespace Handheld.Console

inductive Request where
  | command (cmd : Command)
  | frame
  | report

inductive Answer where
  | done
  | elapsed (t : UInt64)
  | byte (v : UInt8)
  | word (w : UInt16)
  | text (s : String)
  | frame (f : Frame)
  | report (r : Report)

def Command.ask : Command → Action Console Answer
  | .step => do return .elapsed (← Console.step)
  | .runSteps count => do return .elapsed (← Console.runSteps count)
  | .busRead address => do return .byte (← onProcessor (Processor.onBus (Bus.read address)))
  | .read address => do return .byte (← onProcessor (Processor.read address))
  | .pop => do return .word (← onProcessor Processor.pop)
  | .takeSerialOutput => do
    return .text (← onProcessor (Processor.onBus Console.takeSerialOutput))
  | cmd => do
    cmd.action
    return .done

def Request.ask : Request → Action Console Answer
  | .command cmd => cmd.ask
  | .frame => .gets fun c => .frame c.frame
  | .report => .gets fun c => .report c.report

/-- The answers to requests, one after the other. A fault does not keep the next one
from being asked. -/
def answers : List Request → Console → List (Except Fault Answer)
  | [], _ => []
  | r :: rs, c => (r.ask.run c).result :: answers rs (r.ask.run c).state

/-- A relation of two processors that everything that can happen to them in a console
keeps, and that agrees on all that a console shows. -/
structure PairLaw (S : Processor MemoryMap → Processor MemoryMap → Prop) : Prop extends
    Processor.StepPairLaw S fun _ => True where
  advances {p q : Processor MemoryMap} (n : UInt64) : S p q →
    S { p with bus := advancePicture n p.bus } { q with bus := advancePicture n q.bus }
  takes {p q : Processor MemoryMap} : S p q →
    S { p with bus := p.bus.takeSerialOutput.2 } { q with bus := q.bus.takeSerialOutput.2 }
  resets {p q : Processor MemoryMap} : S p q → S p.resetCycles q.resetCycles
  debugs {p q : Processor MemoryMap} (on : Bool) : S p q →
    S { p with debugging := on } { q with debugging := on }
  report {p q : Processor MemoryMap} : S p q → p.report = q.report
  serial {p q : Processor MemoryMap} : S p q → p.bus.serialOutput = q.bus.serialOutput
  interrupts {p q : Processor MemoryMap} : S p q → p.bus.interrupts = q.bus.interrupts
  picture {p q : Processor MemoryMap} : S p q → p.bus.picture = q.bus.picture

def Beside (S : Processor MemoryMap → Processor MemoryMap → Prop) (c d : Console) : Prop :=
  S c.processor d.processor ∧ c.viewport = d.viewport

variable {α : Type} {S : Processor MemoryMap → Processor MemoryMap → Prop}

open Handheld.Action (Lockstep)

theorem lockstep_onProcessor {x y : Action (Processor MemoryMap) α}
    (h : Lockstep S (fun _ => True) x y) :
    Lockstep (Beside S) (fun _ => True) (onProcessor x) (onProcessor y) := by
  rintro ⟨p, viewport⟩ ⟨q, _⟩ ⟨hpq, rfl⟩ -
  obtain ⟨hr, ha, hS⟩ := h p q hpq fun _ _ => trivial
  exact ⟨hr, ha, hS, rfl⟩

namespace PairLaw

variable (hS : PairLaw S)

include hS

theorem cycles {p q : Processor MemoryMap} (h : S p q) : p.cycles = q.cycles :=
  congrArg Report.cycles (hS.report h)

theorem step : Lockstep (Beside S) (fun _ => True) Console.step Console.step := by
  refine lockstep_onProcessor <| .bind (.gets fun p q h => ?_) fun before => ?_
  · rw [hS.cycles h]
  · refine .bind hS.toStepPairLaw.step.attempt fun r => .bind (.gets fun p q h => ?_) fun n => ?_
    · rw [hS.cycles h]
    · refine .bind (fun p q h _ => ⟨rfl, rfl, hS.advances n h⟩) fun _ => ?_
      cases r with
      | ok u => exact .pure n
      | error e => exact .fault e

theorem alike {x y : Action (Processor MemoryMap) α} (h : Processor.Alike x y) :
    Lockstep (Beside S) (fun _ => True) (onProcessor x) (onProcessor y) :=
  lockstep_onProcessor (hS.lockstep h)

theorem take : Lockstep (Beside S) (fun _ => True)
    (onProcessor (Processor.onBus Console.takeSerialOutput))
    (onProcessor (Processor.onBus Console.takeSerialOutput)) :=
  lockstep_onProcessor fun _ _ h _ => ⟨congrArg Except.ok (hS.serial h), rfl, hS.takes h⟩

theorem command (cmd : Command) :
    Lockstep (Beside S) (fun _ => True) cmd.ask cmd.ask := by
  cases cmd with
  | step => exact hS.step.bind fun t => .pure _
  | runSteps count => exact (hS.step.accumulate _ _).bind fun t => .pure _
  | runFrame => exact ((hS.step.accumulate _ _).bind fun t => .pure ()).bind fun _ => .pure _
  | stepProcessor => exact (lockstep_onProcessor hS.toStepPairLaw.step).bind fun _ => .pure _
  | busRead address => exact (hS.alike (.busRead address)).bind fun v => .pure _
  | busWrite address v => exact (hS.alike (.busWrite address v)).bind fun _ => .pure _
  | read address => exact (hS.alike (.read address)).bind fun v => .pure _
  | write address v => exact (hS.alike (.write address v)).bind fun _ => .pure _
  | push w => exact (hS.alike (.push w)).bind fun _ => .pure _
  | pop => exact (hS.alike .pop).bind fun w => .pure _
  | elapse n => exact (hS.alike (.elapsing n)).bind fun _ => .pure _
  | setRegisters r => exact (hS.alike (.updating _)).bind fun _ => .pure _
  | setInterrupts on => exact (hS.alike (.switching on)).bind fun _ => .pure _
  | schedule t => exact (hS.alike (.scheduling t)).bind fun _ => .pure _
  | resetCycles =>
    exact (lockstep_onProcessor (.modify fun p q h => hS.resets h)).bind fun _ => .pure _
  | setDebugging on =>
    exact (lockstep_onProcessor (.modify fun p q h => hS.debugs on h)).bind fun _ => .pure _
  | takeSerialOutput => exact hS.take.bind fun s => .pure _

theorem request (r : Request) : Lockstep (Beside S) (fun _ => True) r.ask r.ask := by
  cases r with
  | command cmd => exact hS.command cmd
  | frame =>
    refine .gets fun c d h => ?_
    have hpicture : c.picture = d.picture := hS.picture h.1
    rw [frame, frame, hpicture, h.2]
  | report =>
    refine .gets fun c d h => ?_
    have hpicture : c.picture = d.picture := hS.picture h.1
    rw [Console.report, Console.report, hpicture, hS.report h.1, hS.serial h.1, hS.interrupts h.1]

theorem answers_eq {c d : Console} (h : Beside S c d) (rs : List Request) :
    answers rs c = answers rs d := by
  induction rs generalizing c d with
  | nil => rfl
  | cons r rs ih =>
    obtain ⟨hr, -, hS'⟩ := hS.request r c d h fun _ _ => trivial
    rw [answers, answers, hr, ih hS']

end PairLaw

end Handheld.Console
