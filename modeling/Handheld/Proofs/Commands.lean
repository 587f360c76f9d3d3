import Handheld.Console
import Handheld.Proofs.Laws
import Handheld.Proofs.Repeating

/-!
# What can be done to a console

A console is stepped, or run for some time; its registers and its bus can also be
reached directly. Commands are performed one after another, and a fault does not
keep the next one from being performed. A law that everything within a command
keeps is kept by any sequence of commands.
-/

namespace Handheld

def Action.ignore {σ α : Type} (x : Action σ α) : Action σ Unit := do
  let _ ← x
  pure ()

theorem Action.run_ignore {σ α : Type} (x : Action σ α) (s : σ) :
    x.ignore.run s = ⟨(x.run s).result.map fun _ => (), (x.run s).state, (x.run s).trail⟩ := by
  rcases h : x.run s with ⟨e | a, s', t⟩
  · rw [ignore, run_bind_error h]
    rfl
  · rw [ignore, run_bind_ok h, run_pure, List.append_nil]
    rfl

theorem Action.Obeys.ignore {σ α : Type} {R : σ → List Access → σ → Prop} (hR : Chain R)
    {x : Action σ α} (hx : Obeys R x) : Obeys R x.ignore :=
  .bind hR hx fun _ => .pure hR ()

namespace Console

inductive Command where
  | step
  | runSteps (count : Nat)
  | runFrame
  /-- An instruction alone, without the picture unit's clock. -/
  | stepProcessor
  | busRead (address : UInt16)
  | busWrite (address : UInt16) (value : UInt8)
  | read (address : UInt16)
  | write (address : UInt16) (value : UInt8)
  | push (w : UInt16)
  | pop
  | elapse (n : Nat)
  | setRegisters (r : Registers)
  | setInterrupts (on : Bool)
  | schedule (t : Toggle)
  | resetCycles
  | setDebugging (on : Bool)
  | takeSerialOutput

def takeSerialOutput : Action MemoryMap String := fun m =>
  ⟨.ok m.takeSerialOutput.1, m.takeSerialOutput.2, []⟩

namespace Command

def action : Command → Action Console Unit
  | .step => Console.step.ignore
  | .runSteps count => (Console.runSteps count).ignore
  | .runFrame => Console.runFrame
  | .stepProcessor => onProcessor Processor.step
  | .busRead address => onProcessor (Processor.onBus (Bus.read address)).ignore
  | .busWrite address v => onProcessor (Processor.onBus (Bus.write address v))
  | .read address => onProcessor (Processor.read address).ignore
  | .write address v => onProcessor (Processor.write address v)
  | .push w => onProcessor (Processor.push w)
  | .pop => onProcessor Processor.pop.ignore
  | .elapse n => onProcessor (Processor.elapsing n)
  | .setRegisters r => onProcessor (Processor.updating fun _ => r)
  | .setInterrupts on => onProcessor (.modify fun p => { p with ime := on })
  | .schedule t => onProcessor (.modify (·.schedule t))
  | .resetCycles => onProcessor (.modify (·.resetCycles))
  | .setDebugging on => onProcessor (.modify fun p => { p with debugging := on })
  | .takeSerialOutput => onProcessor (Processor.onBus Console.takeSerialOutput).ignore

end Command

/-- Performs commands one after another, whether they fault or not. -/
def perform : List Command → Action Console Unit
  | [] => pure ()
  | c :: cs => do
    let _ ← c.action.attempt
    perform cs

theorem state_perform_cons (cmd : Command) (cs : List Command) (c : Console) :
    ((perform (cmd :: cs)).run c).state = ((perform cs).run (cmd.action.run c).state).state := by
  rcases h : cmd.action.run c with ⟨r, c', t⟩
  rw [perform, Action.run_bind_ok (Action.run_attempt h)]

theorem accesses_perform_cons (cmd : Command) (cs : List Command) (c : Console) :
    ((perform (cmd :: cs)).run c).accesses =
      (cmd.action.run c).accesses ++ ((perform cs).run (cmd.action.run c).state).accesses := by
  rcases h : cmd.action.run c with ⟨r, c', t⟩
  rw [perform, Action.run_bind_ok (Action.run_attempt h)]
  exact Event.accesses_append _ _

-- ---------------------------------------------------------------------------
-- Steps
-- ---------------------------------------------------------------------------

theorem onProcessor_run {α : Type} {x : Action (Processor MemoryMap) α} {c : Console}
    {r : Except Fault α} {q : Processor MemoryMap} {t : List Event}
    (h : x.run c.processor = ⟨r, q, t⟩) :
    (onProcessor x).run c = ⟨r, { c with processor := q }, t⟩ := by
  obtain ⟨p, viewport⟩ := c
  simp only [Action.run] at h ⊢
  simp [onProcessor, h]

/-- A step of the console is one of its processor, after which the picture unit's
clock runs for the time that it took. -/
theorem step_run {c : Console} {r : Except Fault Unit} {q : Processor MemoryMap} {t : List Event}
    {elapsed : UInt64} (h : Processor.step.run c.processor = ⟨r, q, t⟩)
    (he : q.cycles.t - c.processor.cycles.t = elapsed) :
    step.run c = ⟨r.map fun _ => elapsed,
      { c with processor := { q with bus := advancePicture elapsed q.bus } }, t⟩ := by
  subst he
  refine onProcessor_run ?_
  rw [Action.run_bind_gets, Action.run_bind_ok (Action.run_attempt h), Action.run_bind_gets,
    Action.run_bind_ok (x := Processor.onBus (.modify (advancePicture _))) (t := []) rfl]
  cases r with
  | ok u => simp [Action.run_pure, Except.map]
  | error e => simp [Action.run, Action.fault, Except.map]

namespace Command

def drives : Command → Bool
  | .step | .runSteps _ | .runFrame => true
  | _ => false

theorem steps {cmd : Command} (h : cmd.drives = true) (c : Console) :
    ∃ k, (cmd.action.run c).state = Console.step.after k c ∧
      (cmd.action.run c).accesses = Console.step.traffic k c := by
  cases cmd with
  | step =>
    rw [action, Action.run_ignore]
    exact ⟨1, rfl, (List.append_nil _).symm⟩
  | runSteps count =>
    rw [action, Action.run_ignore]
    exact Action.accumulate_after count c
  | runFrame =>
    rw [action, Console.runFrame, ← Action.ignore, Action.run_ignore]
    exact Action.accumulate_after frameSteps c
  | _ => cases h

end Command

theorem perform_steps {cs : List Command} (h : ∀ cmd ∈ cs, cmd.drives = true) (c : Console) :
    ∃ k, ((perform cs).run c).state = step.after k c ∧
      ((perform cs).run c).accesses = step.traffic k c := by
  induction cs generalizing c with
  | nil => exact ⟨0, rfl, rfl⟩
  | cons cmd cs ih =>
    obtain ⟨hcmd, hcs⟩ := List.forall_mem_cons.mp h
    obtain ⟨k, hs, ht⟩ := cmd.steps hcmd c
    obtain ⟨l, hs', ht'⟩ := ih hcs (step.after k c)
    refine ⟨k + l, ?_, ?_⟩
    · rw [state_perform_cons, hs, hs', Action.after_add]
    · rw [accesses_perform_cons, hs, ht, ht', Action.traffic_add]

theorem accesses_step (c : Console) :
    (step.run c).accesses = (Processor.step.run c.processor).accesses := by
  rcases hrun : Processor.step.run c.processor with ⟨r, q, t⟩
  rw [step_run hrun rfl]
  rfl

-- ---------------------------------------------------------------------------
-- Laws
-- ---------------------------------------------------------------------------

/-- A law of all that can happen to the processor of a console. -/
structure Law (R : Processor MemoryMap → List Access → Processor MemoryMap → Prop) : Prop extends
    Processor.StepLaw R where
  advances (p : Processor MemoryMap) (n : UInt64) : R p [] { p with bus := advancePicture n p.bus }
  takes (p : Processor MemoryMap) : R p [] { p with bus := p.bus.takeSerialOutput.2 }
  resets (p : Processor MemoryMap) : R p [] p.resetCycles
  debugs (p : Processor MemoryMap) (on : Bool) : R p [] { p with debugging := on }

namespace Law

variable {α : Type} {R : Processor MemoryMap → List Access → Processor MemoryMap → Prop}
  (hR : Law R)

include hR

theorem console : Action.Chain fun (c : Console) as c' => R c.processor as c'.processor where
  refl c := hR.refl c.processor
  trans h h' := hR.trans h h'

omit hR in
theorem onProcessor {x : Action (Processor MemoryMap) α} (hx : x.Obeys R) :
    (onProcessor x).Obeys fun c as c' => R c.processor as c'.processor := by
  rintro ⟨p, viewport⟩
  exact hx p

theorem advancing (n : UInt64) :
    (Processor.onBus (.modify (advancePicture n))).Obeys R := by
  rintro ⟨registers, bus, ime, pending, cycles, instructions, trace, debugging⟩
  exact hR.advances _ n

theorem taking : (Processor.onBus Console.takeSerialOutput).Obeys R := by
  rintro ⟨registers, bus, ime, pending, cycles, instructions, trace, debugging⟩
  exact hR.takes _

theorem step : Console.step.Obeys fun c as c' => R c.processor as c'.processor := by
  have hc := hR.toChain
  refine onProcessor <| .bind hc (.gets hc _) fun before => ?_
  refine .bind hc (.attempt hR.toStepLaw.step) fun result => ?_
  refine .bind hc (.gets hc _) fun elapsed => .bind hc (hR.advancing elapsed) fun _ => ?_
  cases result with
  | ok u => exact .pure hc elapsed
  | error e => exact .fault hc e

theorem command (c : Command) :
    c.action.Obeys fun c as c' => R c.processor as c'.processor := by
  cases c with
  | step => exact .ignore hR.console hR.step
  | runSteps count => exact .ignore hR.console (.accumulate hR.console hR.step _ _)
  | runFrame => exact .ignore hR.console (.accumulate hR.console hR.step _ _)
  | stepProcessor => exact onProcessor hR.toStepLaw.step
  | busRead address => exact onProcessor (.ignore hR.toChain (hR.obeys (.busRead address)))
  | busWrite address v => exact onProcessor (hR.obeys (.busWrite address v))
  | read address => exact onProcessor (.ignore hR.toChain (hR.obeys (.read address)))
  | write address v => exact onProcessor (hR.obeys (.write address v))
  | push w => exact onProcessor (hR.obeys (.push w))
  | pop => exact onProcessor (.ignore hR.toChain (hR.obeys .pop))
  | elapse n => exact onProcessor (hR.obeys (.elapsing n))
  | setRegisters r => exact onProcessor (hR.obeys (.updating _))
  | setInterrupts on => exact onProcessor fun p => hR.switches p on
  | schedule t => exact onProcessor fun p => hR.schedules p t
  | resetCycles => exact onProcessor hR.resets
  | setDebugging on => exact onProcessor fun p => hR.debugs p on
  | takeSerialOutput => exact onProcessor (.ignore hR.toChain hR.taking)

theorem perform (cs : List Command) :
    (perform cs).Obeys fun c as c' => R c.processor as c'.processor := by
  induction cs with
  | nil => exact .pure hR.console _
  | cons c cs ih => exact .bind hR.console (.attempt (hR.command c)) fun _ => ih

end Law

/-- A law of all that can happen to the memory map of a console. -/
structure BusLaw (R : MemoryMap → List Access → MemoryMap → Prop) : Prop extends
    Action.Chain R where
  read (m : MemoryMap) (address : UInt16) : R m [.read address] m
  store (m : MemoryMap) (address : UInt16) (v : UInt8) :
    R m [.write address v] (Bus.store m address v)
  advance (m : MemoryMap) (n : UInt64) : R m [] (advancePicture n m)
  takeSerial (m : MemoryMap) : R m [] m.takeSerialOutput.2

namespace BusLaw

variable {R : MemoryMap → List Access → MemoryMap → Prop} (hR : BusLaw R)

include hR

theorem bus : Bus.Law R where
  toChain := hR.toChain
  reads _ := hR.read _ _
  writes _ := hR.store _ _ _

theorem console : Law fun p as q => R p.bus as q.bus where
  toStepLaw := Processor.busLaw hR.bus
  advances p n := hR.advance p.bus n
  takes p := hR.takeSerial p.bus
  resets p := hR.refl p.bus
  debugs p _ := hR.refl p.bus

theorem perform (cs : List Command) :
    (perform cs).Obeys fun c as c' => R c.processor.bus as c'.processor.bus :=
  hR.console.perform cs

end BusLaw

end Console

end Handheld
