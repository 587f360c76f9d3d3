import Handheld.Proofs.Effects
import Handheld.Proofs.Repeating

/-!
# The interrupt switch and its delay

A change to the interrupt switch that an instruction announces waits for exactly
one step: it takes effect when the next one begins, however that ends. So at most
one change is ever waiting, and where the switch stands follows from the last two
steps. Only returning from an interrupt turns it on without delay.
-/

namespace Handheld.Processor

variable {β : Type} [Bus β] {p : Processor β}

def executed? (p : Processor β) : Option Operation :=
  match (step.run p).result with
  | .ok _ => some (Bus.instructionAt p.bus p.registers.pc).operation
  | .error _ => none

theorem executed?_of_ok (h : (step.run p).result = .ok ()) :
    executed? p = some (Bus.instructionAt p.bus p.registers.pc).operation := by
  rw [executed?, h]

theorem executed?_of_error {e : Fault} (h : (step.run p).result = .error e) :
    executed? p = none := by
  rw [executed?, h]

-- ---------------------------------------------------------------------------
-- One step
-- ---------------------------------------------------------------------------

theorem switch_of_error {e : Fault} (h : (step.run p).result = .error e) :
    (step.run p).state.ime = p.dueIme ∧ (step.run p).state.pending = none := by
  rcases state_of_error h with ⟨n, hq⟩ | ⟨bus, cycles, hq⟩
  · rw [hq, settle_eq]
    exact ⟨rfl, rfl⟩
  · rw [hq, settle_eq]
    exact ⟨rfl, rfl⟩

theorem pending_step (p : Processor β) :
    (step.run p).state.pending = (executed? p).bind Operation.toggle? := by
  cases h : (step.run p).result with
  | error e =>
    rw [(switch_of_error h).2, executed?_of_error h]
    rfl
  | ok u =>
    rw [step_effect rfl h, executed?_of_ok h]
    rfl

theorem ime_step (p : Processor β) :
    (step.run p).state.ime = if executed? p = some .retEnable then true else p.dueIme := by
  cases h : (step.run p).result with
  | error e =>
    rw [(switch_of_error h).1, executed?_of_error h]
    rfl
  | ok u =>
    rw [step_effect rfl h, executed?_of_ok h]
    cases (Bus.instructionAt p.bus p.registers.pc).operation <;> simp [Operation.switchesOn]

/-- What a step decides about the switch, if it decides anything. -/
def decision? (p : Processor β) : Option Bool :=
  if executed? p = some .retEnable then some true else p.pending.map (· == .enable)

theorem ime_step_eq (p : Processor β) :
    (step.run p).state.ime = (decision? p).getD p.ime := by
  rw [ime_step, decision?]
  split
  · rfl
  · unfold dueIme
    cases p.pending <;> rfl

-- ---------------------------------------------------------------------------
-- Runs
-- ---------------------------------------------------------------------------

/-- After any number of steps the switch stands as the last step left it that
decided about it. -/
theorem ime_after (p : Processor β) (n : Nat) :
    (step.after n p).ime =
      ((List.range n).reverse.findSome? fun k => decision? (step.after k p)).getD p.ime := by
  induction n with
  | zero => rfl
  | succ n ih =>
    rw [Action.after_succ, ime_step_eq, ih, List.range_succ, List.reverse_append,
      List.reverse_singleton, List.singleton_append, List.findSome?_cons]
    cases decision? (step.after n p) <;> rfl

omit [Bus β] in
theorem foldl_schedule (p : Processor β) (ts : List Toggle) (t : Toggle) :
    (ts ++ [t]).foldl schedule p = p.schedule t := by
  induction ts generalizing p with
  | nil => rfl
  | cons u us ih => exact ih (p.schedule u)

/-- After each step a change to the interrupt switch is waiting exactly if that very
step executed the instruction that announces it. The switch is on after a return
from an interrupt that succeeded; else it stands as the change says that waited
before the step, whatever came of the step; else as before. Of several changes
announced between two steps the last one counts. -/
theorem interrupt_switch (p : Processor β) :
    let s := fun n => step.after n p
    (∀ n, (s (n + 1)).pending =
      match executed? (s n) with
      | some .disableInterrupts => some .disable
      | some .enableInterrupts => some .enable
      | _ => none) ∧
    (∀ n, (s (n + 1)).ime =
      if executed? (s n) = some .retEnable then true
      else
        match (s n).pending with
        | some .enable => true
        | some .disable => false
        | none => (s n).ime) ∧
    (∀ n, (s (n + 2)).ime =
      if executed? (s (n + 1)) = some .retEnable then true
      else
        match executed? (s n) with
        | some .enableInterrupts => true
        | some .disableInterrupts => false
        | _ => (s (n + 1)).ime) ∧
    (∀ n, (s n).ime =
      ((List.range n).reverse.findSome? fun k => decision? (s k)).getD p.ime) ∧
    ∀ (ts : List Toggle) (t : Toggle), (ts ++ [t]).foldl schedule p = p.schedule t := by
  intro s
  have hpending : ∀ n, (s (n + 1)).pending = (executed? (s n)).bind Operation.toggle? := by
    intro n
    simp only [s, Action.after_succ]
    exact pending_step _
  have hime : ∀ n, (s (n + 1)).ime =
      if executed? (s n) = some .retEnable then true else (s n).dueIme := by
    intro n
    simp only [s, Action.after_succ]
    exact ime_step _
  refine ⟨fun n => ?_, fun n => ?_, fun n => ?_, ime_after p, foldl_schedule p⟩
  · rw [hpending]
    cases executed? (s n) with
    | none => rfl
    | some op => cases op <;> rfl
  · rw [hime, dueIme]
    rcases (s n).pending with - | (- | -) <;> rfl
  · rw [hime, dueIme, hpending]
    cases executed? (s n) with
    | none => rfl
    | some op => cases op <;> rfl

end Handheld.Processor
