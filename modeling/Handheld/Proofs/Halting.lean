import Handheld.Proofs.Stepping
import Handheld.Proofs.WellFormed

/-!
# A machine that met no instruction stays where it is

A byte that stands for no instruction ends a step with everything as it was, but
for a pending change to the interrupt switch, which takes effect. From then on
every step ends the same way and changes nothing at all.
-/

namespace Handheld

namespace Processor

variable {β : Type} [Bus β]

section
variable {p : Processor β} {e : Fault} (he : e.isOpcode = true)
  (h : (step.run p).result = .error e)

include he h

/-- Only a byte that stands for no instruction ends a step with the fault of an
opcode: the bus has faults of its own. -/
theorem unimplemented_of_result :
    (Bus.instructionAt p.bus p.registers.pc).operation.implemented = false ∧
      e = .unimplemented (Bus.instructionAt p.bus p.registers.pc).opcode p.registers.pc := by
  cases hi : (Bus.instructionAt p.bus p.registers.pc).operation.implemented with
  | false =>
    obtain ⟨t, hrun, -⟩ := step_unimplemented p rfl hi
    rw [hrun] at h
    exact ⟨rfl, (Except.error.inj h).symm⟩
  | true =>
    rcases hrun : step.run p with ⟨f | u, q, t⟩
    · obtain ⟨-, past, beat, rest, -, -, href⟩ := (step_paced p rfl hi).error hrun
      rw [hrun] at h
      obtain rfl : f = e := Except.error.inj h
      cases beat with
      | wait => exact href.elim
      | read address => rw [href.2] at he; cases he
      | write address => rw [href.2] at he; cases he
    · rw [hrun] at h
      cases h

theorem step_run_unimplemented : ∃ t, step.run p = ⟨.error e, p.settle, t⟩ := by
  obtain ⟨hi, rfl⟩ := unimplemented_of_result he h
  obtain ⟨t, hrun, -⟩ := step_unimplemented p rfl hi
  exact ⟨t, hrun⟩

theorem step_run_settle : ∃ t, step.run p.settle = ⟨.error e, p.settle, t⟩ := by
  obtain ⟨hi, rfl⟩ := unimplemented_of_result he h
  have hd : Bus.instructionAt p.settle.bus p.settle.registers.pc =
      Bus.instructionAt p.bus p.registers.pc := by
    rw [bus_settle, registers_settle]
  obtain ⟨t, hrun, -⟩ := step_unimplemented p.settle hd hi
  rw [settle_settle, registers_settle] at hrun
  exact ⟨t, hrun⟩

end

end Processor

namespace Picture

theorem advance_zero {p : Picture} (h : p.dots < dotsPerFrame) : p.advance 0 = p := by
  have hdots : (p.advance 0).dots = p.dots := by
    apply UInt32.toNat_inj.mp
    rw [toNat_dots_advance h]
    exact Nat.mod_eq_of_lt (toNat_dots_lt h)
  show { p with dots := (p.advance 0).dots } = p
  rw [hdots]

end Picture

namespace Console

def settle (c : Console) : Console := { c with processor := c.processor.settle }

section
variable {c : Console} {e : Fault}

theorem processor_of_result (h : (step.run c).result = .error e) :
    (Processor.step.run c.processor).result = .error e := by
  rcases hrun : Processor.step.run c.processor with ⟨f | u, q, t⟩
  · rw [step_run hrun rfl] at h
    rw [Except.error.inj h]
  · rw [step_run hrun rfl] at h
    cases h

theorem step_run_of_cycles {q : Processor MemoryMap} {t : List Event}
    (h : Processor.step.run c.processor = ⟨.error e, q, t⟩)
    (hcycles : q.cycles = c.processor.cycles) (hdots : q.bus.picture.dots < Picture.dotsPerFrame) :
    step.run c = ⟨.error e, { c with processor := q }, t⟩ := by
  have helapsed : q.cycles.t - c.processor.cycles.t = 0 := by rw [hcycles, UInt64.sub_self]
  have hbus : advancePicture 0 q.bus = q.bus := by
    rw [advancePicture, show (0 : UInt64).toUInt32 = 0 from rfl, Picture.advance_zero hdots]
  rw [step_run h helapsed, hbus]
  rfl

variable (he : e.isOpcode = true) (h : (step.run c).result = .error e)
  (hdots : c.picture.dots < Picture.dotsPerFrame)

include he h hdots

theorem step_run_unimplemented : ∃ t, step.run c = ⟨.error e, c.settle, t⟩ := by
  obtain ⟨t, hrun⟩ := Processor.step_run_unimplemented he (processor_of_result h)
  refine ⟨t, step_run_of_cycles hrun (Processor.cycles_settle _) ?_⟩
  rwa [Processor.bus_settle]

theorem step_stuck : step.Stuck e c.settle := by
  obtain ⟨t, hrun⟩ := Processor.step_run_settle he (processor_of_result h)
  have hsettled := step_run_of_cycles (c := c.settle) hrun rfl (by rwa [Processor.bus_settle])
  rw [Action.Stuck, hsettled]
  exact ⟨rfl, rfl⟩

end

theorem runSteps_stuck {c : Console} {e : Fault} (h : step.Stuck e c) {n : Nat} (hn : 0 < n) :
    (runSteps n).Stuck e c :=
  h.accumulate rfl hn

theorem runFrame_stuck {c : Console} {e : Fault} (h : step.Stuck e c) : runFrame.Stuck e c := by
  have hloop : (Action.accumulate step (· < frameCycles) frameSteps).Stuck e c :=
    h.accumulate (by decide) (by decide)
  rcases hrun : (Action.accumulate step (· < frameCycles) frameSteps).run c with ⟨r, c', t⟩
  obtain ⟨rfl, rfl⟩ : r = .error e ∧ c' = c := by simpa only [Action.Stuck, hrun] using hloop
  rw [Action.Stuck, runFrame, Action.run_bind_error hrun]
  exact ⟨rfl, rfl⟩

/-- A step that meets no instruction does nothing but what was due for the
interrupt switch, and after it there is no way to go on: neither stepping again,
however often, nor running for some time changes anything. On the console that
takes a picture unit whose clock is within a frame, as it is after any commands. -/
theorem halted_for_good :
    (∀ {β : Type} [Bus β] (p : Processor β) (e : Fault), e.isOpcode = true →
      (Processor.step.run p).result = .error e →
      let q := (Processor.step.run p).state
      q = { p with ime := p.dueIme, pending := none } ∧
        ∀ k, Processor.step.after k q = q ∧ Processor.step.Stuck e (Processor.step.after k q)) ∧
    (∀ (c : Console) (e : Fault), e.isOpcode = true → c.picture.dots < Picture.dotsPerFrame →
      (step.run c).result = .error e →
      let c' := (step.run c).state
      c' = { c with processor := { c.processor with ime := c.processor.dueIme, pending := none } } ∧
        (∀ k, step.after k c' = c' ∧ step.Stuck e (step.after k c')) ∧
        (∀ n, 0 < n → (runSteps n).Stuck e c') ∧ runFrame.Stuck e c') ∧
    ∀ cartridge boot traceCapacity viewport cs,
      ((perform cs).run (new cartridge boot traceCapacity viewport)).state.picture.dots <
        Picture.dotsPerFrame := by
  refine ⟨?_, ?_, ?_⟩
  · intro β _ p e he h q
    obtain ⟨t, hrun⟩ := Processor.step_run_unimplemented he h
    obtain ⟨u, hagain⟩ := Processor.step_run_settle he h
    have hq : q = p.settle := by simp only [q, hrun]
    have hstuck : Processor.step.Stuck e q := by
      rw [hq, Action.Stuck, hagain]
      exact ⟨rfl, rfl⟩
    refine ⟨hq.trans (Processor.settle_eq p), fun k => ?_⟩
    rw [hstuck.after k]
    exact ⟨rfl, hstuck⟩
  · intro c e he hdots h c'
    obtain ⟨t, hrun⟩ := step_run_unimplemented he h hdots
    have hc : c' = c.settle := by simp only [c', hrun]
    have hstuck : step.Stuck e c' := hc ▸ step_stuck he h hdots
    refine ⟨?_, fun k => ?_, fun n hn => runSteps_stuck hstuck hn, runFrame_stuck hstuck⟩
    · rw [hc, settle, Processor.settle_eq]
    · rw [hstuck.after k]
      exact ⟨rfl, hstuck⟩
  · intro cartridge boot traceCapacity viewport cs
    exact (wellFormed_perform cartridge boot traceCapacity viewport cs).bus.picture.dots

/-- A console at a byte that stands for no instruction, at the last address there
is, with the interrupt switch about to change. -/
def atLastByte : Console where
  processor :=
    { bus := { MemoryMap.new ⟨#[]⟩ none with interruptEnable := 0x76 }
      registers := { pc := 0xFFFF }
      pending := some .enable }
  viewport := ⟨1, 1⟩

theorem halted_for_good_atLastByte :
    atLastByte.picture.dots < Picture.dotsPerFrame ∧
      (step.run atLastByte).result = .error (.unimplemented 0x76 0xFFFF) ∧
      (step.run atLastByte).state = { atLastByte with
        processor := { atLastByte.processor with ime := true, pending := none } } ∧
      ∀ n, 0 < n → (runSteps n).Stuck (.unimplemented 0x76 0xFFFF) (step.run atLastByte).state := by
  have hdots : atLastByte.picture.dots < Picture.dotsPerFrame := by decide
  have h : (step.run atLastByte).result = .error (.unimplemented 0x76 0xFFFF) := rfl
  obtain ⟨hstate, -, hruns, -⟩ := halted_for_good.2.1 atLastByte _ rfl hdots h
  exact ⟨hdots, h, hstate, hruns⟩

end Console

end Handheld
