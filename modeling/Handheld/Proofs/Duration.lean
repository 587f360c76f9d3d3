import Handheld.MemoryMap
import Handheld.Proofs.Stepping

/-!
# How long an instruction takes

The documented length of an instruction is not consulted when it is executed:
the cycles add up from its beats. Both agree, for every operation of the two
tables, once a branch that is not taken is given a length of its own.
-/

namespace Handheld

namespace Operation

/-- The length in clock cycles under given flags: the documented one, unless a
condition keeps a branch from being taken. -/
def durationUnder (f : Flags) (op : Operation) : Nat :=
  match op with
  | .jump (some c) | .call (some c) => if c.holds f then op.duration else 12
  | .jumpRelative (some c) | .ret (some c) => if c.holds f then op.duration else 8
  | _ => op.duration

def ofSecondTable : Operation → Bool
  | .shift _ _ | .bit _ _ | .reset _ _ | .set _ _ => true
  | _ => false

theorem primary_ofSecondTable : ∀ opcode : UInt8, (primary opcode).ofSecondTable = false := by
  decide +kernel

theorem extended_ofSecondTable (opcode : UInt8) : (extended opcode).ofSecondTable = true := by
  unfold extended
  split <;> rfl

theorem primary_ne_load_memory : ∀ opcode : UInt8, primary opcode ≠ .load .memory .memory := by
  decide +kernel

theorem extended_ne_load_memory (opcode : UInt8) : extended opcode ≠ .load .memory .memory := by
  unfold extended
  split <;> simp

theorem byPlace_le {o : Operand} {m n k : Nat} (hm : m ≤ k) (hn : n ≤ k) :
    byPlace o m n ≤ k := by
  cases o with
  | register r => exact hn
  | memory => exact hm

theorem duration_le (op : Operation) : op.duration ≤ 24 := by
  unfold duration
  split
  all_goals first | decide | exact byPlace_le (by decide) (by decide)

theorem durationUnder_le (f : Flags) (op : Operation) : op.durationUnder f ≤ 24 := by
  have h := duration_le op
  unfold durationUnder
  split
  all_goals first | exact h | (split <;> first | exact h | decide)

theorem length_branch (c : Condition) (f : Flags) (n : Nat) (bs : List Beat) :
    4 * (n + (if c.holds f then bs else []).length) =
      if c.holds f then 4 * (n + bs.length) else 4 * n := by
  split <;> rfl

/-- Four clock cycles for each byte of the instruction, each cycle of its delay
and each beat of its operation make up its length. -/
theorem durationUnder_eq (op : Operation) (l : Literal) (r : Registers)
    (hi : op.implemented = true) (hx : op ≠ .extend) (hm : op ≠ .load .memory .memory) :
    op.durationUnder r.flags = 4 * ((if op.ofSecondTable then 2 else 1) + op.literal.size +
      op.delay + (op.beats l r).length) := by
  cases op with
  | unimplemented => cases hi
  | extend => exact absurd rfl hx
  | load target source => cases target <;> cases source <;> first | rfl | exact absurd rfl hm
  | loadLiteral o | alu _ o | increment o | decrement o | shift _ o | bit _ o | reset _ o
    | set _ o => cases o <;> rfl
  | jump c =>
    cases c with
    | none => rfl
    | some c => exact (length_branch c r.flags 3 [.wait]).symm
  | jumpRelative c =>
    cases c with
    | none => rfl
    | some c => exact (length_branch c r.flags 2 [.wait]).symm
  | call c =>
    cases c with
    | none => rfl
    | some c => exact (length_branch c r.flags 3 (.wait :: Beat.push r)).symm
  | ret c =>
    cases c with
    | none => rfl
    | some c => exact (length_branch c r.flags 2 (Beat.pop r ++ [.wait])).symm
  | _ => rfl

end Operation

namespace Bus

variable {β : Type} [Bus β]

theorem instructionAt_ofSecondTable (b : β) (address : UInt16) :
    (instructionAt b address).operation.ofSecondTable = (instructionAt b address).prefixed :=
  instructionAt_cases (P := fun d => d.operation.ofSecondTable = d.prefixed) b address
    Operation.extended_ofSecondTable fun opcode _ _ => Operation.primary_ofSecondTable opcode

theorem instructionAt_ne_load_memory (b : β) (address : UInt16) :
    (instructionAt b address).operation ≠ .load .memory .memory :=
  instructionAt_cases (P := fun d => d.operation ≠ .load .memory .memory) b address
    Operation.extended_ne_load_memory fun opcode _ _ => Operation.primary_ne_load_memory opcode

theorem durationUnder_instructionAt (b : β) (address : UInt16) (r : Registers)
    (hi : (instructionAt b address).operation.implemented = true) :
    (instructionAt b address).operation.durationUnder r.flags =
      4 * ((instructionAt b address).beats r).length := by
  rw [Operation.durationUnder_eq _ (instructionAt b address).literal r hi
    (instructionAt_ne_extend b address) (instructionAt_ne_load_memory b address),
    instructionAt_ofSecondTable]
  simp [Decoded.beats, Decoded.size, Decoded.opcodeSize, Nat.add_assoc]

theorem length_beats_le (b : β) (address : UInt16) (r : Registers)
    (hi : (instructionAt b address).operation.implemented = true) :
    ((instructionAt b address).beats r).length ≤ 6 := by
  have hle := Operation.durationUnder_le r.flags (instructionAt b address).operation
  rw [durationUnder_instructionAt _ _ _ hi] at hle
  omega

end Bus

namespace Processor

variable {β : Type} [Bus β]

theorem step_spent {p : Processor β} {d : Decoded}
    (hd : Bus.instructionAt p.bus p.registers.pc = d) (h : (step.run p).result = .ok ()) :
    d.operation.implemented = true ∧ Bus.Readable p.bus p.registers.pc d.size ∧
      Spent (d.beats p.registers) p (step.run p).state (step.run p).trail := by
  cases hi : d.operation.implemented with
  | false =>
    obtain ⟨t, hrun, -⟩ := step_unimplemented p hd hi
    rw [hrun] at h
    cases h
  | true =>
    have hrun : step.run p = ⟨.ok (), (step.run p).state, (step.run p).trail⟩ := by
      rw [← h]
    obtain ⟨hs, hr⟩ := (step_paced p hd hi).ok hrun
    exact ⟨rfl, hr, hs⟩

theorem step_cycles (p : Processor β) : ∃ n ≤ 6, (step.run p).state.cycles = p.cycles.add n := by
  cases hi : (Bus.instructionAt p.bus p.registers.pc).operation.implemented with
  | false =>
    obtain ⟨t, hrun, -⟩ := step_unimplemented p rfl hi
    refine ⟨0, Nat.zero_le 6, ?_⟩
    rw [hrun, cycles_settle, Cycles.add_zero]
  | true =>
    have hlen := Bus.length_beats_le p.bus p.registers.pc p.registers hi
    have hpaced := step_paced p rfl hi
    rcases hrun : step.run p with ⟨e | u, q, t⟩
    · obtain ⟨-, past, beat, rest, hbeats, hs, -⟩ := hpaced.error hrun
      rw [hbeats, List.length_append] at hlen
      exact ⟨past.length, by omega, hs.cycles⟩
    · obtain ⟨hs, -⟩ := hpaced.ok hrun
      exact ⟨_, hlen, hs.cycles⟩

/-- A step that succeeds takes exactly as long as documented for the instruction
that it read at the program counter, on every bus and from every state. -/
theorem step_duration (p : Processor β) (h : (step.run p).result = .ok ()) :
    let d := Bus.instructionAt p.bus p.registers.pc
    let n := d.operation.durationUnder p.registers.flags
    Bus.Readable p.bus p.registers.pc d.size ∧
      (step.run p).state.cycles.m = p.cycles.m + UInt64.ofNat (n / 4) ∧
      (step.run p).state.cycles.t = p.cycles.t + UInt64.ofNat n := by
  obtain ⟨hi, hr, hs⟩ := step_spent rfl h
  have hn := Bus.durationUnder_instructionAt p.bus p.registers.pc p.registers hi
  refine ⟨hr, ?_, ?_⟩
  · rw [hs.cycles, hn, Nat.mul_div_cancel_left _ (by decide)]
    rfl
  · rw [hs.cycles, hn, UInt64.ofNat_mul, UInt64.mul_comm]
    rfl

def atBranch : Processor MemoryMap :=
  { bus := .new ⟨#[0x20, 0x05]⟩ none, registers := { pc := 0, flags := { zero := true } } }

theorem step_duration_atBranch :
    (step.run atBranch).result = .ok () ∧ (step.run atBranch).state.cycles.m = 2 ∧
      (step.run atBranch).state.cycles.t = 8 := by
  have h : (step.run atBranch).result = .ok () := rfl
  obtain ⟨-, hm, ht⟩ := step_duration atBranch h
  exact ⟨h, hm, ht⟩

end Processor

end Handheld
