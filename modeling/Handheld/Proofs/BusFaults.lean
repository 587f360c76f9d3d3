import Handheld.MemoryMap
import Handheld.Proofs.Stepping

/-!
# What a bus fault does to the registers

A fault of the bus comes before the registers and flags of an instruction are
set: the last access that can fail precedes them all. The one exception is a
pointer that moves HL, which does so before its access. A fault of that access
leaves HL moved.
-/

namespace Handheld

def Operation.movesHL : Operation → Bool
  | .storeThrough p | .loadThrough p => p = .hlIncrement || p = .hlDecrement
  | _ => false

theorem Operation.aim_of_not_movesHL {op : Operation} (h : op.movesHL = false) (r : Registers) :
    op.aim r = r := by
  cases op with
  | storeThrough p | loadThrough p => cases p <;> first | rfl | cases h
  | _ => rfl

theorem Operation.aim_pc (op : Operation) (r : Registers) (pc : UInt16) :
    op.aim { r with pc } = { op.aim r with pc } := by
  cases op with
  | storeThrough p | loadThrough p => cases p <;> rfl
  | _ => rfl

theorem Operation.hl_aim_ne {op : Operation} (h : op.movesHL = true) (r : Registers) :
    (op.aim r).hl ≠ r.hl := by
  have hup : r.hl + 1 ≠ r.hl := by simp
  have hdown : r.hl - 1 ≠ r.hl := by simp [UInt16.sub_eq_add_neg]
  cases op with
  | storeThrough p | loadThrough p =>
    cases p with
    | bc | de => cases h
    | hlIncrement =>
      rw [aim, Pointer.move, Registers.hl_setHL]
      exact hup
    | hlDecrement =>
      rw [aim, Pointer.move, Registers.hl_setHL]
      exact hdown
  | _ => cases h

namespace Bus

variable {β : Type} [Bus β]

theorem Readable.isSome {b : β} {address x : UInt16} {n : Nat} (h : Readable b address n)
    (hx : .read x ∈ Beat.fetches address n) : (read? b x).isSome = true := by
  induction n generalizing address with
  | zero => cases hx
  | succ n ih =>
    obtain ⟨hfirst, hrest⟩ := h
    rcases List.mem_cons.mp hx with heq | hx
    · cases heq
      exact hfirst
    · exact ih hrest hx

end Bus

theorem Beat.mem_fetches {beat : Beat} {address : UInt16} {n : Nat}
    (h : beat ∈ fetches address n) : ∃ x, beat = .read x := by
  induction n generalizing address with
  | zero => cases h
  | succ n ih =>
    rcases List.mem_cons.mp h with rfl | h
    · exact ⟨address, rfl⟩
    · exact ih h

namespace Processor

variable {β : Type} [Bus β] {p q : Processor β} {d : Decoded} {e : Fault} {t : List Event}

theorem decode_error (hd : Bus.instructionAt p.bus p.registers.pc = d)
    (hi : d.operation.implemented = true) (h : decode.run p = ⟨.error e, q, t⟩) :
    Fetching p q ∧ ¬Bus.Readable p.bus p.registers.pc d.size := by
  obtain ⟨⟨n, rfl⟩, past, beat, rest, hbeats, -, href⟩ := (decode_paced p hd hi).error h
  refine ⟨⟨n, rfl⟩, fun hr => ?_⟩
  have hmem : beat ∈ Beat.fetches p.registers.pc d.size := by
    rw [hbeats]
    exact List.mem_append_right past List.mem_cons_self
  obtain ⟨x, rfl⟩ := Beat.mem_fetches hmem
  have hx := hr.isSome hmem
  rw [show Bus.read? p.bus x = none from href.1] at hx
  cases hx

/-- A bus fault of a step came up either between the bytes of the instruction, or
once they were all read. -/
theorem step_unmapped {address : UInt16} {direction : Direction}
    (hd : Bus.instructionAt p.bus p.registers.pc = d)
    (h : (step.run p).result = .error (.unmapped address direction)) :
    ¬Bus.Readable p.bus p.registers.pc d.size ∧ Fetching p.settle (step.run p).state ∨
      Bus.Readable p.bus p.registers.pc d.size ∧
        Stalled (launched d p.settle) (step.run p).state := by
  cases hi : d.operation.implemented with
  | false =>
    obtain ⟨t, hrun, -⟩ := step_unimplemented p hd hi
    rw [hrun] at h
    cases h
  | true =>
    have hd' : Bus.instructionAt p.settle.bus p.settle.registers.pc = d := by
      simpa using hd
    rcases hdecode : decode.run p.settle with ⟨e | d', q, t⟩
    · obtain ⟨u, -, hrun⟩ := step_of_decode_error hdecode
      obtain ⟨hfetching, hr⟩ := decode_error hd' hi hdecode
      rw [bus_settle, registers_settle] at hr
      rw [hrun] at h ⊢
      obtain rfl : e = .unmapped address direction := Except.error.inj h
      exact .inl ⟨hr, hfetching⟩
    · obtain ⟨-, rfl, rfl, hr⟩ := (decode_paced p.settle hd' hi).ok hdecode
      rw [bus_settle, registers_settle] at hr
      have hlaunch := launch_paced d' p.settle hi (hd ▸ Bus.instructionAt_ne_extend _ _)
      rw [step_of_decode_ok hdecode] at h ⊢
      refine .inr ⟨hr, ?_⟩
      exact (Action.Triple.of_result_error hlaunch h).1

/-- A bus fault leaves all registers but the program counter as they were, unless
it comes from the access of a pointer that moves HL: then HL has moved. -/
theorem registers_after_bus_fault (p : Processor β) {address : UInt16} {direction : Direction}
    (h : (step.run p).result = .error (.unmapped address direction)) :
    let d := Bus.instructionAt p.bus p.registers.pc
    let r := p.registers
    let q := (step.run p).state.registers
    (¬Bus.Readable p.bus r.pc d.size → q = { r with pc := q.pc }) ∧
      (Bus.Readable p.bus r.pc d.size → q = { d.operation.aim r with pc := q.pc }) ∧
      (q = { r with pc := q.pc } ↔
        ¬(d.operation.movesHL = true ∧ Bus.Readable p.bus r.pc d.size)) := by
  intro d r q
  rcases step_unmapped (p := p) (d := d) rfl h with ⟨hr, n, hq⟩ | ⟨hr, bus, cycles, hq⟩
  · have hkept : q = { r with pc := q.pc } := by
      simp only [q, hq, fetched, elapse, setRegisters, registers_settle, r]
    exact ⟨fun _ => hkept, fun hr' => absurd hr' hr, fun _ hm => hr hm.2, fun _ => hkept⟩
  · have haimed : q = { d.operation.aim r with pc := q.pc } := by
      simp only [q, hq, launched, fetched, elapse, setRegisters, registers_settle,
        Operation.aim_pc, r]
    refine ⟨fun hr' => absurd hr hr', fun _ => haimed, fun hkept hm => ?_, fun hm => ?_⟩
    · refine Operation.hl_aim_ne hm.1 r ?_
      calc (d.operation.aim r).hl
        _ = q.hl := by rw [haimed]; rfl
        _ = r.hl := by rw [hkept]; rfl
    · have hstill : d.operation.movesHL = false :=
        Bool.eq_false_iff.mpr fun hmoves => hm ⟨hmoves, hr⟩
      rwa [Operation.aim_of_not_movesHL hstill] at haimed

def atHole : Processor MemoryMap :=
  { bus := .new ⟨#[0x22]⟩ none, registers := { a := 0x11, h := 0xA0 } }

theorem registers_after_bus_fault_atHole :
    (step.run atHole).result = .error (.unmapped 0xA000 .write) ∧
      (step.run atHole).state.registers =
        { a := 0x11, h := 0xA0, l := 0x01, pc := 0x0001 } := by
  have h : (step.run atHole).result = .error (.unmapped 0xA000 .write) := rfl
  have hr : Bus.Readable atHole.bus atHole.registers.pc 1 := ⟨rfl, trivial⟩
  exact ⟨h, (registers_after_bus_fault atHole h).2.1 hr⟩

/-- Not every bus fault leaves the registers alone. -/
theorem bus_fault_moves_hl :
    ¬∀ (p : Processor MemoryMap) (address : UInt16) (direction : Direction),
      (step.run p).result = .error (.unmapped address direction) →
        (step.run p).state.registers =
          { p.registers with pc := (step.run p).state.registers.pc } := by
  intro hkept
  have h := hkept atHole 0xA000 .write rfl
  exact absurd (congrArg Registers.l h) (by decide)

end Processor

end Handheld
