import Handheld.Proofs.ControlFlow
import Handheld.Proofs.Decoding
import Handheld.Proofs.Faults

/-!
# When a step succeeds

A step succeeds if the bus answers wherever the instruction goes. An opcode that is no
restart is known to have been read, so only what comes after it is left to look at.
-/

namespace Handheld.Processor

variable {β : Type} [Bus β] {hole : UInt16 → Prop} {p : Processor β}

theorem ok_of_readable (hb : Bus.HolesAt β hole)
    (hi : (Bus.instructionAt p.bus p.registers.pc).operation.implemented = true)
    (h : ∀ a ∈ p.attempts, (Bus.read? p.bus a.2).isSome = true) : (step.run p).result = .ok () := by
  classical
  rw [result_ok_iff hb]
  constructor
  · intro a ha hhole
    have hread := h a ha
    rw [(hb.read? p.bus a.2).mpr hhole] at hread
    cases hread
  · intro opcode hopcode hread
    rw [(Bus.unimplemented_iff.mpr ⟨hread, hopcode⟩).1] at hi
    cases hi

/-- What was decoded was read, so only where the instruction itself goes is left to look at. -/
theorem ok_of_decoded (hb : Bus.HolesAt β hole) {d : Decoded} (h : p.decoded? = some d)
    (hbeats : ∀ a ∈ (d.operation.beats d.literal p.registers).filterMap Beat.access?,
      (Bus.read? p.bus a.2).isSome = true) : (step.run p).result = .ok () := by
  obtain ⟨rfl, hi, hr⟩ := decoded?_eq_some_iff.mp h
  refine ok_of_readable hb hi fun a ha => ?_
  simp only [attempts, Decoded.beats, List.filterMap_append, Beat.filterMap_access_waits,
    List.append_nil, List.mem_append, Bus.instructionAt_address] at ha
  rcases ha with ha | ha
  · obtain ⟨beat, hbeat, haccess⟩ := List.mem_filterMap.mp ha
    obtain ⟨x, rfl⟩ := Beat.mem_fetches hbeat
    cases haccess
    exact hr.isSome hbeat
  · exact hbeats a ha

def attemptsAfter (op : Operation) (p : Processor β) : List (Direction × UInt16) :=
  (Beat.fetches (p.registers.pc + 1) op.literal.size ++
    op.beats (Bus.instructionAt p.bus p.registers.pc).literal p.registers).filterMap Beat.access?

theorem attempts_eq {op : Operation}
    (hop : (Bus.instructionAt p.bus p.registers.pc).operation = op)
    (hs : op.ofSecondTable = false) :
    p.attempts = (.read, p.registers.pc) :: p.attemptsAfter op := by
  subst hop
  have hone := Bus.instructionAt_opcodeSize rfl hs
  rw [attempts, Decoded.beats, Decoded.size, hone, Bus.instructionAt_address, Beat.fetches_add]
  simp [attemptsAfter, Beat.fetches, Beat.access?]

theorem ok_of_operation (hb : Bus.HolesAt β hole) {op : Operation}
    (hop : (Bus.instructionAt p.bus p.registers.pc).operation = op)
    (hs : op.ofSecondTable = false) (hi : op.implemented = true) (hne : op ≠ .restart 0x38)
    (h : ∀ a ∈ p.attemptsAfter op, (Bus.read? p.bus a.2).isSome = true) :
    (step.run p).result = .ok () := by
  refine ok_of_readable hb (hop ▸ hi) ?_
  rw [attempts_eq hop hs]
  exact List.forall_mem_cons.mpr ⟨Bus.isSome_of_ne_restart (hop ▸ hne), h⟩

theorem step_updating (hb : Bus.HolesAt β hole) {op : Operation} {f : Registers → Registers}
    (hop : (Bus.instructionAt p.bus p.registers.pc).operation = op)
    (hs : op.ofSecondTable = false) (hi : op.implemented = true) (hne : op ≠ .restart 0x38)
    (hattempts : p.attemptsAfter op = [])
    (heffect : ∀ l read r, op.effect l read r = { registers := f r }) :
    (step.run p).result = .ok () ∧
      ∃ pc, (step.run p).state.registers = f { p.registers with pc } := by
  have hok : (step.run p).result = .ok () :=
    ok_of_operation hb hop hs hi hne (hattempts ▸ List.forall_mem_nil _)
  refine ⟨hok, p.registers.pc + UInt16.ofNat (Bus.instructionAt p.bus p.registers.pc).size, ?_⟩
  rw [(Reached.of_step rfl hok).1, Decoded.effect, hop, heffect]

end Handheld.Processor
