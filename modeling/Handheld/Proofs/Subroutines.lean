import Handheld.Proofs.Cells
import Handheld.Proofs.Success

/-!
# Subroutines

A call leaves the address after it in the two cells below the stack pointer. A return
that finds the stack pointer at these cells goes back to that address, whatever was
executed in between, if only none of it wrote to them.
-/

namespace Handheld

namespace Operation

def calls (f : Flags) : Operation → Bool
  | .call c => Condition.met f c
  | .restart _ => true
  | _ => false

def returns (f : Flags) : Operation → Bool
  | .ret c => Condition.met f c
  | .retEnable => true
  | _ => false

def callSize : Operation → Nat
  | .restart _ => 1
  | _ => 3

theorem effect_of_calls {op : Operation} {r : Registers} (h : op.calls r.flags = true)
    (l : Literal) (read : UInt16 → UInt8) : ∃ target, op.effect l read r = r.called target := by
  cases op with
  | call c => exact ⟨l.toWord, if_pos h⟩
  | restart vector => exact ⟨vector.toUInt16, rfl⟩
  | _ => cases h

theorem effect_of_returns {op : Operation} {r : Registers} (h : op.returns r.flags = true)
    (l : Literal) (read : UInt16 → UInt8) :
    op.effect l read r = { registers := r.returned read } := by
  cases op with
  | ret c => exact if_pos h
  | retEnable => rfl
  | _ => cases h

/-- A return is one byte of the first table, and not the one that stands for what cannot
be read. -/
theorem shape_of_returns {op : Operation} {f : Flags} (h : op.returns f = true) :
    op.ofSecondTable = false ∧ op.implemented = true ∧ op.literal = .none ∧
      op ≠ .restart 0x38 := by
  cases op with
  | ret c => exact ⟨rfl, rfl, rfl, by simp⟩
  | retEnable => exact ⟨rfl, rfl, rfl, by simp⟩
  | _ => cases h

theorem beats_of_returns {op : Operation} {r : Registers} (h : op.returns r.flags = true)
    (l : Literal) : op.beats l r = Beat.pop r ++ [.wait] := by
  cases op with
  | ret c => exact if_pos h
  | retEnable => rfl
  | _ => cases h

end Operation

namespace Bus

variable {β : Type} [Bus β] {b : β} {address : UInt16} {f : Flags}

theorem size_of_calls {d : Decoded} (hd : instructionAt b address = d)
    (h : d.operation.calls f = true) : d.size = d.operation.callSize := by
  cases hop : d.operation with
  | call c => exact (instructionAt_word hd (by rw [hop]; rfl) (by rw [hop]; rfl)).2
  | restart vector =>
    rw [Decoded.size, instructionAt_opcodeSize hd (by rw [hop]; rfl), hop]
    rfl
  | _ =>
    rw [hop] at h
    cases h

end Bus

namespace Processor

variable {β : Type} [Bus β] {same : UInt16 → UInt16 → Prop} {p : Processor β}

theorem called_of_calls {d : Decoded} (hd : Bus.instructionAt p.bus p.registers.pc = d)
    (h : (step.run p).result = .ok ()) (hcalls : d.operation.calls p.registers.flags = true) :
    ∃ target, Called p (step.run p).state target
      (p.registers.pc + UInt16.ofNat d.operation.callSize) := by
  have hreached := Reached.of_step hd h
  obtain ⟨target, heffect⟩ := Operation.effect_of_calls
    (r := { p.registers with pc := p.registers.pc + UInt16.ofNat d.size }) hcalls d.literal
    (Bus.peek p.bus)
  rw [Decoded.effect, heffect, Bus.size_of_calls hd hcalls] at hreached
  exact ⟨target, hreached⟩

theorem returned_of_returns {d : Decoded} (hd : Bus.instructionAt p.bus p.registers.pc = d)
    (h : (step.run p).result = .ok ()) (hreturns : d.operation.returns p.registers.flags = true) :
    Returned p (step.run p).state := by
  have hreached := Reached.of_step hd h
  have heffect := Operation.effect_of_returns
    (r := { p.registers with pc := p.registers.pc + UInt16.ofNat d.size }) hreturns d.literal
    (Bus.peek p.bus)
  rw [Decoded.effect, heffect] at hreached
  exact hreached

theorem ok_of_returns {hole : UInt16 → Prop} (hb : Bus.HolesAt β hole)
    (hreturns :
      (Bus.instructionAt p.bus p.registers.pc).operation.returns p.registers.flags = true)
    (hlow : (Bus.read? p.bus p.registers.sp).isSome = true)
    (hhigh : (Bus.read? p.bus (p.registers.sp + 1)).isSome = true) :
    (step.run p).result = .ok () := by
  obtain ⟨hs, hi, hliteral, hne⟩ := Operation.shape_of_returns hreturns
  refine ok_of_operation hb rfl hs hi hne ?_
  rw [attemptsAfter, hliteral, Operation.beats_of_returns hreturns]
  exact List.forall_mem_cons.mpr ⟨hlow, List.forall_mem_singleton.mpr hhigh⟩

/-- A subroutine that the processor calls finds back: after any number of steps none of
which writes to the two cells that were pushed, a return with the stack pointer at them
succeeds, continues behind the call and leaves the stack pointer where it was. -/
def FindsBack (same : UInt16 → UInt16 → Prop) (p : Processor β) : Prop :=
  ∀ n,
    let s := p.registers.sp
    let op := (Bus.instructionAt p.bus p.registers.pc).operation
    let q := step.after n (step.run p).state
    (step.run p).result = .ok () → op.calls p.registers.flags = true →
    (∀ a v, .write a v ∈ step.traffic n (step.run p).state → ¬same a (s - 1) ∧ ¬same a (s - 2)) →
    (Bus.instructionAt q.bus q.registers.pc).operation.returns q.registers.flags = true →
    q.registers.sp = s - 2 →
      (step.run q).result = .ok () ∧
        (step.run q).state.registers.pc = p.registers.pc + UInt16.ofNat op.callSize ∧
        (step.run q).state.registers.sp = s

section
variable (hroom : Bus.Room β same p.registers.sp 2)

include hroom

theorem read?_pushed {target back : UInt16} {q : Processor β} (hcalled : Called p q target back)
    {n : Nat} (hkept : ∀ a v, .write a v ∈ step.traffic n q →
      ¬same a (p.registers.sp - 1) ∧ ¬same a (p.registers.sp - 2)) :
    Bus.read? (step.after n q).bus (p.registers.sp - 1) = some (Word.high back) ∧
      Bus.read? (step.after n q).bus (p.registers.sp - 2) = some (Word.low back) := by
  have hhigh : Word.Below p.registers.sp 2 (p.registers.sp - 1) :=
    Word.below_down (by decide) (by decide)
  have hlow : Word.Below p.registers.sp 2 (p.registers.sp - 2) :=
    Word.below_down (by decide) (by decide)
  have hunwritten {a : UInt16} (ha : Word.Below p.registers.sp 2 a) :=
    (busLaw (hroom.unwritten ha)).step.after (busLaw (hroom.unwritten ha)).toChain n q
  rw [hunwritten hhigh fun a v hv => (hkept a v hv).1,
    hunwritten hlow fun a v hv => (hkept a v hv).2, hcalled.2]
  refine ⟨?_, hroom.written _ _ hlow (hroom.refl _)⟩
  rw [hroom.others _ _ hlow, hroom.written _ _ hhigh (hroom.refl _)]
  intro hs
  have htwo : 2 = 1 :=
    hroom.distinct (by decide) (by decide) (by decide) (by decide) hs
  cases htwo

theorem findsBack_of_room {hole : UInt16 → Prop} (hb : Bus.HolesAt β hole) :
    p.FindsBack same := by
  intro n s op q hok hcalls hkept hreturns hsp
  obtain ⟨target, hcalled⟩ := called_of_calls rfl hok hcalls
  obtain ⟨hhigh, hlow⟩ := read?_pushed hroom hcalled hkept
  have hnext : q.registers.sp + 1 = s - 1 := by
    rw [hsp]
    exact Word.down_add_one
  rw [← hnext] at hhigh
  rw [← hsp] at hlow
  have hdone : (step.run q).result = .ok () :=
    ok_of_returns hb hreturns (by rw [hlow]; rfl) (by rw [hhigh]; rfl)
  obtain ⟨hregisters, -⟩ := returned_of_returns rfl hdone hreturns
  refine ⟨hdone, ?_, ?_⟩
  · rw [hregisters]
    show Word.ofBytes _ _ = _
    rw [Bus.peek_of_read? hhigh, Bus.peek_of_read? hlow, Word.ofBytes_high_low]
  · rw [hregisters]
    show q.registers.sp + 2 = s
    rw [hsp]
    exact UInt16.sub_add_cancel _ _

end

/-- On flat memory every subroutine finds back. On the memory map of the console it does
if the two bytes below the stack pointer lie within one of the areas that keep what is
written. -/
theorem subroutines_find_back :
    (∀ p : Processor FlatMemory, p.FindsBack Eq) ∧
      ∀ (p : Processor MemoryMap) (area : MemoryMap.Area),
        (∀ a, Word.Below p.registers.sp 2 a → area.Contains a) →
          p.FindsBack MemoryMap.SamePlace :=
  ⟨fun _ => findsBack_of_room (.flatMemory (by decide)) .flatMemory,
    fun _ _ h => findsBack_of_room (MemoryMap.room h) .memoryMap⟩

def atNested : Processor MemoryMap where
  bus := .new ⟨#[0xCD, 0x00, 0x05, 0x00, 0x00, 0xCF, 0xC0, 0x00, 0xD9]⟩ none

theorem subroutines_find_back_atNested :
    let q := step.after 2 (step.run atNested).state
    step.traffic 2 (step.run atNested).state =
        [.read 0x0005, .write 0xFFFD 0x00, .write 0xFFFC 0x06, .read 0x0008, .read 0xFFFC,
          .read 0xFFFD] ∧
      (step.run q).result = .ok () ∧ (step.run q).state.registers.pc = 0x0003 ∧
      (step.run q).state.registers.sp = 0x0000 := by
  intro q
  have harea : ∀ a, Word.Below atNested.registers.sp 2 a → MemoryMap.Area.high.Contains a :=
    Word.forall_below.mpr (by decide)
  have hok : (step.run atNested).result = .ok () := rfl
  have hcalls : (Bus.instructionAt atNested.bus atNested.registers.pc).operation.calls
      atNested.registers.flags = true := by decide +kernel
  have htraffic : step.traffic 2 (step.run atNested).state =
      [.read 0x0005, .write 0xFFFD 0x00, .write 0xFFFC 0x06, .read 0x0008, .read 0xFFFC,
        .read 0xFFFD] := by decide +kernel
  have hkept : ∀ a v, .write a v ∈ step.traffic 2 (step.run atNested).state →
      ¬MemoryMap.SamePlace a 0xFFFF ∧ ¬MemoryMap.SamePlace a 0xFFFE := by
    intro a v hv
    rw [htraffic] at hv
    simp only [List.mem_cons, List.not_mem_nil, reduceCtorEq, Access.write.injEq, false_or,
      or_false] at hv
    rcases hv with ⟨rfl, -⟩ | ⟨rfl, -⟩ <;> decide
  have hreturns :
      (Bus.instructionAt q.bus q.registers.pc).operation.returns q.registers.flags = true := by
    decide +kernel
  have hsp : q.registers.sp = 0xFFFE := by decide +kernel
  have hsize : UInt16.ofNat
      (Bus.instructionAt atNested.bus atNested.registers.pc).operation.callSize = 3 := by
    decide +kernel
  obtain ⟨hdone, hpc, hback⟩ :=
    subroutines_find_back.2 atNested .high harea 2 hok hcalls hkept hreturns hsp
  refine ⟨htraffic, hdone, ?_, ?_⟩
  · rw [hpc, hsize]
    rfl
  · rw [hback]
    rfl

end Processor

end Handheld
