import Handheld.Proofs.Effects

/-!
# Where control goes

Most instructions leave control at the byte after them. The others send it where
their literal, HL, their own opcode or the stack says, if their condition holds
under the flags before, and change nothing but the program counter and the stack.
-/

namespace Handheld

namespace Operation

def transfers : Operation → Bool
  | .jump _ | .jumpHL | .jumpRelative _ | .call _ | .ret _ | .retEnable | .restart _ => true
  | _ => false

theorem pc_effect {op : Operation} (h : op.transfers = false) (l : Literal)
    (read : UInt16 → UInt8) (r : Registers) : (op.effect l read r).registers.pc = r.pc := by
  cases op with
  | jump | jumpHL | jumpRelative | call | ret | retEnable | restart => cases h
  | load target source | loadLiteral target | reset i target | set i target =>
    exact Operand.pc_put _ _ r
  | increment target | decrement target | shift op target => exact Operand.pc_put _ _ r
  | loadWord target | incrementWord target | decrementWord target =>
    exact Registers.pc_setWord r _ _
  | storeThrough p | loadThrough p => exact Pointer.pc_move p r
  | pop p => exact Registers.pc_setPair _ p _
  | _ => rfl

theorem primary_restart {opcode vector : UInt8} (h : primary opcode = .restart vector) :
    vector.toUInt16 = UInt16.ofNat (8 * (Opcode.row opcode).val) := by
  have hvector : vector = UInt8.ofNat (8 * (Opcode.row opcode).val) := by
    rw [Nat.mul_comm]
    unfold primary at h
    split at h
    · simp only [firstBlock, relativeRow, alternate, accumulatorRow] at h
      repeat' split at h
      all_goals cases h
    · simp only [loadBlock] at h
      split at h <;> cases h
    · cases h
    · simp only [lastBlock, conditionalRow] at h
      repeat' split at h
      all_goals first | (cases h; done) | (cases h; rfl)
  have hrow := (Opcode.row opcode).isLt
  rw [hvector]
  apply UInt16.toNat_inj.mp
  simp only [UInt8.toNat_toUInt16, UInt8.toNat_ofNat', UInt16.toNat_ofNat']
  omega

end Operation

-- ---------------------------------------------------------------------------
-- Decoded instructions
-- ---------------------------------------------------------------------------

namespace Bus

variable {β : Type} [Bus β] {b : β} {address : UInt16} {d : Decoded}

theorem instructionAt_opcodeSize (hd : instructionAt b address = d)
    (h : d.operation.ofSecondTable = false) : d.opcodeSize = 1 := by
  have hprefixed := instructionAt_ofSecondTable b address
  rw [hd, h] at hprefixed
  rw [Decoded.opcodeSize, ← hprefixed]
  rfl

theorem instructionAt_byte (hd : instructionAt b address = d)
    (h : d.operation.ofSecondTable = false) (hk : d.operation.literal = .byte) :
    d.literal.toByte = peek b (address + 1) ∧ d.size = 2 := by
  have hone := instructionAt_opcodeSize hd h
  have hl := instructionAt_literal b address
  rw [hd, hk, hone] at hl
  rw [hl, Decoded.size, hone, hk]
  exact ⟨rfl, rfl⟩

theorem instructionAt_word (hd : instructionAt b address = d)
    (h : d.operation.ofSecondTable = false) (hk : d.operation.literal = .word) :
    d.literal.toWord = Word.ofBytes (peek b (address + 1)) (peek b (address + 2)) ∧
      d.size = 3 := by
  have hone := instructionAt_opcodeSize hd h
  have hl := instructionAt_literal b address
  rw [hd, hk, hone] at hl
  rw [hl, Decoded.size, hone, hk]
  refine ⟨?_, rfl⟩
  show Word.ofBytes (peek b (address + 1)) (peek b (address + 1 + 1)) = _
  rw [UInt16.add_assoc]
  rfl

/-- Restarts are all in the first table, so the opcode is the byte at the address. -/
theorem instructionAt_restart {vector : UInt8} (hd : instructionAt b address = d)
    (h : d.operation = .restart vector) :
    vector.toUInt16 = UInt16.ofNat (8 * (Opcode.row d.opcode).val) := by
  have hprefixed := instructionAt_ofSecondTable b address
  have htable := instructionAt_operation b address
  rw [hd, h] at hprefixed htable
  have hprimary : Operation.primary d.opcode = .restart vector := by
    rw [htable, ← hprefixed]
    rfl
  exact Operation.primary_restart hprimary

theorem instructionAt_size (hd : instructionAt b address = d) :
    d.size = if peek b address = Opcode.extension then 2 else 1 + d.operation.literal.size := by
  subst hd
  by_cases hx : peek b address = Opcode.extension
  · rw [if_pos hx, instructionAt_of_extension hx, Decoded.size, Operation.extended_literal]
    rfl
  · rw [if_neg hx, instructionAt_of_ne hx]
    rfl

end Bus

-- ---------------------------------------------------------------------------
-- Transfers of control
-- ---------------------------------------------------------------------------

namespace Processor

variable {β : Type} [Bus β]

def Jumped (p q : Processor β) (target : UInt16) : Prop :=
  q.registers = { p.registers with pc := target } ∧ q.bus = p.bus

def Called (p q : Processor β) (target back : UInt16) : Prop :=
  let sp := p.registers.sp
  q.registers = { p.registers with pc := target, sp := sp - 2 } ∧
    q.bus = Bus.store (Bus.store p.bus (sp - 1) (Word.high back)) (sp - 2) (Word.low back)

def Returned (p q : Processor β) : Prop :=
  let sp := p.registers.sp
  q.registers = { p.registers with
    pc := Word.ofBytes (Bus.peek p.bus (sp + 1)) (Bus.peek p.bus sp), sp := sp + 2 } ∧
    q.bus = p.bus

theorem Reached.when {p q : Processor β} {met : Bool} {next : UInt16} {e : Effect}
    (h : Reached p q (.when met { p.registers with pc := next } e)) :
    if met then Reached p q e else Jumped p q next := by
  unfold Effect.when at h
  split at h
  · rename_i hm
    rwa [if_pos hm]
  · rename_i hm
    rwa [if_neg hm]

/-- A step that succeeds leaves control at the byte after the instruction, unless
the instruction transfers it. A conditional transfer takes place exactly if its
condition holds before the step; if not, control moves on and nothing else does. -/
theorem step_control (p : Processor β) (h : (step.run p).result = .ok ()) :
    let d := Bus.instructionAt p.bus p.registers.pc
    let r := p.registers
    let q := (step.run p).state
    let next := r.pc + UInt16.ofNat d.size
    let word := Word.ofBytes (Bus.peek p.bus (r.pc + 1)) (Bus.peek p.bus (r.pc + 2))
    let byte := Bus.peek p.bus (r.pc + 1)
    d.size = (if Bus.peek p.bus r.pc = Opcode.extension then 2 else 1 + d.operation.literal.size) ∧
      match d.operation with
      | .jump c => if Condition.met r.flags c then Jumped p q word else Jumped p q next
      | .jumpRelative c =>
        if Condition.met r.flags c then Jumped p q (r.pc + 2 + Byte.signExtend byte)
        else Jumped p q next
      | .jumpHL => Jumped p q r.hl
      | .call c => if Condition.met r.flags c then Called p q word next else Jumped p q next
      | .restart _ => Called p q (UInt16.ofNat (8 * (Opcode.row d.opcode).val)) next
      | .ret c => if Condition.met r.flags c then Returned p q else Jumped p q next
      | .retEnable => Returned p q
      | _ => q.registers.pc = next := by
  intro d r q next word byte
  have hd : Bus.instructionAt p.bus p.registers.pc = d := rfl
  refine ⟨Bus.instructionAt_size hd, ?_⟩
  have hreached := Reached.of_step hd h
  have hword := Bus.instructionAt_word hd
  have hbyte := Bus.instructionAt_byte hd
  unfold Decoded.effect at hreached
  cases hop : d.operation with
  | jump c =>
    rw [hop] at hreached hword
    obtain ⟨hw, -⟩ := hword rfl rfl
    simp only [Operation.effect, hw] at hreached
    exact hreached.when
  | jumpRelative c =>
    rw [hop] at hreached hbyte
    obtain ⟨hb, hsize⟩ := hbyte rfl rfl
    simp only [Operation.effect, hb, hsize] at hreached
    simp only [next, hsize]
    exact hreached.when
  | jumpHL =>
    rw [hop] at hreached
    exact hreached
  | call c =>
    rw [hop] at hreached hword
    obtain ⟨hw, -⟩ := hword rfl rfl
    simp only [Operation.effect, hw] at hreached
    exact hreached.when
  | restart vector =>
    rw [hop] at hreached
    simp only [Operation.effect, Bus.instructionAt_restart hd hop] at hreached
    exact hreached
  | ret c =>
    rw [hop] at hreached
    exact hreached.when
  | retEnable =>
    rw [hop] at hreached
    exact hreached
  | _ =>
    rw [hop] at hreached
    rw [hreached.1]
    exact Operation.pc_effect rfl _ _ _

/-- A processor at a call that begins at the last address there is, with its stack
pointer at the first one. -/
def atWrap : Processor MemoryMap :=
  { bus := { MemoryMap.new ⟨#[0x12, 0x34]⟩ none with interruptEnable := 0xCD }
    registers := { pc := 0xFFFF } }

theorem step_control_atWrap :
    (step.run atWrap).result = .ok () ∧ Called atWrap (step.run atWrap).state 0x1234 0x0002 ∧
      (step.run atWrap).state.registers.sp = 0xFFFE := by
  have h : (step.run atWrap).result = .ok () := rfl
  have hcalled : Called atWrap (step.run atWrap).state 0x1234 0x0002 := (step_control atWrap h).2
  exact ⟨h, hcalled, congrArg Registers.sp hcalled.1⟩

end Processor

end Handheld
