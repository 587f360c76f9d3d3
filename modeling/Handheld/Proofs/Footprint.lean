import Handheld.FlatMemory
import Handheld.Proofs.Faults
import Handheld.Proofs.Effects

/-!
# What an instruction leaves alone

The footprint of an operation: the registers it may change, the flags it keeps,
and the cells it writes. All else is as it was before. Operations that set all
four flags set them without looking at any old one but the carry.
-/

namespace Handheld

-- ---------------------------------------------------------------------------
-- Registers
-- ---------------------------------------------------------------------------

def Operand.registers : Operand → List ByteRegister
  | .register x => [x]
  | .memory => []

def WordRegister.bytes : WordRegister → List ByteRegister
  | .bc => [.b, .c]
  | .de => [.d, .e]
  | .hl => [.h, .l]
  | .sp => []

def StackPair.bytes : StackPair → List ByteRegister
  | .bc => [.b, .c]
  | .de => [.d, .e]
  | .hl => [.h, .l]
  | .af => [.a]

def Pointer.bytes : Pointer → List ByteRegister
  | .bc | .de => []
  | .hlIncrement | .hlDecrement => [.h, .l]

namespace Operation

def targets : Operation → List ByteRegister
  | .load target _ | .loadLiteral target | .increment target | .decrement target
  | .shift _ target | .reset _ target | .set _ target => target.registers
  | .loadWord target | .incrementWord target | .decrementWord target => target.bytes
  | .storeThrough p => p.bytes
  | .loadThrough p => .a :: p.bytes
  | .loadFrom | .loadLastPage | .loadLastPageC => [.a]
  | .hlFromStackPointer | .addHL _ => [.h, .l]
  | .pop p => p.bytes
  | .alu op _ | .aluLiteral op => if op = .cp then [] else [.a]
  | .rotateAccumulator _ | .decimalAdjust | .complement => [.a]
  | _ => []

def movesStack : Operation → Bool
  | .loadWord w | .incrementWord w | .decrementWord w => w = .sp
  | .stackPointerFromHL | .addStackPointer | .push _ | .pop _ | .call _ | .ret _ | .retEnable
  | .restart _ => true
  | _ => false

def kept : Operation → List Flag
  | .alu _ _ | .aluLiteral _ | .shift _ _ | .rotateAccumulator _ | .hlFromStackPointer
  | .addStackPointer | .pop .af => []
  | .increment _ | .decrement _ | .bit _ _ => [.carry]
  | .addHL _ | .setCarry | .complementCarry => [.zero]
  | .complement => [.zero, .carry]
  | .decimalAdjust => [.subtract]
  | _ => [.zero, .subtract, .halfCarry, .carry]

/-- The operation replaces all flags by ones of its own. -/
def renewsFlags : Operation → Bool
  | .alu _ _ | .aluLiteral _ | .shift _ _ | .rotateAccumulator _ | .hlFromStackPointer
  | .addStackPointer => true
  | _ => false

end Operation

namespace Registers

variable {r : Registers} {x : ByteRegister}

theorem byte_setWord {y : WordRegister} (h : x ∉ y.bytes) (w : UInt16) :
    (r.setWord y w).byte x = r.byte x := by
  cases y <;> cases x <;> first | rfl | simp [WordRegister.bytes] at h

theorem byte_setPair {y : StackPair} (h : x ∉ y.bytes) (w : UInt16) :
    (r.setPair y w).byte x = r.byte x := by
  cases y <;> cases x <;> first | rfl | simp [StackPair.bytes] at h

theorem byte_move {p : Pointer} (h : x ∉ p.bytes) : (p.move r).byte x = r.byte x := by
  cases p <;> cases x <;> first | rfl | simp [Pointer.bytes] at h

theorem byte_put {o : Operand} {v : UInt8} (h : x ∉ o.registers) :
    (o.put v r).registers.byte x = r.byte x := by
  cases o with
  | register y =>
    have hne : x ≠ y := by simpa [Operand.registers] using h
    exact (byte_setByte r y x v).trans (if_neg hne)
  | memory => rfl

theorem byte_withA (h : x ∉ [ByteRegister.a]) (a : UInt8) : { r with a }.byte x = r.byte x :=
  (byte_setByte r .a x a).trans (if_neg (by simpa using h))

theorem byte_congr (r : Registers) (flags : Flags) (sp pc : UInt16) (x : ByteRegister) :
    { r with flags, sp, pc }.byte x = r.byte x := by
  cases x <;> rfl

theorem byte_accumulate {op : AluOp} (h : x ∉ if op = .cp then [] else [ByteRegister.a])
    (v : UInt8) : (r.accumulate op v).byte x = r.byte x := by
  by_cases hcp : op = .cp
  · subst hcp
    exact byte_congr r _ r.sp r.pc x
  · rw [if_neg hcp] at h
    exact (byte_congr _ _ r.sp r.pc x).trans (byte_withA h _)

end Registers

theorem Operation.byte_effect {op : Operation} {x : ByteRegister} (h : x ∉ op.targets)
    (l : Literal) (read : UInt16 → UInt8) (r : Registers) :
    (op.effect l read r).registers.byte x = r.byte x := by
  cases op with
  | load target source | loadLiteral target | reset i target | set i target =>
    exact Registers.byte_put h
  | increment target | decrement target | shift op target =>
    refine (Registers.byte_congr _ _ _ _ x).trans (Registers.byte_put h)
  | loadWord target | incrementWord target | decrementWord target =>
    exact Registers.byte_setWord h _
  | storeThrough p => exact Registers.byte_move h
  | loadThrough p =>
    have ha : x ∉ [ByteRegister.a] := by simpa using List.ne_of_not_mem_cons h
    have hp : x ∉ p.bytes := List.not_mem_of_not_mem_cons h
    exact (Registers.byte_withA ha _).trans (Registers.byte_move hp)
  | pop p => exact (Registers.byte_setPair h _).trans (Registers.byte_congr r _ _ _ x)
  | alu op source | aluLiteral op => exact Registers.byte_accumulate h _
  | loadFrom | loadLastPage | loadLastPageC => exact Registers.byte_withA h _
  | rotateAccumulator op | decimalAdjust | complement =>
    exact (Registers.byte_congr _ _ r.sp r.pc x).trans (Registers.byte_withA h _)
  | addHL source | hlFromStackPointer =>
    exact (Registers.byte_setWord (y := .hl) h _).trans (Registers.byte_congr r _ _ _ x)
  | jump c | jumpRelative c | call c | ret c =>
    refine Effect.when_cases (P := fun e => e.registers.byte x = r.byte x) rfl ?_
    exact Registers.byte_congr r _ _ _ x
  | _ => exact Registers.byte_congr r _ _ _ x

theorem Operation.sp_effect {op : Operation} (h : op.movesStack = false) (l : Literal)
    (read : UInt16 → UInt8) (r : Registers) : (op.effect l read r).registers.sp = r.sp := by
  cases op with
  | load target source | loadLiteral target | reset i target | set i target =>
    exact Operand.sp_put _ _ r
  | increment target | decrement target | shift op target => exact Operand.sp_put _ _ r
  | loadWord target | incrementWord target | decrementWord target =>
    cases target with
    | sp => cases h
    | _ => rfl
  | storeThrough p | loadThrough p => exact Pointer.sp_move p r
  | jump c | jumpRelative c =>
    exact Effect.when_cases (P := fun e => e.registers.sp = r.sp) rfl rfl
  | stackPointerFromHL | addStackPointer | push | pop | call | ret | retEnable | restart => cases h
  | _ => rfl

-- ---------------------------------------------------------------------------
-- Flags
-- ---------------------------------------------------------------------------

theorem Alu.subtract_decimalAdjust (a : UInt8) (f : Flags) :
    (decimalAdjust a f).2.subtract = f.subtract := by
  unfold decimalAdjust
  split <;> rfl

theorem Operation.flag_effect {op : Operation} {f : Flag} (h : f ∈ op.kept) (l : Literal)
    (read : UInt16 → UInt8) (r : Registers) :
    (op.effect l read r).registers.flags.get f = r.flags.get f := by
  cases op with
  | load target source | loadLiteral target | reset i target | set i target =>
    rw [effect, Operand.flags_put]
  | increment target | decrement target | bit i source =>
    obtain rfl : f = .carry := by simpa [kept] using h
    rfl
  | loadWord target | incrementWord target | decrementWord target =>
    rw [effect, Registers.flags_setWord]
  | storeThrough p =>
    rw [effect, Pointer.flags_move]
  | loadThrough p =>
    show (p.move r).flags.get f = _
    rw [Pointer.flags_move]
  | pop p =>
    cases p with
    | af => simp [kept] at h
    | _ => rfl
  | addHL source | setCarry | complementCarry =>
    obtain rfl : f = .zero := by simpa [kept] using h
    rfl
  | complement =>
    rcases (by simpa [kept] using h : f = .zero ∨ f = .carry) with rfl | rfl <;> rfl
  | decimalAdjust =>
    obtain rfl : f = .subtract := by simpa [kept] using h
    exact Alu.subtract_decimalAdjust r.a r.flags
  | jump c | jumpRelative c | call c | ret c =>
    exact Effect.when_cases (P := fun e => e.registers.flags.get f = r.flags.get f) rfl rfl
  | alu | aluLiteral | shift | rotateAccumulator | hlFromStackPointer | addStackPointer =>
    simp [kept] at h
  | _ => rfl

theorem Operand.value_withFlags (o : Operand) (read : UInt16 → UInt8) (r : Registers)
    (flags : Flags) : o.value read { r with flags } = o.value read r := by
  cases o with
  | register x => exact Registers.byte_congr r flags r.sp r.pc x
  | memory => rfl

/-- What an operation replaces all flags by depends on the carry alone of the old ones. -/
theorem Operation.flags_effect {op : Operation} (h : op.renewsFlags = true) (l : Literal)
    (read : UInt16 → UInt8) (r : Registers) {flags : Flags} (hc : flags.carry = r.flags.carry) :
    (op.effect l read { r with flags }).registers.flags = (op.effect l read r).registers.flags := by
  cases op with
  | alu op source =>
    show (Alu.compute op r.a (source.value read { r with flags }) flags.carry).2 =
      (Alu.compute op r.a (source.value read r) r.flags.carry).2
    rw [Operand.value_withFlags, hc]
  | aluLiteral op =>
    show (Alu.compute op r.a l.toByte flags.carry).2 = (Alu.compute op r.a l.toByte r.flags.carry).2
    rw [hc]
  | shift op target =>
    show (Processor.shifted op (target.value read { r with flags }) flags).2 =
      (Processor.shifted op (target.value read r) r.flags).2
    rw [Operand.value_withFlags, Processor.shifted, Processor.shifted, hc]
  | rotateAccumulator op =>
    show ({ carry := (Alu.shift op r.a flags.carry).2 } : Flags) =
      { carry := (Alu.shift op r.a r.flags.carry).2 }
    rw [hc]
  | hlFromStackPointer | addStackPointer => rfl
  | _ => cases h

-- ---------------------------------------------------------------------------
-- Memory
-- ---------------------------------------------------------------------------

def Operand.cells (r : Registers) : Operand → List UInt16
  | .register _ => []
  | .memory => [r.hl]

def Operation.cells (l : Literal) (r : Registers) : Operation → List UInt16
  | .load target _ | .loadLiteral target | .increment target | .decrement target
  | .shift _ target | .reset _ target | .set _ target => target.cells r
  | .storeThrough p => [p.address r]
  | .storeAt => [l.toWord]
  | .storeLastPage => [Word.lastPage l.toByte]
  | .storeLastPageC => [Word.lastPage r.c]
  | .storeStackPointer => [l.toWord, l.toWord + 1]
  | .push _ | .restart _ => [r.sp - 1, r.sp - 2]
  | .call c => if Condition.met r.flags c then [r.sp - 1, r.sp - 2] else []
  | _ => []

theorem Operand.stores_put (o : Operand) (v : UInt8) (r : Registers) :
    (o.put v r).stores.map Prod.fst = o.cells r := by
  cases o <;> rfl

theorem Operation.stores_effect (op : Operation) (l : Literal) (read : UInt16 → UInt8)
    (r : Registers) : (op.effect l read r).stores.map Prod.fst = op.cells l r := by
  cases op with
  | load target source | loadLiteral target | reset i target | set i target =>
    exact Operand.stores_put _ _ r
  | increment target | decrement target | shift op target => exact Operand.stores_put _ _ r
  | call c =>
    rw [effect, cells, Effect.when]
    split <;> rfl
  | jump c | jumpRelative c | ret c =>
    exact Effect.when_cases (P := fun e => e.stores.map Prod.fst = []) rfl rfl
  | _ => rfl

theorem Operation.cells_pc (op : Operation) (l : Literal) (r : Registers) (pc : UInt16) :
    op.cells l { r with pc } = op.cells l r := by
  cases op <;> rfl

namespace FlatMemory

theorem peek_storeAll {ws : List (UInt16 × UInt8)} {a : UInt16} (m : FlatMemory)
    (h : a ∉ ws.map Prod.fst) : (Bus.storeAll m ws).peek a = m.peek a := by
  induction ws generalizing m with
  | nil => rfl
  | cons w ws ih =>
    rw [List.map_cons] at h
    have hne : w.1 ≠ a := fun heq => List.ne_of_not_mem_cons h heq.symm
    calc (Bus.storeAll m (w :: ws)).peek a
      _ = (m.poke w.1 w.2).peek a := ih (m.poke w.1 w.2) (List.not_mem_of_not_mem_cons h)
      _ = m.peek a := by rw [peek_poke, if_neg hne]

end FlatMemory

-- ---------------------------------------------------------------------------
-- Steps
-- ---------------------------------------------------------------------------

namespace Processor

/-- On flat memory no flag decides whether a step succeeds. -/
theorem result_withFlags {p : Processor FlatMemory} (h : (step.run p).result = .ok ())
    (flags : Flags) :
    (step.run { p with registers := { p.registers with flags } }).result = .ok () := by
  rw [result_ok_iff Bus.HolesAt.flatMemory] at h ⊢
  exact ⟨fun _ _ => id, h.2⟩

/-- An instruction changes nothing outside its footprint. -/
theorem step_footprint (p : Processor FlatMemory) (h : (step.run p).result = .ok ()) :
    let d := Bus.instructionAt p.bus p.registers.pc
    let r := p.registers
    let q := (step.run p).state
    (∀ x, x ∉ d.operation.targets → q.registers.byte x = r.byte x) ∧
      (d.operation.movesStack = false → q.registers.sp = r.sp) ∧
      (∀ f ∈ d.operation.kept, q.registers.flags.get f = r.flags.get f) ∧
      (d.operation.renewsFlags = true → ∀ flags : Flags, flags.carry = r.flags.carry →
        (step.run { p with registers := { r with flags } }).state.registers.flags =
          q.registers.flags) ∧
      ∀ a, a ∉ d.operation.cells d.literal r → q.bus.peek a = p.bus.peek a := by
  intro d r q
  obtain ⟨hq, hbus⟩ : Reached p q (d.effect p.bus r) := .of_step rfl h
  rw [hq, hbus]
  refine ⟨fun x hx => ?_, fun hs => ?_, fun f hf => ?_, fun hrenews flags hc => ?_, fun a ha => ?_⟩
  · exact (Operation.byte_effect hx _ _ _).trans (Registers.byte_congr r _ _ _ x)
  · exact Operation.sp_effect hs _ _ _
  · exact Operation.flag_effect hf _ _ _
  · rw [(Reached.of_step rfl (result_withFlags h flags)).1]
    exact Operation.flags_effect hrenews _ _ { r with pc := r.pc + UInt16.ofNat d.size } hc
  · refine FlatMemory.peek_storeAll p.bus ?_
    rwa [Decoded.effect, Operation.stores_effect, Operation.cells_pc]

def atStore : Processor FlatMemory where
  bus := FlatMemory.zeros.poke 0 0x22
  registers := { a := 0x11, h := 0xC0, sp := 0xC002, flags := { zero := true, halfCarry := true } }

theorem step_footprint_atStore :
    (step.run atStore).result = .ok () ∧
      (step.run atStore).state.registers.a = 0x11 ∧
      (step.run atStore).state.registers.sp = 0xC002 ∧
      (step.run atStore).state.registers.flags.get .halfCarry = true ∧
      (step.run atStore).state.bus.peek 0xC001 = 0 := by
  have hpeek : Bus.peek atStore.bus 0 = 0x22 :=
    (FlatMemory.peek_poke _ 0 0 0x22).trans (if_pos rfl)
  have hd : Bus.instructionAt atStore.bus 0 =
      ⟨0, false, 0x22, .storeThrough .hlIncrement, .none⟩ := by
    rw [Bus.instructionAt_of_ne (by rw [hpeek]; decide), hpeek]
    rfl
  have h : (step.run atStore).result = .ok () := by
    rw [result_ok_iff Bus.HolesAt.flatMemory]
    refine ⟨fun _ _ => id, fun opcode hopcode hread => ?_⟩
    rw [← Bus.peek_of_read? hread, show atStore.registers.pc = 0 from rfl, hpeek] at hopcode
    revert hopcode
    decide
  obtain ⟨hbytes, hsp, hflags, -, hcells⟩ := step_footprint atStore h
  rw [show atStore.registers.pc = 0 from rfl, hd] at hbytes hsp hflags hcells
  refine ⟨h, hbytes .a (by decide), hsp rfl, hflags .halfCarry (by decide), ?_⟩
  rw [hcells 0xC001 (by decide), show atStore.bus = FlatMemory.zeros.poke 0 0x22 from rfl,
    FlatMemory.peek_poke, if_neg (by decide)]
  exact Ram.get_zeros _

end Processor

end Handheld
