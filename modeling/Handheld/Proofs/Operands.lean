import Handheld.Proofs.Cells
import Handheld.Proofs.Decoding
import Handheld.Proofs.Footprint
import Handheld.Proofs.Success

/-!
# Operations on bytes, wherever they are

Each operation on a byte has a form for every register and one for the cell that HL points
at. The forms go through different parts of the processor, and yet what they make of the
operand, the accumulator and the flags is one function of these three.
-/

namespace Handheld

inductive ByteOperation where
  | alu (op : AluOp)
  | increment
  | decrement
  | shift (op : ShiftOp)
  | bit (index : Fin 8)
  | reset (index : Fin 8)
  | set (index : Fin 8)
  deriving DecidableEq, Repr

namespace ByteOperation

structure Values where
  operand : UInt8
  accumulator : UInt8
  flags : Flags

def on (o : Operand) : ByteOperation → Operation
  | alu op => .alu op o
  | increment => .increment o
  | decrement => .decrement o
  | shift op => .shift op o
  | bit i => .bit i o
  | reset i => .reset i o
  | set i => .set i o

def replaces : ByteOperation → Bool
  | alu _ | bit _ => false
  | increment | decrement | shift _ | reset _ | set _ => true

def revised (f : UInt8 → Flags → UInt8 × Flags) (s : Values) : Values :=
  { s with operand := (f s.operand s.flags).1, flags := (f s.operand s.flags).2 }

def apply (s : Values) : ByteOperation → Values
  | alu op =>
    let (result, flags) := Alu.compute op s.accumulator s.operand s.flags.carry
    { s with accumulator := if op = .cp then s.accumulator else result, flags }
  | increment => revised Alu.increment s
  | decrement => revised Alu.decrement s
  | shift op => revised (Processor.shifted op) s
  | bit i => { s with flags := Alu.testBit s.operand i s.flags }
  | reset i => { s with operand := s.operand &&& ~~~Byte.mask i }
  | set i => { s with operand := s.operand ||| Byte.mask i }

def size : ByteOperation → Nat
  | alu _ | increment | decrement => 1
  | shift _ | bit _ | reset _ | set _ => 2

variable (f : ByteOperation) (s : Values)

theorem operand_apply (h : f.replaces = false) : (f.apply s).operand = s.operand := by
  cases f <;> first | rfl | cases h

theorem apply_withAccumulator (h : f.replaces = true) (a : UInt8) :
    f.apply { s with accumulator := a } = { f.apply s with accumulator := a } := by
  cases f <;> first | rfl | cases h

theorem effect_on {o : Operand} (h : o ≠ .register .a) (l : Literal) (read : UInt16 → UInt8)
    (r : Registers) :
    let t := f.apply ⟨o.value read r, r.a, r.flags⟩
    let e := if f.replaces then o.put t.operand r else { registers := r }
    (f.on o).effect l read r =
      { e with registers := { e.registers with a := t.accumulator, flags := t.flags } } := by
  cases o with
  | memory => cases f <;> rfl
  | register x => cases x <;> cases f <;> first | rfl | exact absurd rfl h

theorem effect_on_accumulator (l : Literal) (read : UInt16 → UInt8) (r : Registers) :
    let t := f.apply ⟨r.a, r.a, r.flags⟩
    (f.on (.register .a)).effect l read r =
      { registers :=
          { r with a := if f.replaces then t.operand else t.accumulator, flags := t.flags } } := by
  cases f <;> rfl

theorem beats_on (o : Operand) (l : Literal) (r : Registers) :
    (f.on o).beats l r =
      o.beats .read r ++ if f.replaces then o.beats .write r else [] := by
  cases f with
  | alu _ | bit _ => exact (List.append_nil _).symm
  | _ => rfl

def accesses (hl : UInt16) : Operand → List (Direction × UInt16)
  | .register _ => []
  | .memory => if f.replaces then [(.read, hl), (.write, hl)] else [(.read, hl)]

theorem forall_accesses {P : UInt16 → Prop} {hl : UInt16} (h : P hl) :
    ∀ a ∈ f.accesses hl .memory, P a.2 := by
  cases hf : f.replaces <;> simp [accesses, hf, h]

theorem access_beats_on (o : Operand) (l : Literal) (r : Registers) :
    ((f.on o).beats l r).filterMap Beat.access? = f.accesses r.hl o := by
  rw [beats_on]
  cases o with
  | register x => cases f <;> rfl
  | memory => cases f <;> rfl

theorem length_beats_on (o : Operand) (l : Literal) (r : Registers) :
    ((f.on o).beats l r).length = (f.accesses r.hl o).length := by
  rw [beats_on]
  cases o with
  | register x => cases f <;> rfl
  | memory => cases f <;> rfl

end ByteOperation

-- ---------------------------------------------------------------------------
-- The processor
-- ---------------------------------------------------------------------------

def Operand.value? {β : Type} [Bus β] (b : β) (r : Registers) : Operand → Option UInt8
  | .register x => some (r.byte x)
  | .memory => Bus.read? b r.hl

theorem Bus.Cells.flatMemory : Bus.Cells FlatMemory (fun _ => True) Eq :=
  (Bus.Room.flatMemory (s := 0) (Nat.le_refl _)).toCells.mono fun a _ =>
    Word.below_all (Nat.le_refl _) 0 a

namespace Processor

variable {β : Type} [Bus β] {hole : UInt16 → Prop} {f : ByteOperation} {o : Operand}
  {s : ByteOperation.Values} {p : Processor β}

/-- The values that an operation on the operand would work with. -/
structure Holds (o : Operand) (s : ByteOperation.Values) (p : Processor β) : Prop where
  operand : o.value? p.bus p.registers = some s.operand
  accumulator : p.registers.a = s.accumulator
  flags : p.registers.flags = s.flags

/-- The next instruction is the form of the operation for the operand. -/
structure Performs (f : ByteOperation) (o : Operand) (s : ByteOperation.Values)
    (p : Processor β) : Prop extends Holds o s p where
  decodes : ∃ d, p.decoded? = some d ∧ d.operation = f.on o

namespace Performs

theorem ok (hb : Bus.HolesAt β hole) (h : Performs f o s p) : (step.run p).result = .ok () := by
  obtain ⟨d, hd, hop⟩ := h.decodes
  refine ok_of_decoded hb hd ?_
  rw [hop, ByteOperation.access_beats_on]
  have hvalue := h.operand
  cases o with
  | register x => exact List.forall_mem_nil _
  | memory =>
    exact f.forall_accesses (P := fun a => (Bus.read? p.bus a).isSome = true)
      (Option.isSome_of_mem hvalue)

theorem size_eq {d : Decoded} (hd : p.decoded? = some d) (hop : d.operation = f.on o) :
    d.size = f.size := by
  obtain ⟨rfl, -, -⟩ := decoded?_eq_some_iff.mp hd
  have htable := Bus.instructionAt_ofSecondTable p.bus p.registers.pc
  rw [hop] at htable
  rw [Decoded.size, Decoded.opcodeSize, hop, ← htable]
  cases f <;> rfl

theorem spent (hb : Bus.HolesAt β hole) (h : Performs f o s p) :
    (step.run p).accesses.map Access.place =
        (Beat.fetches p.registers.pc f.size).filterMap Beat.access? ++
          f.accesses p.registers.hl o ∧
      (step.run p).state.cycles =
        p.cycles.add (f.size + (f.accesses p.registers.hl o).length) := by
  obtain ⟨d, hd, hop⟩ := h.decodes
  have hsize := size_eq hd hop
  obtain ⟨rfl, -, -⟩ := decoded?_eq_some_iff.mp hd
  obtain ⟨-, -, hspent⟩ := step_spent rfl (h.ok hb)
  have hdelay : (f.on o).delay = 0 := by cases f <;> rfl
  have hbeats : (Bus.instructionAt p.bus p.registers.pc).beats p.registers =
      Beat.fetches p.registers.pc f.size ++
        (f.on o).beats (Bus.instructionAt p.bus p.registers.pc).literal p.registers := by
    rw [Decoded.beats, hsize, hop, hdelay, Bus.instructionAt_address]
    exact congrArg (· ++ _) (List.append_nil _)
  rw [hbeats] at hspent
  constructor
  · rw [← f.access_beats_on o _ p.registers, ← List.filterMap_append]
    exact hspent.accesses
  · rw [hspent.cycles, List.length_append, Beat.length_fetches, f.length_beats_on]

theorem costless (hb : Bus.HolesAt β hole) {x : ByteRegister}
    (h : Performs f (.register x) s p) :
    (step.run p).accesses.map Access.place =
        (Beat.fetches p.registers.pc f.size).filterMap Beat.access? ∧
      (step.run p).state.cycles = p.cycles.add f.size := by
  obtain ⟨haccesses, hcycles⟩ := h.spent hb
  exact ⟨haccesses.trans (List.append_nil _), hcycles⟩

theorem reached (hb : Bus.HolesAt β hole) (h : Performs f o s p) (hne : o ≠ .register .a) :
    let t := f.apply s
    let r := { p.registers with pc := p.registers.pc + UInt16.ofNat f.size }
    let e := if f.replaces then o.put t.operand r else { registers := r }
    Reached p (step.run p).state
      { e with registers := { e.registers with a := t.accumulator, flags := t.flags } } := by
  intro t r e
  obtain ⟨d, hd, hop⟩ := h.decodes
  have hsize := size_eq hd hop
  obtain ⟨rfl, -, -⟩ := decoded?_eq_some_iff.mp hd
  have hreached := Reached.of_step rfl (h.ok hb)
  have hvalue : o.value (Bus.peek p.bus) r = s.operand := by
    have hoperand := h.operand
    cases o with
    | register x => exact (Registers.byte_congr _ _ _ _ x).trans (Option.some.inj hoperand)
    | memory => exact Bus.peek_of_read? hoperand
  rw [Decoded.effect, hop, hsize, f.effect_on hne, hvalue] at hreached
  have hs : (⟨s.operand, r.a, r.flags⟩ : ByteOperation.Values) = s := by
    rw [show r.a = s.accumulator from h.accumulator, show r.flags = s.flags from h.flags]
  rwa [hs] at hreached

theorem registers (hb : Bus.HolesAt β hole) (h : Performs f .memory s p) :
    (step.run p).state.registers = { p.registers with
      pc := p.registers.pc + UInt16.ofNat f.size, a := (f.apply s).accumulator
      flags := (f.apply s).flags } := by
  rw [(h.reached hb nofun).1]
  cases f.replaces <;> rfl

theorem bus (hb : Bus.HolesAt β hole) (h : Performs f .memory s p) :
    (step.run p).state.bus =
      if f.replaces then Bus.store p.bus p.registers.hl (f.apply s).operand else p.bus := by
  rw [(h.reached hb nofun).2]
  cases f.replaces <;> rfl

/-- The form for the cell at HL does to it what the operation says, if the cell keeps the
byte that is written there. -/
theorem holds_memory (hb : Bus.HolesAt β hole) (h : Performs f .memory s p)
    (hkept : let v := (f.apply s).operand
      Bus.read? (Bus.store p.bus p.registers.hl v) p.registers.hl = some v) :
    Holds .memory (f.apply s) (step.run p).state := by
  have hregisters := h.registers hb
  refine ⟨?_, by rw [hregisters], by rw [hregisters]⟩
  have hhl : (step.run p).state.registers.hl = p.registers.hl := by
    rw [hregisters]
    rfl
  rw [Operand.value?, hhl, h.bus hb]
  cases hf : f.replaces with
  | true => exact hkept
  | false =>
    rw [f.operand_apply s hf]
    exact h.operand

theorem holds_register (hb : Bus.HolesAt β hole) {x : ByteRegister} (hx : x ≠ .a)
    (h : Performs f (.register x) s p) :
    Holds (.register x) (f.apply s) (step.run p).state := by
  have hregisters := (h.reached hb (by simpa using hx)).1
  cases hf : f.replaces with
  | true =>
    simp only [hf, ↓reduceIte, Operand.put] at hregisters
    refine ⟨?_, by rw [hregisters], by rw [hregisters]⟩
    rw [hregisters, Operand.value?]
    cases x <;> first | rfl | exact absurd rfl hx
  | false =>
    simp only [hf, Bool.false_eq_true, ↓reduceIte] at hregisters
    refine ⟨?_, by rw [hregisters], by rw [hregisters]⟩
    rw [hregisters, f.operand_apply s hf, ← h.operand, Operand.value?]
    cases x <;> first | rfl | exact absurd rfl hx

/-- The form for the accumulator leaves there what the operation makes of its operand, if it
replaces that, and else what it makes of the accumulator. -/
theorem accumulator_flags (hb : Bus.HolesAt β hole)
    (h : Performs f (.register .a) { s with accumulator := s.operand } p)
    (hs : f.replaces = true ∨ s.operand = s.accumulator) :
    (step.run p).state.registers.a =
        (if f.replaces then (f.apply s).operand else (f.apply s).accumulator) ∧
      (step.run p).state.registers.flags = (f.apply s).flags := by
  obtain ⟨d, hd, hop⟩ := h.decodes
  obtain ⟨rfl, -, -⟩ := decoded?_eq_some_iff.mp hd
  rw [(Reached.of_step rfl (h.ok hb)).1, Decoded.effect, hop, f.effect_on_accumulator]
  dsimp only
  rw [h.accumulator, h.flags]
  obtain ⟨operand, accumulator, flags⟩ := s
  rcases hs with hf | heq
  · have happly := f.apply_withAccumulator ⟨operand, accumulator, flags⟩ hf operand
    simp only [hf, ↓reduceIte]
    exact ⟨congrArg (·.operand) happly, congrArg (·.flags) happly⟩
  · obtain rfl : operand = accumulator := heq
    exact ⟨rfl, rfl⟩

/-- Wherever the operand is, it is replaced by what the operation makes of it, a cell only if
it keeps the byte that is written there. -/
theorem replaced (hb : Bus.HolesAt β hole) (h : Performs f o s p) (hf : f.replaces = true) :
    let v := (f.apply s).operand
    let q := (step.run p).state
    q.registers.flags = (f.apply s).flags ∧
      ((o = .memory →
          Bus.read? (Bus.store p.bus p.registers.hl v) p.registers.hl = some v) →
        o.value? q.bus q.registers = some v) := by
  intro v q
  cases o with
  | memory =>
    refine ⟨?_, fun hkept => (h.holds_memory hb (hkept rfl)).operand⟩
    show (step.run p).state.registers.flags = _
    rw [h.registers hb]
  | register x =>
    by_cases hx : x = .a
    · subst hx
      obtain ⟨operand, accumulator, flags⟩ := s
      obtain rfl : operand = accumulator :=
        (Option.some.inj h.operand).symm.trans h.accumulator
      obtain ⟨ha, hflags⟩ := accumulator_flags (s := ⟨operand, operand, flags⟩) hb h (.inl hf)
      rw [if_pos hf] at ha
      exact ⟨hflags, fun _ => congrArg some ha⟩
    · have hholds := h.holds_register hb hx
      exact ⟨hholds.flags, fun _ => hholds.operand⟩

end Performs

/-- Whatever the operation, its form for the cell that HL points at makes of the cell, the
accumulator and the flags what the form for a register makes of the register, the
accumulator and the flags, and changes nothing else. It takes one more cycle for each of
its accesses to the cell. -/
def SameAnywhere (same : UInt16 → UInt16 → Prop) (p : Processor β) : Prop :=
  ∀ f s, Performs f .memory s p →
    let t := f.apply s
    let hl := p.registers.hl
    let q := (step.run p).state
    (step.run p).result = .ok () ∧ Holds .memory t q ∧
      q.registers = { p.registers with
        pc := p.registers.pc + UInt16.ofNat f.size, a := t.accumulator, flags := t.flags } ∧
      (∀ c, ¬same hl c → Bus.read? q.bus c = Bus.read? p.bus c) ∧
      (step.run p).accesses.map Access.place =
        (Beat.fetches p.registers.pc f.size).filterMap Beat.access? ++
          f.accesses hl .memory ∧
      q.cycles = p.cycles.add (f.size + (f.accesses hl .memory).length) ∧
      ∀ p' : Processor β,
        let q' := (step.run p').state
        let costless := (step.run p').accesses.map Access.place =
          (Beat.fetches p'.registers.pc f.size).filterMap Beat.access? ∧
            q'.cycles = p'.cycles.add f.size
        (∀ x ≠ .a, Performs f (.register x) s p' →
          (step.run p').result = .ok () ∧ Holds (.register x) t q' ∧ costless) ∧
        (Performs f (.register .a) { s with accumulator := s.operand } p' →
          f.replaces = true ∨ s.operand = s.accumulator →
          (step.run p').result = .ok () ∧
            q'.registers.a = (if f.replaces then t.operand else t.accumulator) ∧
            q'.registers.flags = t.flags ∧ costless)

theorem sameAnywhere {memory : UInt16 → Prop} {same : UInt16 → UInt16 → Prop}
    (hb : Bus.HolesAt β hole) (hcells : Bus.Cells β memory same)
    (hcell : memory p.registers.hl) : p.SameAnywhere same := by
  intro f s h t hl q
  obtain ⟨haccesses, hcycles⟩ := h.spent hb
  have hbus : q.bus = if f.replaces then Bus.store p.bus hl t.operand else p.bus := h.bus hb
  refine ⟨h.ok hb, h.holds_memory hb (hcells.written _ _ hcell (hcells.refl _)), h.registers hb,
    fun c hc => ?_, haccesses, hcycles, fun p' => ⟨fun x hx h' => ?_, fun h' hs => ?_⟩⟩
  · rw [hbus]
    split
    · exact hcells.others _ _ hcell hc
    · rfl
  · exact ⟨h'.ok hb, h'.holds_register hb hx, h'.costless hb⟩
  · obtain ⟨ha, hflags⟩ := h'.accumulator_flags hb hs
    exact ⟨h'.ok hb, ha, hflags, h'.costless hb⟩

/-- On flat memory HL may point anywhere, on the memory map of the console at any address
that names a cell. -/
theorem operands_anywhere :
    (∀ p : Processor FlatMemory, p.SameAnywhere Eq) ∧
      ∀ (p : Processor MemoryMap) (area : MemoryMap.Area), area.Contains p.registers.hl →
        p.SameAnywhere MemoryMap.SamePlace :=
  ⟨fun _ => sameAnywhere .flatMemory .flatMemory trivial,
    fun _ area h => sameAnywhere .memoryMap MemoryMap.cells ⟨area, h⟩⟩

def incrementingItself : Processor MemoryMap where
  bus := { MemoryMap.new .empty none with work := (Ram.zeros 0x2000).set 0 0x34 }
  registers := { h := 0xE0, pc := 0xC000, flags := { carry := true } }

def incrementingB : Processor MemoryMap where
  bus := .new ⟨#[0x04]⟩ none
  registers := { b := 0x34, flags := { carry := true } }

theorem operands_anywhere_inEcho :
    let s : ByteOperation.Values := ⟨0x34, 0, { carry := true }⟩
    let q := (step.run incrementingItself).state
    let q' := (step.run incrementingB).state
    MemoryMap.Area.echo.Contains incrementingItself.registers.hl ∧
      Performs .increment .memory s incrementingItself ∧
      Performs .increment (.register .b) s incrementingB ∧
      Bus.read? q.bus 0xE000 = some 0x35 ∧ q'.registers.b = 0x35 ∧
      q.registers.flags = q'.registers.flags ∧ q.cycles.m = 3 ∧ q'.cycles.m = 1 := by
  intro s q q'
  have harea : MemoryMap.Area.echo.Contains incrementingItself.registers.hl := by decide
  have h : Performs .increment .memory s incrementingItself :=
    ⟨⟨by decide +kernel, rfl, rfl⟩, ⟨0xC000, false, 0x34, .increment .memory, .none⟩,
      by decide +kernel, rfl⟩
  have h' : Performs .increment (.register .b) s incrementingB :=
    ⟨⟨rfl, rfl, rfl⟩, ⟨0, false, 0x04, .increment (.register .b), .none⟩, by decide +kernel, rfl⟩
  obtain ⟨-, hq, hregisters, -, -, hcycles, hothers⟩ :=
    operands_anywhere.2 incrementingItself .echo harea .increment s h
  obtain ⟨-, hq', -, hcycles'⟩ := (hothers incrementingB).1 .b (by decide) h'
  have hhl : q.registers.hl = 0xE000 :=
    (congrArg Registers.hl hregisters).trans (by decide +kernel)
  refine ⟨harea, h, h', ?_, Option.some.inj hq'.operand, hq.flags.trans hq'.flags.symm,
    (congrArg Cycles.m hcycles).trans (by decide +kernel),
    (congrArg Cycles.m hcycles').trans (by decide +kernel)⟩
  rw [← hhl]
  exact hq.operand

end Processor

end Handheld
