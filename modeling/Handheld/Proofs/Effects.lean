import Handheld.Proofs.Duration

/-!
# What an instruction comes to

The effect of an operation is the registers it leaves and the bytes it stores, as
a function of the registers and of what the bus answers before. A step that
succeeds does exactly this, apart from its bookkeeping, so what is to be known of
an instruction is read off its effect.
-/

namespace Handheld

structure Effect where
  registers : Registers
  /-- Addresses and bytes, in the order of the writes. -/
  stores : List (UInt16 × UInt8) := []

def Effect.when (met : Bool) (r : Registers) (e : Effect) : Effect :=
  if met then e else { registers := r }

theorem Effect.when_cases {P : Effect → Prop} {met : Bool} {r : Registers} {e : Effect}
    (hr : P { registers := r }) (he : P e) : P (.when met r e) := by
  unfold Effect.when
  split
  · exact he
  · exact hr

namespace Registers

def below (r : Registers) (w : UInt16) : List (UInt16 × UInt8) :=
  [(r.sp - 1, Word.high w), (r.sp - 2, Word.low w)]

def top (read : UInt16 → UInt8) (r : Registers) : UInt16 :=
  Word.ofBytes (read (r.sp + 1)) (read r.sp)

def called (r : Registers) (target : UInt16) : Effect where
  registers := { r with sp := r.sp - 2, pc := target }
  stores := r.below r.pc

def returned (read : UInt16 → UInt8) (r : Registers) : Registers :=
  { r with sp := r.sp + 2, pc := r.top read }

end Registers

namespace Pointer

@[simp] theorem pc_move (p : Pointer) (r : Registers) : (p.move r).pc = r.pc := by
  cases p <;> rfl

@[simp] theorem sp_move (p : Pointer) (r : Registers) : (p.move r).sp = r.sp := by
  cases p <;> rfl

@[simp] theorem flags_move (p : Pointer) (r : Registers) : (p.move r).flags = r.flags := by
  cases p <;> rfl

end Pointer

namespace Operand

def value (read : UInt16 → UInt8) (r : Registers) : Operand → UInt8
  | .register x => r.byte x
  | .memory => read r.hl

def put (v : UInt8) (r : Registers) : Operand → Effect
  | .register x => { registers := r.setByte x v }
  | .memory => { registers := r, stores := [(r.hl, v)] }

/-- The operand is replaced first, the flags last. -/
def revised (f : UInt8 → Flags → UInt8 × Flags) (read : UInt16 → UInt8) (r : Registers)
    (o : Operand) : Effect :=
  let (v, flags) := f (o.value read r) r.flags
  let e := o.put v r
  { e with registers := { e.registers with flags } }

@[simp] theorem pc_put (o : Operand) (v : UInt8) (r : Registers) :
    (o.put v r).registers.pc = r.pc := by
  cases o <;> simp [put]

@[simp] theorem sp_put (o : Operand) (v : UInt8) (r : Registers) :
    (o.put v r).registers.sp = r.sp := by
  cases o <;> simp [put]

@[simp] theorem flags_put (o : Operand) (v : UInt8) (r : Registers) :
    (o.put v r).registers.flags = r.flags := by
  cases o <;> simp [put]

end Operand

namespace Operation

/-- The effect of an operation with its literal, once the program counter is past
the instruction. No operation reads after it has stored, so the bus from before
answers all its reads. -/
def effect (l : Literal) (read : UInt16 → UInt8) (r : Registers) : Operation → Effect
  | .load target source => target.put (source.value read r) r
  | .loadLiteral target => target.put l.toByte r
  | .loadWord target => { registers := r.setWord target l.toWord }
  | .storeThrough p => { registers := p.move r, stores := [(p.address r, r.a)] }
  | .loadThrough p => { registers := { p.move r with a := read (p.address r) } }
  | .storeAt => { registers := r, stores := [(l.toWord, r.a)] }
  | .loadFrom => { registers := { r with a := read l.toWord } }
  | .storeLastPage => { registers := r, stores := [(Word.lastPage l.toByte, r.a)] }
  | .loadLastPage => { registers := { r with a := read (Word.lastPage l.toByte) } }
  | .storeLastPageC => { registers := r, stores := [(Word.lastPage r.c, r.a)] }
  | .loadLastPageC => { registers := { r with a := read (Word.lastPage r.c) } }
  | .storeStackPointer =>
    { registers := r
      stores := [(l.toWord, Word.low r.sp), (l.toWord + 1, Word.high r.sp)] }
  | .stackPointerFromHL => { registers := { r with sp := r.hl } }
  | .hlFromStackPointer => { registers := r.hlFromStackPointer l.toByte }
  | .push p => { registers := { r with sp := r.sp - 2 }, stores := r.below (r.pair p) }
  | .pop p => { registers := { r with sp := r.sp + 2 }.setPair p (r.top read) }
  | .alu op source => { registers := r.accumulate op (source.value read r) }
  | .aluLiteral op => { registers := r.accumulate op l.toByte }
  | .addHL source => { registers := r.addHL source }
  | .addStackPointer => { registers := r.addStackPointer l.toByte }
  | .increment target => target.revised Alu.increment read r
  | .decrement target => target.revised Alu.decrement read r
  | .incrementWord target => { registers := r.setWord target (r.word target + 1) }
  | .decrementWord target => { registers := r.setWord target (r.word target - 1) }
  | .rotateAccumulator op => { registers := r.rotateAccumulator op }
  | .decimalAdjust => { registers := r.decimalAdjust }
  | .complement => { registers := r.complement }
  | .setCarry => { registers := r.setCarry true }
  | .complementCarry => { registers := r.setCarry (!r.flags.carry) }
  | .jump c => Effect.when (Condition.met r.flags c) r { registers := { r with pc := l.toWord } }
  | .jumpHL => { registers := { r with pc := r.hl } }
  | .jumpRelative c =>
    Effect.when (Condition.met r.flags c) r
      { registers := { r with pc := r.pc + Byte.signExtend l.toByte } }
  | .call c => Effect.when (Condition.met r.flags c) r (r.called l.toWord)
  | .ret c => Effect.when (Condition.met r.flags c) r { registers := r.returned read }
  | .retEnable => { registers := r.returned read }
  | .restart vector => r.called vector.toUInt16
  | .shift op target => target.revised (Processor.shifted op) read r
  | .bit i source =>
    { registers := { r with flags := Alu.testBit (source.value read r) i r.flags } }
  | .reset i target => target.put (target.value read r &&& ~~~Byte.mask i) r
  | .set i target => target.put (target.value read r ||| Byte.mask i) r
  | .unimplemented | .extend | .nop | .disableInterrupts | .enableInterrupts => { registers := r }

def switchesOn : Operation → Bool
  | .retEnable => true
  | _ => false

def toggle? : Operation → Option Toggle
  | .disableInterrupts => some .disable
  | .enableInterrupts => some .enable
  | _ => none

end Operation

def Decoded.effect {β : Type} [Bus β] (d : Decoded) (b : β) (r : Registers) : Effect :=
  d.operation.effect d.literal (Bus.peek b) { r with pc := r.pc + UInt16.ofNat d.size }

namespace Bus

variable {β : Type} [Bus β]

def storeAll (b : β) (ws : List (UInt16 × UInt8)) : β :=
  ws.foldl (fun b w => store b w.1 w.2) b

end Bus

namespace Processor

variable {α β γ : Type}

theorem elapse_zero (p : Processor β) : p.elapse 0 = p := by
  rw [elapse, Cycles.add_zero]

variable [Bus β]

def apply (e : Effect) (p : Processor β) : Processor β :=
  { p with registers := e.registers, bus := Bus.storeAll p.bus e.stores }

def perform (op : Operation) (l : Literal) (p : Processor β) : Processor β :=
  { p.apply (op.effect l (Bus.peek p.bus) p.registers) with
    ime := op.switchesOn || p.ime
    pending := op.toggle?.or p.pending }

-- ---------------------------------------------------------------------------
-- Where an action leads
-- ---------------------------------------------------------------------------

/-- If the action succeeds on `p`, it gives `a` and leaves `q`. -/
def Yields (x : Action (Processor β) α) (p : Processor β) (a : α) (q : Processor β) : Prop :=
  x.Triple p (fun b r _ => b = a ∧ r = q) fun _ _ _ => True

namespace Yields

variable {x : Action (Processor β) α} {f : α → Action (Processor β) γ} {p q r : Processor β}
  {a : α} {b : γ}

omit [Bus β] in
theorem of_run {t : List Event} (h : x.run p = ⟨.ok a, q, t⟩) : Yields x p a q :=
  Action.Triple.of_run h ⟨rfl, rfl⟩

omit [Bus β] in
theorem bind (hx : Yields x p a q) (hf : Yields (f a) q b r) : Yields (x >>= f) p b r := by
  refine Action.Triple.bind hx ?_ fun _ _ _ h => h
  rintro _ _ t ⟨rfl, rfl⟩
  exact hf

omit [Bus β] in
theorem state {u : Unit} {x : Action (Processor β) Unit} (h : Yields x p u q)
    (hok : (x.run p).result = .ok ()) : (x.run p).state = q :=
  (Action.Triple.of_result h hok).2

theorem read (address : UInt16) (p : Processor β) :
    Yields (read address) p (Bus.peek p.bus address) (p.elapse 1) := by
  cases h : Bus.read? p.bus address with
  | none =>
    obtain ⟨t, hrun, -⟩ := read_run_none h
    exact Action.Triple.of_run_error hrun trivial
  | some v =>
    obtain ⟨t, hrun, -⟩ := read_run h
    rw [Bus.peek_of_read? h]
    exact of_run hrun

theorem write (address : UInt16) (v : UInt8) (p : Processor β) :
    Yields (write address v) p () { p.elapse 1 with bus := Bus.store p.bus address v } := by
  cases h : Bus.writable p.bus address v with
  | false =>
    obtain ⟨t, hrun, -⟩ := write_run_false h
    exact Action.Triple.of_run_error hrun trivial
  | true =>
    obtain ⟨t, hrun, -⟩ := write_run h
    exact of_run hrun

end Yields

/-- If the action succeeds on `p`, it has the effect, whatever time it takes. -/
def Does (x : Action (Processor β) Unit) (p : Processor β) (e : Effect) : Prop :=
  ∃ cycles, Yields x p () { p.apply e with cycles }

namespace Does

variable {x : Action (Processor β) α} {f : α → Action (Processor β) Unit} {p : Processor β}
  {a : α} {e : Effect}

theorem after {n : Nat} (hx : Yields x p a (p.elapse n)) (hf : Does (f a) (p.elapse n) e) :
    Does (x >>= f) p e := by
  obtain ⟨cycles, h⟩ := hf
  exact ⟨cycles, hx.bind h⟩

theorem reading {g : Registers → α} (hf : Does (f (g p.registers)) p e) :
    Does (Processor.reading g >>= f) p e := by
  obtain ⟨cycles, h⟩ := hf
  exact ⟨cycles, Yields.bind (.of_run rfl) h⟩

theorem updating (g : Registers → Registers) (p : Processor β) :
    Does (Processor.updating g) p { registers := g p.registers } :=
  ⟨p.cycles, .of_run rfl⟩

theorem nothing (p : Processor β) : Does (pure ()) p { registers := p.registers } :=
  ⟨p.cycles, .of_run rfl⟩

theorem write (address : UInt16) (v : UInt8) (p : Processor β) :
    Does (Processor.write address v) p { registers := p.registers, stores := [(address, v)] } :=
  ⟨_, .write address v p⟩

theorem bind_updating {x : Action (Processor β) Unit} (hx : Does x p e)
    (g : Registers → Registers) :
    Does (x >>= fun _ => Processor.updating g) p { e with registers := g e.registers } := by
  obtain ⟨cycles, h⟩ := hx
  exact ⟨cycles, h.bind (.of_run rfl)⟩

end Does

-- ---------------------------------------------------------------------------
-- Traffic
-- ---------------------------------------------------------------------------

theorem readOperand_yields (o : Operand) (p : Processor β) :
    ∃ n, Yields (readOperand o) p (o.value (Bus.peek p.bus) p.registers) (p.elapse n) := by
  cases o with
  | register x => exact ⟨0, .of_run (by rw [elapse_zero]; rfl)⟩
  | memory => exact ⟨1, Yields.bind (.of_run rfl) (.read _ p)⟩

theorem writeOperand_does (o : Operand) (v : UInt8) (p : Processor β) :
    Does (writeOperand o v) p (o.put v p.registers) := by
  cases o with
  | register x => exact .updating _ p
  | memory => exact .reading (.write _ v p)

theorem push_does (w : UInt16) (p : Processor β) :
    Does (push w) p
      { registers := { p.registers with sp := p.registers.sp - 2 }
        stores := p.registers.below w } :=
  .reading ⟨_, .bind (.write _ _ p) (.bind (.write _ _ _) (.of_run rfl))⟩

theorem pop_yields (p : Processor β) :
    ∃ cycles, Yields pop p (p.registers.top (Bus.peek p.bus))
      { p with registers := { p.registers with sp := p.registers.sp + 2 }, cycles } :=
  ⟨_, Yields.bind (.of_run rfl) <| .bind (.read _ p) <| .bind (.read _ _) <|
    .bind (.of_run rfl) (.of_run rfl)⟩

theorem storeAccumulator_does (address : UInt16) (p : Processor β) :
    Does (storeAccumulator address) p
      { registers := p.registers, stores := [(address, p.registers.a)] } :=
  .reading (.write address _ p)

theorem loadAccumulator_does (address : UInt16) (p : Processor β) :
    Does (loadAccumulator address) p
      { registers := { p.registers with a := Bus.peek p.bus address } } :=
  .after (.read address p) (.updating _ _)

-- ---------------------------------------------------------------------------
-- Operations
-- ---------------------------------------------------------------------------

theorem Does.bind_readOperand {f : UInt8 → Action (Processor β) Unit} {o : Operand}
    {p : Processor β} {e : Effect}
    (hf : ∀ n, Does (f (o.value (Bus.peek p.bus) p.registers)) (p.elapse n) e) :
    Does (readOperand o >>= f) p e := by
  obtain ⟨n, h⟩ := readOperand_yields o p
  exact .after h (hf n)

theorem Does.bind_pointerAddress {f : UInt16 → Action (Processor β) Unit} {a : Pointer}
    {p : Processor β} {e : Effect}
    (hf : Does (f (a.address p.registers)) (p.setRegisters a.move) e) :
    Does (pointerAddress a >>= f) p e := by
  obtain ⟨cycles, h⟩ := hf
  exact ⟨cycles, Yields.bind (.of_run (pointerAddress_run a p)) h⟩

theorem revise_does (o : Operand) (f : UInt8 → Flags → UInt8 × Flags) (p : Processor β) :
    Does (revise o f) p (o.revised f (Bus.peek p.bus) p.registers) :=
  .bind_readOperand fun n => .reading (.bind_updating (writeOperand_does o _ (p.elapse n)) _)

theorem whenMet_does {c : Option Condition} {x : Action (Processor β) Unit} {p : Processor β}
    {e : Effect} (hx : Does x p e) :
    Does (whenMet c x) p (.when (Condition.met p.registers.flags c) p.registers e) := by
  refine .reading ?_
  unfold Effect.when
  split
  · exact hx
  · exact .nothing p

theorem callTo_does (target : UInt16) (p : Processor β) :
    Does (callTo target) p (p.registers.called target) :=
  .reading (.bind_updating (push_does _ p) _)

theorem returnFromCall_does (p : Processor β) :
    Does returnFromCall p { registers := p.registers.returned (Bus.peek p.bus) } := by
  obtain ⟨cycles, h⟩ := pop_yields p
  exact ⟨_, h.bind (.bind (.of_run rfl) (.of_run rfl))⟩

theorem execute_yields (d : Decoded) (p : Processor β) :
    ∃ cycles, Yields (execute d) p () { p.perform d.operation d.literal with cycles } := by
  obtain ⟨address, prefixed, opcode, operation, literal⟩ := d
  cases operation with
  | unimplemented | extend => exact ⟨p.cycles, Action.Triple.of_run_error rfl trivial⟩
  | nop => exact Does.nothing p
  | load target source =>
    exact Does.bind_readOperand fun n => writeOperand_does target _ (p.elapse n)
  | loadLiteral target => exact writeOperand_does target _ p
  | storeThrough a =>
    -- the accumulator is looked at once the pointer has moved
    have ha : p.registers.a = (a.move p.registers).a := by cases a <;> rfl
    have h := storeAccumulator_does (a.address p.registers) (p.setRegisters a.move)
    simp only [perform, Operation.effect, ha]
    exact Does.bind_pointerAddress h
  | loadThrough a => exact Does.bind_pointerAddress (loadAccumulator_does _ _)
  | storeAt | storeLastPage => exact storeAccumulator_does _ p
  | loadFrom | loadLastPage => exact loadAccumulator_does _ p
  | storeLastPageC => exact Does.reading (storeAccumulator_does _ p)
  | loadLastPageC => exact Does.reading (loadAccumulator_does _ p)
  | storeStackPointer => exact Does.reading ⟨_, .bind (.write _ _ p) (.write _ _ _)⟩
  | push a => exact Does.reading (push_does _ p)
  | pop a =>
    obtain ⟨cycles, h⟩ := pop_yields p
    exact ⟨_, h.bind (.of_run rfl)⟩
  | alu op source | bit i source =>
    exact Does.bind_readOperand fun n => .updating _ (p.elapse n)
  | increment target | decrement target | shift op target => exact revise_does target _ p
  | jump c | jumpRelative c =>
    refine whenMet_does (p := p) ?_
    exact Does.after (n := 1) (.of_run rfl) (.updating _ _)
  | call c =>
    exact whenMet_does (Does.after (n := 1) (.of_run rfl) (callTo_does _ (p.elapse 1)))
  | ret c => exact whenMet_does (returnFromCall_does p)
  | retEnable =>
    obtain ⟨cycles, h⟩ := returnFromCall_does p
    exact ⟨_, h.bind (.of_run rfl)⟩
  | restart vector => exact callTo_does _ p
  | disableInterrupts | enableInterrupts => exact ⟨_, .of_run rfl⟩
  | reset i target | set i target =>
    exact Does.bind_readOperand fun n => writeOperand_does target _ (p.elapse n)
  | _ => exact Does.updating _ p

-- ---------------------------------------------------------------------------
-- Steps
-- ---------------------------------------------------------------------------

theorem launch_yields (d : Decoded) (p : Processor β) :
    ∃ cycles, Yields (launch d) p ()
      { p.perform d.operation d.literal with
        cycles, instructions := p.instructions + 1, trace := p.trace.push (traceEntry d) } := by
  obtain ⟨t, henter, -⟩ := enter_run d p
  obtain ⟨cycles, hexecute⟩ := execute_yields d
    (({ p with trace := p.trace.push (traceEntry d) } : Processor β).elapse d.operation.delay)
  exact ⟨cycles, .bind (.of_run henter) <| .bind (.of_run rfl) <| .bind hexecute (.of_run rfl)⟩

/-- All that a step does that succeeds. -/
theorem step_effect {p : Processor β} {d : Decoded}
    (hd : Bus.instructionAt p.bus p.registers.pc = d) (h : (step.run p).result = .ok ()) :
    (step.run p).state =
      { p with
        registers := (d.effect p.bus p.registers).registers
        bus := Bus.storeAll p.bus (d.effect p.bus p.registers).stores
        ime := d.operation.switchesOn || p.dueIme
        pending := d.operation.toggle?
        cycles := p.cycles.add (d.beats p.registers).length
        instructions := p.instructions + 1
        trace := p.trace.push (traceEntry d) } := by
  obtain ⟨hi, -, hs⟩ := step_spent hd h
  obtain ⟨t, hdecode⟩ := decode_run_of_ok hd hi h
  have hrun := step_of_decode_ok hdecode
  obtain ⟨cycles, hlaunch⟩ := launch_yields d (p.settle.fetched d.size)
  rw [hrun] at h
  have hstate := (congrArg Outcome.state hrun).trans (hlaunch.state h)
  rw [settle_eq] at hstate
  -- how long it took is known from the beats
  have hcycles : cycles = p.cycles.add (d.beats p.registers).length := by
    rw [← hs.cycles, hstate]
  rw [hstate, hcycles]
  simp [perform, apply, Decoded.effect, fetched, elapse, setRegisters]

def Reached (p q : Processor β) (e : Effect) : Prop :=
  q.registers = e.registers ∧ q.bus = Bus.storeAll p.bus e.stores

theorem Reached.of_step {p : Processor β} {d : Decoded}
    (hd : Bus.instructionAt p.bus p.registers.pc = d) (h : (step.run p).result = .ok ()) :
    Reached p (step.run p).state (d.effect p.bus p.registers) := by
  rw [step_effect hd h]
  exact ⟨rfl, rfl⟩

end Processor

end Handheld
