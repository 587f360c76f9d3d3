import Handheld.Proofs.Pacing

/-!
# Steps keep to the beats of the instruction

Decoding reads the bytes of the instruction at the program counter and nothing
else. A byte that stands for no instruction ends a step right there, with all as
it was. Every other step goes through the beats of its instruction.
-/

namespace Handheld

-- ---------------------------------------------------------------------------
-- The tables
-- ---------------------------------------------------------------------------

namespace Operation

theorem extended_implemented (opcode : UInt8) : (extended opcode).implemented = true := by
  unfold extended
  split <;> rfl

theorem extended_literal (opcode : UInt8) : (extended opcode).literal = .none := by
  unfold extended
  split <;> rfl

theorem extended_ne_extend (opcode : UInt8) : extended opcode ≠ .extend := by
  unfold extended
  split <;> simp

theorem primary_ne_extend :
    ∀ opcode : UInt8, opcode ≠ Opcode.extension → primary opcode ≠ .extend := by
  decide +kernel

theorem beats_pc (op : Operation) (l : Literal) (r : Registers) (pc : UInt16) :
    op.beats l { r with pc } = op.beats l r := by
  cases op <;> rfl

end Operation

namespace Bus

variable {β : Type} [Bus β]

theorem instructionAt_operation (b : β) (address : UInt16) :
    (instructionAt b address).operation = Processor.operationOf
      (instructionAt b address).prefixed (instructionAt b address).opcode :=
  instructionAt_cases (P := fun d => d.operation = Processor.operationOf d.prefixed d.opcode)
    b address (fun _ => rfl) fun _ _ _ => rfl

theorem instructionAt_literal (b : β) (address : UInt16) :
    (instructionAt b address).literal =
      literalAt b (address + UInt16.ofNat (instructionAt b address).opcodeSize)
        (instructionAt b address).operation.literal := by
  by_cases hx : peek b address = Opcode.extension
  · rw [instructionAt_of_extension hx, Operation.extended_literal]
    rfl
  · rw [instructionAt_of_ne hx]
    rfl

theorem instructionAt_ne_extend (b : β) (address : UInt16) :
    (instructionAt b address).operation ≠ .extend :=
  instructionAt_cases (P := fun d => d.operation ≠ .extend) b address
    Operation.extended_ne_extend fun opcode _ h => Operation.primary_ne_extend opcode h

theorem instructionAt_prefixed {b : β} {address : UInt16} {d : Decoded}
    (hd : instructionAt b address = d) (hi : d.operation.implemented = false) :
    d.prefixed = false := by
  subst hd
  revert hi
  refine instructionAt_cases
    (P := fun d => d.operation.implemented = false → d.prefixed = false) b address ?_ ?_
  · intro opcode hi
    rw [Operation.extended_implemented] at hi
    cases hi
  · exact fun _ _ _ _ => rfl

end Bus

namespace Processor

variable {β : Type}

def dueIme (p : Processor β) : Bool :=
  match p.pending with
  | some t => t == .enable
  | none => p.ime

theorem settle_eq (p : Processor β) : p.settle = { p with ime := p.dueIme, pending := none } := by
  obtain ⟨registers, bus, ime, pending, cycles, instructions, trace, debugging⟩ := p
  cases pending with
  | none => rfl
  | some t => rfl

theorem settle_settle (p : Processor β) : p.settle.settle = p.settle := by
  rw [settle_eq p]
  rfl

def fetched (n : Nat) (p : Processor β) : Processor β :=
  (p.elapse n).setRegisters fun r => { r with pc := r.pc + UInt16.ofNat n }

theorem fetched_fetched (m n : Nat) (p : Processor β) :
    (p.fetched m).fetched n = p.fetched (m + n) := by
  simp [fetched, elapse, setRegisters, Cycles.add_add, UInt16.add_assoc, UInt16.ofNat_add]

theorem fetched_zero (p : Processor β) : p.fetched 0 = p := by
  simp [fetched, elapse, setRegisters, Cycles.add_zero]

variable [Bus β]

theorem bind_fetch_paced {α : Type} {f : UInt8 → Action (Processor β) α} {p : Processor β}
    {bs : List Beat} {Q : α → Processor β → Prop} {E : Processor β → Prop}
    (hf : ∀ v, Bus.read? p.bus p.registers.pc = some v → Paced (f v) (p.fetched 1) bs Q E)
    (hE : E p) : Paced (fetch >>= f) p (.read p.registers.pc :: bs) Q E := by
  have hx : Paced fetch p [.read p.registers.pc]
      (fun v q => Bus.read? p.bus p.registers.pc = some v ∧ q = p.fetched 1) E :=
    .bind_reading <| .bind_read (fun _ h => .bind_updating (.pure ⟨h, rfl⟩)) hE
  refine .bind hx ?_
  rintro v _ ⟨h, rfl⟩
  exact hf v h

def Fetching (p q : Processor β) : Prop := ∃ n, q = p.fetched n

omit [Bus β] in
theorem Fetching.refl (p : Processor β) : Fetching p p := ⟨0, (fetched_zero p).symm⟩

omit [Bus β] in
theorem Fetching.of_fetched {m : Nat} {p q : Processor β} (h : Fetching (p.fetched m) q) :
    Fetching p q := by
  obtain ⟨n, rfl⟩ := h
  exact ⟨m + n, fetched_fetched m n p⟩

theorem fetchLiteral_paced (k : LiteralKind) (p : Processor β) :
    Paced (fetchLiteral k) p (Beat.fetches p.registers.pc k.size)
      (fun l q => l = Bus.literalAt p.bus p.registers.pc k ∧ q = p.fetched k.size ∧
        Bus.Readable p.bus p.registers.pc k.size) (Fetching p) := by
  cases k with
  | none => exact .pure ⟨rfl, (fetched_zero p).symm, trivial⟩
  | byte =>
    refine bind_fetch_paced (fun v h => .pure ⟨?_, rfl, by simp [h], trivial⟩) (.refl p)
    rw [Bus.literalAt, Bus.peek_of_read? h]
  | word =>
    refine .bind_silent (P := fun w q =>
      w = Word.ofBytes (Bus.peek p.bus p.registers.pc) (Bus.peek p.bus (p.registers.pc + 1)) ∧
        q = p.fetched 2 ∧ Bus.Readable p.bus p.registers.pc 2) ?_ ?_
    · refine bind_fetch_paced (fun high hh => ?_) (.refl p)
      refine bind_fetch_paced (fun low hl => .pure ?_) ⟨1, rfl⟩
      have hl : Bus.read? p.bus (p.registers.pc + 1) = some low := hl
      refine ⟨?_, fetched_fetched 1 1 p, by simp [hh], by simp [hl], trivial⟩
      rw [Bus.peek_of_read? hh, Bus.peek_of_read? hl]
    · rintro w _ ⟨rfl, rfl, hr⟩
      exact .pure ⟨rfl, rfl, hr⟩

-- ---------------------------------------------------------------------------
-- Decoding
-- ---------------------------------------------------------------------------

theorem fetchOpcode_paced (p : Processor β) {d : Decoded}
    (hd : Bus.instructionAt p.bus p.registers.pc = d) :
    Paced fetchOpcode p (Beat.fetches p.registers.pc d.opcodeSize)
      (fun o q => o = (d.prefixed, d.opcode) ∧ q = p.fetched d.opcodeSize ∧
        Bus.Readable p.bus p.registers.pc d.opcodeSize) (Fetching p) := by
  by_cases hx : Bus.peek p.bus p.registers.pc = Opcode.extension
  · rw [Bus.instructionAt_of_extension hx] at hd
    subst hd
    refine bind_fetch_paced (fun first hf => ?_) (.refl p)
    rw [if_pos (Bus.peek_of_read? hf ▸ hx)]
    refine bind_fetch_paced (fun opcode ho => .pure ?_) ⟨1, rfl⟩
    have ho : Bus.read? p.bus (p.registers.pc + 1) = some opcode := ho
    exact ⟨by rw [Bus.peek_of_read? ho], fetched_fetched 1 1 p, by simp [hf], by simp [ho], trivial⟩
  · rw [Bus.instructionAt_of_ne hx] at hd
    subst hd
    refine bind_fetch_paced (fun first hf => ?_) (.refl p)
    rw [if_neg (Bus.peek_of_read? hf ▸ hx)]
    exact .pure ⟨by rw [Bus.peek_of_read? hf], rfl, by simp [hf], trivial⟩

theorem decode_paced (p : Processor β) {d : Decoded}
    (hd : Bus.instructionAt p.bus p.registers.pc = d) (hi : d.operation.implemented = true) :
    Paced decode p (Beat.fetches p.registers.pc d.size)
      (fun d' q => d' = d ∧ q = p.fetched d.size ∧ Bus.Readable p.bus p.registers.pc d.size)
      (Fetching p) := by
  have hop : d.operation = operationOf d.prefixed d.opcode := hd ▸ Bus.instructionAt_operation _ _
  have hlit := Bus.instructionAt_literal p.bus p.registers.pc
  rw [hd] at hlit
  rw [Decoded.size, Beat.fetches_add]
  refine .bind_reading <| .bind (fetchOpcode_paced p hd) ?_
  rintro _ _ ⟨rfl, rfl, hr⟩
  simp only [← hop, hi, ↓reduceIte]
  refine .bind_silent ((fetchLiteral_paced d.operation.literal _).mono (fun _ _ h => h)
    fun _ h => h.of_fetched) ?_
  rintro _ _ ⟨rfl, rfl, hr'⟩
  refine .pure ⟨?_, fetched_fetched _ _ p, Bus.readable_add.mpr ⟨hr, hr'⟩⟩
  show (⟨p.registers.pc, d.prefixed, d.opcode, d.operation, Bus.literalAt p.bus
    (p.registers.pc + UInt16.ofNat d.opcodeSize) d.operation.literal⟩ : Decoded) = d
  rw [← hlit, ← show d.address = p.registers.pc from hd ▸ Bus.instructionAt_address _ _]

theorem fetch_run {p : Processor β} {v : UInt8} (h : Bus.read? p.bus p.registers.pc = some v) :
    ∃ t, fetch.run p = ⟨.ok v, p.fetched 1, t⟩ ∧ Event.accesses t = [.read p.registers.pc] := by
  obtain ⟨t, hread, ht⟩ := read_run h
  refine ⟨[] ++ (t ++ ([] ++ [])), ?_, by simpa using ht⟩
  refine (Action.run_bind_ok (x := reading (·.pc)) rfl).trans ?_
  rw [Action.run_bind_ok hread]
  rfl

theorem read?_of_unimplemented {b : β} {address : UInt16} {d : Decoded}
    (hd : Bus.instructionAt b address = d) (hi : d.operation.implemented = false) :
    Bus.read? b address = some d.opcode ∧ d.opcode ≠ Opcode.extension ∧
      d.operation = .primary d.opcode := by
  have hx : Bus.peek b address ≠ Opcode.extension := by
    intro hx
    rw [← hd, Bus.instructionAt_of_extension hx, Operation.extended_implemented] at hi
    cases hi
  have hread : (Bus.read? b address).isSome = true := by
    refine Bus.isSome_of_ne_restart fun h => ?_
    rw [← hd, h] at hi
    cases hi
  obtain ⟨v, hv⟩ := Option.isSome_iff_exists.mp hread
  rw [Bus.instructionAt_of_ne hx] at hd
  subst hd
  exact ⟨by rw [hv, Bus.peek_of_read? hv], hx, rfl⟩

theorem beats_of_unimplemented {b : β} {address : UInt16} {d : Decoded}
    (hd : Bus.instructionAt b address = d) (hi : d.operation.implemented = false)
    (r : Registers) : d.beats r = [.read address] := by
  have hu : d.operation = .unimplemented := by simpa [Operation.implemented] using hi
  have hp := Bus.instructionAt_prefixed hd hi
  have ha : d.address = address := hd ▸ Bus.instructionAt_address _ _
  simp only [Decoded.beats, Decoded.size, Decoded.opcodeSize, hu, hp, ha]
  rfl

theorem decode_unimplemented (p : Processor β) {d : Decoded}
    (hd : Bus.instructionAt p.bus p.registers.pc = d) (hi : d.operation.implemented = false) :
    ∃ t, decode.run p = ⟨.error (.unimplemented d.opcode p.registers.pc), p.fetched 1, t⟩ ∧
      Event.accesses t = [.read p.registers.pc] := by
  obtain ⟨hread, hx, hop⟩ := read?_of_unimplemented hd hi
  obtain ⟨t, hfetch, ht⟩ := fetch_run hread
  have hopcode : fetchOpcode.run p = ⟨.ok (false, d.opcode), p.fetched 1, t ++ []⟩ := by
    refine (Action.run_bind_ok hfetch).trans ?_
    rw [if_neg hx]
    rfl
  refine ⟨[] ++ (t ++ [] ++ []), ?_, by simpa using ht⟩
  refine (Action.run_bind_ok (x := reading (·.pc)) rfl).trans ?_
  rw [Action.run_bind_ok hopcode]
  simp only [operationOf, ← hop, hi, Bool.false_eq_true, ↓reduceIte]
  rfl

-- ---------------------------------------------------------------------------
-- Steps
-- ---------------------------------------------------------------------------

theorem Paced.bind_attempt {α γ : Type} {x : Action (Processor β) α}
    {f : Except Fault α → Action (Processor β) γ} {p : Processor β} {as bs : List Beat}
    {P : α → Processor β → Prop} {Q : γ → Processor β → Prop} {E : Processor β → Prop}
    (hx : Paced x p as P E) (hok : ∀ a q, P a q → Paced (f (.ok a)) q bs Q E)
    (herror : ∀ address direction q, ∃ t, (f (.error (.unmapped address direction))).run q =
      ⟨.error (.unmapped address direction), q, t⟩ ∧ Event.accesses t = []) :
    Paced (x.attempt >>= f) p (as ++ bs) Q E := by
  rcases hrun : x.run p with ⟨e | a, q, t⟩
  · obtain ⟨hE, past, beat, rest, rfl, hs, href⟩ := hx.error hrun
    obtain ⟨address, direction, rfl⟩ : ∃ address direction, e = .unmapped address direction := by
      cases beat with
      | wait => exact href.elim
      | read address => exact ⟨address, .read, href.2⟩
      | write address => exact ⟨address, .write, href.2⟩
    obtain ⟨u, hf, hu⟩ := herror address direction q
    refine Action.Triple.bind_of_run (Action.run_attempt hrun) (Action.Triple.of_run_error hf ?_)
    refine ⟨hE, past, beat, rest ++ bs, by simp, ?_, href⟩
    exact ⟨hs.cycles, by simpa [hu] using hs.accesses⟩
  · obtain ⟨hs, hP⟩ := hx.ok hrun
    exact Action.Triple.bind_of_run (Action.run_attempt hrun) ((hok a q hP).after hs)

/-- The processor when the accesses of an operation begin: the bytes are fetched,
the instruction is in the trace, the delay is over. -/
def launched (d : Decoded) (p : Processor β) : Processor β :=
  (({ p.fetched d.size with trace := p.trace.push (traceEntry d) } : Processor β).elapse
    d.operation.delay).setRegisters d.operation.aim

def launch (d : Decoded) : Action (Processor β) Unit := do
  enter d
  elapsing d.operation.delay
  execute d
  .modify fun p => { p with instructions := p.instructions + 1 }

section
variable {p q : Processor β} {t : List Event}

theorem step_of_decode_error {e : Fault} (h : decode.run p.settle = ⟨.error e, q, t⟩) :
    ∃ u, Event.accesses u = [] ∧ step.run p =
      ⟨.error e, if e.isOpcode then q.rewind p.registers.pc p.cycles else q, t ++ u⟩ := by
  obtain ⟨u, hrun, hu⟩ := rejected_run p.registers.pc p.cycles e q
  refine ⟨u, hu, ?_⟩
  rw [step, Action.run_bind_modify, Action.run_bind_gets,
    Action.run_bind_ok (Action.run_attempt h), registers_settle, cycles_settle]
  dsimp only
  rw [hrun]

theorem step_of_decode_ok {d : Decoded} (h : decode.run p.settle = ⟨.ok d, q, t⟩) :
    let o := (launch d).run q
    step.run p = ⟨o.result, o.state, t ++ o.trail⟩ := by
  rw [step, Action.run_bind_modify, Action.run_bind_gets,
    Action.run_bind_ok (Action.run_attempt h)]
  rfl

end

/-- A byte that stands for no instruction leaves all as it was, apart from the
interrupt switch. -/
theorem step_unimplemented (p : Processor β) {d : Decoded}
    (hd : Bus.instructionAt p.bus p.registers.pc = d) (hi : d.operation.implemented = false) :
    ∃ t, step.run p = ⟨.error (.unimplemented d.opcode p.registers.pc), p.settle, t⟩ ∧
      Event.accesses t = [.read p.registers.pc] := by
  obtain ⟨t, hdec, ht⟩ := decode_unimplemented p.settle (by simpa using hd) hi
  simp only [registers_settle] at hdec ht
  obtain ⟨u, hu, hrun⟩ := step_of_decode_error hdec
  -- fetching moved the program counter and took a cycle; both are taken back
  have hback : rewind p.registers.pc p.cycles (p.settle.fetched 1) = p.settle := by
    rw [← registers_settle p, ← cycles_settle p]
    simp only [rewind, fetched, elapse, setRegisters]
  simp only [Fault.isOpcode, ↓reduceIte, hback] at hrun
  exact ⟨t ++ u, hrun, by simp [ht, hu]⟩

theorem launch_paced (d : Decoded) (p : Processor β) (hi : d.operation.implemented = true)
    (hx : d.operation ≠ .extend) :
    Paced (launch d) (p.fetched d.size)
      (Beat.waits d.operation.delay ++ d.operation.beats d.literal p.registers)
      (fun _ _ => True) (Stalled (launched d p)) := by
  have hu : d.operation ≠ .unimplemented := by simpa [Operation.implemented] using hi
  obtain ⟨t, henter, ht⟩ := enter_run d (p.fetched d.size)
  refine .bind_of_run henter rfl ht <| .bind_elapsing ?_
  rw [← Operation.beats_pc _ _ p.registers (p.registers.pc + UInt16.ofNat d.size)]
  exact .bind_silent (execute_paced d _ hu hx) fun _ _ _ => .of_run rfl rfl rfl trivial

/-- A step goes through the beats of the instruction at the program counter. If
the bus refuses one of them, nothing was done but what came before it. -/
theorem step_paced (p : Processor β) {d : Decoded}
    (hd : Bus.instructionAt p.bus p.registers.pc = d) (hi : d.operation.implemented = true) :
    Paced step p (d.beats p.registers) (fun _ _ => Bus.Readable p.bus p.registers.pc d.size)
      (fun q => Fetching p.settle q ∨ Stalled (launched d p.settle) q) := by
  have hpc : d.address = p.registers.pc := hd ▸ Bus.instructionAt_address _ _
  have hx : d.operation ≠ .extend := hd ▸ Bus.instructionAt_ne_extend _ _
  rw [Decoded.beats, hpc, List.append_assoc]
  refine .bind_of_run (x := .modify settle) rfl (cycles_settle p) rfl ?_
  refine .bind_of_run (x := .gets fun q : Processor β => (q.registers.pc, q.cycles)) rfl rfl rfl ?_
  dsimp only
  have hdec : Paced decode p.settle _ _ _ := decode_paced p.settle (by simpa using hd) hi
  simp only [registers_settle, bus_settle] at hdec
  refine .bind_attempt (hdec.mono (fun _ _ h => h) fun _ h => .inl h) ?_
    fun address direction q => rejected_run _ _ (.unmapped address direction) q
  rintro _ _ ⟨rfl, rfl, hr⟩
  have hlaunch := launch_paced _ p.settle hi hx
  rw [registers_settle] at hlaunch
  exact hlaunch.mono (fun _ _ _ => hr) fun _ h => .inr h

/-- Whatever fault ends a step, it ended while the bytes were fetched, or at an
access of the operation. -/
theorem state_of_error {p : Processor β} {e : Fault} (h : (step.run p).result = .error e) :
    Fetching p.settle (step.run p).state ∨
      Stalled (launched (Bus.instructionAt p.bus p.registers.pc) p.settle) (step.run p).state := by
  cases hi : (Bus.instructionAt p.bus p.registers.pc).operation.implemented with
  | false =>
    obtain ⟨t, hrun, -⟩ := step_unimplemented p rfl hi
    rw [hrun]
    exact .inl (.refl p.settle)
  | true => exact (Action.Triple.of_result_error (step_paced p rfl hi) h).1

theorem decode_run_of_ok {p : Processor β} {d : Decoded}
    (hd : Bus.instructionAt p.bus p.registers.pc = d) (hi : d.operation.implemented = true)
    (h : (step.run p).result = .ok ()) :
    ∃ t, decode.run p.settle = ⟨.ok d, p.settle.fetched d.size, t⟩ := by
  rcases hdecode : decode.run p.settle with ⟨e | d', q, t⟩
  · obtain ⟨u, -, hrun⟩ := step_of_decode_error hdecode
    rw [hrun] at h
    cases h
  · obtain ⟨-, rfl, rfl, -⟩ := (decode_paced p.settle (by simpa using hd) hi).ok hdecode
    exact ⟨t, rfl⟩

end Processor
end Handheld
