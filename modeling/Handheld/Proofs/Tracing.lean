import Mathlib.Data.List.DropRight
import Handheld.Proofs.Bookkeeping
import Handheld.Proofs.Decoding

/-!
# What the trace tells

A trace holds the last entries of all that were ever pushed, as many as it has room
for. A step pushes the instruction that it has decoded, before it executes it; a step
that cannot decode pushes nothing. The count of instructions goes by the results
instead, and so runs behind the trace where an execution faults.
-/

namespace Handheld

namespace Trace

theorem rtake_rtake_append (es : List TraceEntry) (n : Nat) (e : TraceEntry) :
    (es.rtake n ++ [e]).rtake n = (es ++ [e]).rtake n := by
  cases n with
  | zero => simp
  | succ n => simp [List.rtake_eq_reverse_take_reverse, List.take_take]

theorem rtake_of_length_le {es : List TraceEntry} {n : Nat} (h : es.length ≤ n) :
    es.rtake n = es := by
  rw [List.rtake, Nat.sub_eq_zero_of_le h, List.drop_zero]

@[simp] theorem capacity_push (t : Trace) (e : TraceEntry) : (t.push e).capacity = t.capacity := by
  unfold push
  split
  · rfl
  · split <;> rfl

theorem toList_push {t : Trace} (h : t.size ≤ t.capacity) (e : TraceEntry) :
    (t.push e).toList = (t.toList ++ [e]).rtake t.capacity := by
  have hlength : t.toList.length = t.size := Array.length_toList
  unfold push
  split
  next h₀ =>
    -- without room there is nothing in the trace, and nothing comes in
    rw [h₀, List.rtake_zero, ← List.length_eq_zero_iff]
    omega
  next h₀ =>
    split
    next hroom =>
      rw [rtake_of_length_le (by rw [List.length_append, hlength]; exact hroom)]
      exact Array.toList_push
    next hfull =>
      have hsize : t.size = t.capacity := Nat.le_antisymm h (Nat.not_lt.mp hfull)
      have hdrop : (t.toList ++ [e]).length - t.capacity = 1 := by
        rw [List.length_append, hlength, hsize]
        exact Nat.add_sub_cancel_left _ _
      rw [List.rtake, hdrop, List.drop_append_of_le_length (by omega)]
      simp [toList, List.take_of_length_le]

/-- A trace with the given room remembers a history as far back as that goes. -/
structure Recalls (t : Trace) (capacity : Nat) (history : List TraceEntry) : Prop where
  capacity_eq : t.capacity = capacity
  toList_eq : t.toList = history.rtake capacity

namespace Recalls

variable {t : Trace} {capacity : Nat} {history : List TraceEntry}

theorem empty (capacity : Nat) : (Trace.empty capacity).Recalls capacity [] :=
  ⟨rfl, (List.rtake_nil capacity).symm⟩

theorem of_size_le (h : t.size ≤ t.capacity) : t.Recalls t.capacity t.toList :=
  ⟨rfl, (rtake_of_length_le h).symm⟩

theorem size_eq (h : t.Recalls capacity history) : t.size = min capacity history.length := by
  have hlength : t.size = (history.rtake capacity).length := congrArg List.length h.toList_eq
  rw [hlength, List.rtake, List.length_drop]
  omega

theorem push (h : t.Recalls capacity history) (e : TraceEntry) :
    (t.push e).Recalls capacity (history ++ [e]) := by
  have hsize : t.size ≤ t.capacity := by
    rw [h.size_eq, h.capacity_eq]
    exact Nat.min_le_left _ _
  refine ⟨(t.capacity_push e).trans h.capacity_eq, ?_⟩
  rw [toList_push hsize, h.toList_eq, h.capacity_eq, rtake_rtake_append]

theorem foldl_push (h : t.Recalls capacity history) (es : List TraceEntry) :
    (es.foldl Trace.push t).Recalls capacity (history ++ es) := by
  induction es generalizing t history with
  | nil => simpa using h
  | cons e es ih => simpa using ih (h.push e)

theorem last?_eq (h : t.Recalls capacity history) :
    t.last? = if capacity = 0 then none else history.getLast? := by
  have hlast : t.last? = t.toList.getLast? := (Array.getLast?_toList _).symm
  rw [hlast, h.toList_eq]
  cases history with
  | nil => simp
  | cons e es =>
    have hroom : (e :: es).length ≤ (e :: es).length - capacity ↔ capacity = 0 := by
      rw [List.length_cons]
      omega
    simp only [List.rtake, List.getLast?_drop, hroom]

end Recalls

theorem toList_foldl_push {t : Trace} {es : List TraceEntry}
    (h : t.size + es.length ≤ t.capacity) : (es.foldl push t).toList = t.toList ++ es := by
  have hrecalls := (Recalls.of_size_le (Nat.le_of_add_right_le h)).foldl_push es
  rw [hrecalls.toList_eq, rtake_of_length_le]
  rwa [List.length_append]

end Trace

namespace Processor

variable {β : Type} [Bus β]

def entryAt (b : β) (address : UInt16) : TraceEntry :=
  let prefixed := Bus.peek b address = Opcode.extension
  let opcode := Bus.peek b (if prefixed then address + 1 else address)
  let operation := operationOf prefixed opcode
  let literal := Bus.literalAt b (address + if prefixed then 2 else 1) operation.literal
  ⟨address, opcode, prefixed, operation.listing literal⟩

theorem traceEntry_instructionAt (b : β) (address : UInt16) :
    traceEntry (Bus.instructionAt b address) = entryAt b address := by
  by_cases hx : Bus.peek b address = Opcode.extension
  · rw [Bus.instructionAt_of_extension hx]
    simp [traceEntry, entryAt, hx, operationOf, Operation.extended_literal, Decoded.listing,
      Bus.literalAt]
  · rw [Bus.instructionAt_of_ne hx]
    simp [traceEntry, entryAt, hx, operationOf, Decoded.listing]

-- ---------------------------------------------------------------------------
-- One step
-- ---------------------------------------------------------------------------

theorem trace_law : Law fun (p : Processor β) _ q => q.trace = p.trace where
  refl _ := rfl
  trans h h' := h'.trans h
  reads _ := rfl
  writes _ := rfl
  elapses _ _ := rfl
  updates _ _ := rfl
  switches _ _ := rfl
  schedules _ _ := rfl

omit [Bus β] in
theorem trace_settle (p : Processor β) : p.settle.trace = p.trace := by
  rw [settle_eq]

theorem trace_launch (d : Decoded) (p : Processor β) :
    ((launch d).run p).state.trace = p.trace.push (traceEntry d) := by
  obtain ⟨t, henter, -⟩ := enter_run d p
  have hrest : Action.Obeys (fun (p : Processor β) _ q => q.trace = p.trace) (do
      elapsing d.operation.delay
      execute d
      Action.modify fun p => { p with instructions := p.instructions + 1 }) :=
    .bind trace_law.toChain (trace_law.obeys (.elapsing _)) fun _ =>
      .bind trace_law.toChain (trace_law.obeys (.execute d)) fun _ _ => rfl
  rw [launch, Action.run_bind_ok henter]
  exact hrest _

theorem trace_step (p : Processor β) :
    (step.run p).state.trace = (p.decoded?.map traceEntry).elim p.trace p.trace.push := by
  cases h : p.decoded? with
  | none =>
    obtain ⟨e, q, t, hrun⟩ := decode_of_undecoded h
    have hq : q.trace = p.trace := by
      have hkept := trace_law.obeys .decode p.settle
      rw [hrun] at hkept
      exact hkept.trans (trace_settle p)
    obtain ⟨u, -, hstep⟩ := step_of_decode_error hrun
    rw [hstep]
    dsimp only
    split <;> exact hq
  | some d =>
    obtain ⟨t, -, hrun⟩ := step_of_decoded h
    rw [hrun, trace_launch]
    exact congrArg (Trace.push · (traceEntry d)) (trace_settle p)

-- ---------------------------------------------------------------------------
-- Any number of steps
-- ---------------------------------------------------------------------------

/-- What the first steps decode, in their order. -/
def history (n : Nat) (p : Processor β) : List TraceEntry :=
  (List.range n).filterMap fun k => (step.after k p).decoded?.map traceEntry

theorem history_succ (n : Nat) (p : Processor β) :
    p.history (n + 1) = p.history n ++ ((step.after n p).decoded?.map traceEntry).toList := by
  rw [history, List.range_succ, List.filterMap_append]
  cases h : (step.after n p).decoded? <;> simp [h, history]

theorem recalls_after {p : Processor β} {capacity : Nat} (h : p.trace.Recalls capacity [])
    (n : Nat) : (step.after n p).trace.Recalls capacity (p.history n) := by
  induction n with
  | zero => exact h
  | succ n ih =>
    rw [Action.after_succ, trace_step, history_succ]
    cases (step.after n p).decoded? with
    | none => simpa using ih
    | some d => exact ih.push (traceEntry d)

def successes (n : Nat) (p : Processor β) : Nat :=
  (List.range n).countP fun k => (step.run (step.after k p)).result.isOk

theorem instructions_after (n : Nat) (p : Processor β) :
    (step.after n p).instructions = p.instructions + UInt64.ofNat (p.successes n) := by
  induction n with
  | zero => exact (UInt64.add_zero _).symm
  | succ n ih =>
    have hlast : [n].countP (fun k => (step.run (step.after k p)).result.isOk) =
        (step.run (step.after n p)).result.isOk.toNat := by
      rw [List.countP_singleton]
      cases (step.run (step.after n p)).result.isOk <;> rfl
    rw [Action.after_succ, instructions_step, ih, successes, successes, List.range_succ,
      List.countP_append, hlast, UInt64.ofNat_add, UInt64.add_assoc]

/-- However a new processor fares, its trace tells the last of the instructions that
its steps decoded, those among them that then faulted not left out, and it counts the
steps that succeeded. What a step decodes is what the bus answers at the program
counter, and a step that decodes nothing leaves the trace as it is. -/
theorem trace_tells (bus : β) (traceCapacity n : Nat) (r : Registers) :
    let p := (new bus traceCapacity).setRegisters fun _ => r
    let q := step.after n p
    let d := Bus.instructionAt q.bus q.registers.pc
    q.trace.toList = (p.history n).rtake traceCapacity ∧
      q.trace.size = min traceCapacity (p.history n).length ∧
      q.trace.last? = (if traceCapacity = 0 then none else (p.history n).getLast?) ∧
      q.instructions.toNat = p.successes n % UInt64.size ∧
      (∀ e, q.decoded?.map traceEntry = some e ↔ e = entryAt q.bus q.registers.pc ∧
        d.operation.implemented = true ∧ Bus.Readable q.bus q.registers.pc d.size) ∧
      ((step.run q).result = .ok () → q.decoded? = some d) ∧
      (q.decoded? = none → (step.run q).state.trace = q.trace) := by
  intro p q d
  have hrecalls : q.trace.Recalls traceCapacity (p.history n) :=
    recalls_after (.empty traceCapacity) n
  refine ⟨hrecalls.toList_eq, hrecalls.size_eq, hrecalls.last?_eq, ?_, ?_, decoded?_of_ok, ?_⟩
  · have hzero : p.instructions = 0 := rfl
    rw [instructions_after n p, hzero, UInt64.zero_add, UInt64.toNat_ofNat']
  · intro e
    rw [Option.map_eq_some_iff]
    constructor
    · rintro ⟨d', hd', rfl⟩
      obtain ⟨rfl, hi, hr⟩ := decoded?_eq_some_iff.mp hd'
      exact ⟨traceEntry_instructionAt _ _, hi, hr⟩
    · rintro ⟨rfl, hi, hr⟩
      exact ⟨d, decoded?_eq_some_iff.mpr ⟨rfl, hi, hr⟩, traceEntry_instructionAt _ _⟩
  · intro h
    rw [trace_step, h]
    rfl

/-- The second of the instructions reads where nothing answers, and no instruction
follows it. The trace has room for one. -/
def astray : Processor MemoryMap :=
  (new (.new ⟨#[0xCB, 0x37, 0xFA, 0xA0, 0x00, 0xD3]⟩ none) 1).setRegisters fun _ => {}

theorem trace_tells_astray :
    astray.history 4 = [⟨0x0000, 0x37, true, "SWAP A"⟩, ⟨0x0002, 0xFA, false, "LD A, ($A000)"⟩] ∧
      (step.after 4 astray).trace.toList = [⟨0x0002, 0xFA, false, "LD A, ($A000)"⟩] ∧
      (step.after 4 astray).instructions.toNat = 1 ∧
      (step.run (step.after 4 astray)).state.trace = (step.after 4 astray).trace := by
  have hhistory : astray.history 4 =
      [⟨0x0000, 0x37, true, "SWAP A"⟩, ⟨0x0002, 0xFA, false, "LD A, ($A000)"⟩] := by
    decide +kernel
  have hsuccesses : astray.successes 4 = 1 := by decide +kernel
  have hundecoded : (step.after 4 astray).decoded? = none := by decide +kernel
  obtain ⟨htrace, -, -, hcount, -, -, hkept⟩ :=
    trace_tells (.new ⟨#[0xCB, 0x37, 0xFA, 0xA0, 0x00, 0xD3]⟩ none : MemoryMap) 1 4 {}
  refine ⟨hhistory, htrace.trans ?_, hcount.trans ?_, hkept hundecoded⟩
  · exact congrArg (List.rtake · 1) hhistory
  · exact congrArg (· % UInt64.size) hsuccesses

end Processor

end Handheld
