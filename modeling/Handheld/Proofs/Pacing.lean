import Handheld.Proofs.Beats
import Handheld.Proofs.Laws

/-!
# Instructions keep to their beats

`Paced` says that an action goes through given beats, one machine cycle each, in
their order: all of them if it succeeds, and those before the first one that the
bus refuses if it faults. `execute_paced` says so of executing an instruction,
for every bus and every state, with what a fault leaves behind.
-/

namespace Handheld

theorem Cycles.add_zero (c : Cycles) : c.add 0 = c := by
  simp [Cycles.add]

theorem Cycles.add_add (c : Cycles) (m n : Nat) : (c.add m).add n = c.add (m + n) := by
  simp [Cycles.add, UInt64.add_assoc, UInt64.add_mul]

theorem Cycles.ofNat_congr {c : Cycles} {m n : Nat} (h : c.add m = c.add n) :
    UInt64.ofNat m = UInt64.ofNat n :=
  (UInt64.add_right_inj c.m).mp (congrArg Cycles.m h)

def Beat.Refused {β : Type} [Bus β] (b : β) (e : Fault) : Beat → Prop
  | .wait => False
  | .read address => Bus.read? b address = none ∧ e = .unmapped address .read
  | .write address => (∃ v, Bus.writable b address v = false) ∧ e = .unmapped address .write

def Pointer.move (p : Pointer) (r : Registers) : Registers :=
  match p with
  | .bc | .de => r
  | .hlIncrement => r.setHL (r.hl + 1)
  | .hlDecrement => r.setHL (r.hl - 1)

/-- The registers when the accesses of an operation begin: only pointers move before. -/
def Operation.aim (op : Operation) (r : Registers) : Registers :=
  match op with
  | .storeThrough p | .loadThrough p => p.move r
  | _ => r

namespace Processor

variable {α β γ : Type}

/-- From `p` to `q` the beats passed, and the accesses among them were completed. -/
structure Spent (beats : List Beat) (p q : Processor β) (t : List Event) : Prop where
  cycles : q.cycles = p.cycles.add beats.length
  accesses : (Event.accesses t).map Access.place = beats.filterMap Beat.access?

theorem Spent.none {p q : Processor β} {t : List Event} (hc : q.cycles = p.cycles)
    (ht : Event.accesses t = []) : Spent [] p q t :=
  ⟨by rw [hc, List.length_nil, Cycles.add_zero], by rw [ht]; rfl⟩

theorem Spent.append {as bs : List Beat} {p q r : Processor β} {t u : List Event}
    (h₁ : Spent as p q t) (h₂ : Spent bs q r u) : Spent (as ++ bs) p r (t ++ u) where
  cycles := by rw [h₂.cycles, h₁.cycles, Cycles.add_add, List.length_append]
  accesses := by
    rw [Event.accesses_append, List.map_append, h₁.accesses, h₂.accesses, List.filterMap_append]

/-- `q` is `p` but for the bus and the cycles. -/
def Stalled (p q : Processor β) : Prop := ∃ bus cycles, q = { p with bus, cycles }

theorem Stalled.refl (p : Processor β) : Stalled p p := ⟨_, _, rfl⟩

theorem Stalled.trans {p q r : Processor β} (h₁ : Stalled p q) (h₂ : Stalled q r) :
    Stalled p r := by
  obtain ⟨_, _, rfl⟩ := h₁
  obtain ⟨bus, cycles, rfl⟩ := h₂
  exact ⟨bus, cycles, rfl⟩

section
variable [Bus β]

-- ---------------------------------------------------------------------------
-- Single accesses
-- ---------------------------------------------------------------------------

theorem read_run {p : Processor β} {address : UInt16} {v : UInt8}
    (h : Bus.read? p.bus address = some v) :
    ∃ t, (read address).run p = ⟨.ok v, p.elapse 1, t⟩ ∧ Event.accesses t = [.read address] := by
  obtain ⟨t, hrun, ht⟩ := busRead_run h
  exact ⟨_, Action.run_bind_ok hrun, by simp [ht]; rfl⟩

theorem read_run_none {p : Processor β} {address : UInt16} (h : Bus.read? p.bus address = none) :
    ∃ t, (read address).run p = ⟨.error (.unmapped address .read), p, t⟩ ∧
      Event.accesses t = [] := by
  obtain ⟨t, hrun, ht⟩ := busRead_run_none h
  exact ⟨t, Action.run_bind_error hrun, ht⟩

theorem write_run {p : Processor β} {address : UInt16} {v : UInt8}
    (h : Bus.writable p.bus address v = true) :
    ∃ t, (write address v).run p =
        ⟨.ok (), { p.elapse 1 with bus := Bus.store p.bus address v }, t⟩ ∧
      Event.accesses t = [.write address v] := by
  obtain ⟨t, hrun, ht⟩ := busWrite_run h
  exact ⟨_, Action.run_bind_ok hrun, by simp [ht]; rfl⟩

theorem write_run_false {p : Processor β} {address : UInt16} {v : UInt8}
    (h : Bus.writable p.bus address v = false) :
    ∃ t, (write address v).run p = ⟨.error (.unmapped address .write), p, t⟩ ∧
      Event.accesses t = [] := by
  obtain ⟨t, hrun, ht⟩ := busWrite_run_false h
  exact ⟨t, Action.run_bind_error hrun, ht⟩

-- ---------------------------------------------------------------------------
-- Keeping to beats
-- ---------------------------------------------------------------------------

/-- The action keeps to the beats. It succeeds as `Q` says, or leaves a state of
which `E` holds when the bus refuses a beat. -/
def Paced (x : Action (Processor β) α) (p : Processor β) (beats : List Beat)
    (Q : α → Processor β → Prop) (E : Processor β → Prop) : Prop :=
  x.Triple p (fun a q t => Spent beats p q t ∧ Q a q) fun e q t =>
    E q ∧ ∃ past beat rest, beats = past ++ beat :: rest ∧ Spent past p q t ∧ beat.Refused q.bus e

namespace Paced

variable {x : Action (Processor β) α} {f : α → Action (Processor β) γ} {p q : Processor β}
  {as bs : List Beat} {P : α → Processor β → Prop} {Q : γ → Processor β → Prop}
  {E : Processor β → Prop}

theorem mono {P' : α → Processor β → Prop} {E' : Processor β → Prop} (hx : Paced x p as P E)
    (hP : ∀ a q, P a q → P' a q) (hE : ∀ q, E q → E' q) : Paced x p as P' E' :=
  Action.Triple.mono hx (fun _ _ _ h => ⟨h.1, hP _ _ h.2⟩) fun _ _ _ h => ⟨hE _ h.1, h.2⟩

theorem after {t : List Event} (hx : Paced x q bs P E) (hs : Spent as p q t) :
    x.Triple q (fun a r u => Spent (as ++ bs) p r (t ++ u) ∧ P a r) fun e r u =>
      E r ∧ ∃ past beat rest, as ++ bs = past ++ beat :: rest ∧ Spent past p r (t ++ u) ∧
        beat.Refused r.bus e := by
  refine Action.Triple.mono hx ?_ ?_
  · rintro b r u ⟨hs', hQ⟩
    exact ⟨hs.append hs', hQ⟩
  · rintro e r u ⟨hE, past, beat, rest, rfl, hs', hr⟩
    exact ⟨hE, as ++ past, beat, rest, by simp, hs.append hs', hr⟩

theorem bind (hx : Paced x p as P E) (hf : ∀ a q, P a q → Paced (f a) q bs Q E) :
    Paced (x >>= f) p (as ++ bs) Q E := by
  refine Action.Triple.bind hx ?_ ?_
  · rintro a q t ⟨hs, hP⟩
    exact (hf a q hP).after hs
  · rintro e r t ⟨hE, past, beat, rest, rfl, hs, hr⟩
    exact ⟨hE, past, beat, rest ++ bs, by simp, hs, hr⟩

theorem of_run {a : α} {t : List Event} (h : x.run p = ⟨.ok a, q, t⟩) (hc : q.cycles = p.cycles)
    (ht : Event.accesses t = []) (hP : P a q) : Paced x p [] P E :=
  Action.Triple.of_run h ⟨.none hc ht, hP⟩

theorem bind_of_run {a : α} {t : List Event} (h : x.run p = ⟨.ok a, q, t⟩)
    (hc : q.cycles = p.cycles) (ht : Event.accesses t = []) (hf : Paced (f a) q bs Q E) :
    Paced (x >>= f) p bs Q E := by
  refine bind (P := fun b r => b = a ∧ r = q) (of_run h hc ht ⟨rfl, rfl⟩) ?_
  rintro _ _ ⟨rfl, rfl⟩
  exact hf

theorem bind_silent (hx : Paced x p as P E) (hf : ∀ a q, P a q → Paced (f a) q [] Q E) :
    Paced (x >>= f) p as Q E := by
  simpa using bind hx hf

theorem pure {a : α} (hP : P a p) : Paced (Pure.pure a : Action (Processor β) α) p [] P E :=
  of_run rfl rfl rfl hP

theorem updating {g : Registers → Registers} {P : Unit → Processor β → Prop}
    (hP : P () (p.setRegisters g)) : Paced (updating g) p [] P E :=
  of_run rfl rfl rfl hP

theorem bind_updating {g : Registers → Registers} {f : Unit → Action (Processor β) γ}
    (hf : Paced (f ()) (p.setRegisters g) bs Q E) :
    Paced (Processor.updating g >>= f) p bs Q E :=
  bind_of_run rfl rfl rfl hf

theorem bind_reading {g : Registers → α} (hf : Paced (f (g p.registers)) p bs Q E) :
    Paced (reading g >>= f) p bs Q E :=
  bind_of_run rfl rfl rfl hf

-- ---------------------------------------------------------------------------
-- Beats
-- ---------------------------------------------------------------------------

theorem elapsing {n : Nat} {P : Unit → Processor β → Prop} (hP : P () (p.elapse n)) :
    Paced (elapsing n) p (Beat.waits n) P E :=
  Action.Triple.of_run rfl ⟨⟨by rw [Beat.length_waits]; rfl, by simp⟩, hP⟩

theorem read {address : UInt16} {P : UInt8 → Processor β → Prop}
    (hP : ∀ v, Bus.read? p.bus address = some v → P v (p.elapse 1)) (hE : E p) :
    Paced (read address) p [.read address] P E := by
  cases h : Bus.read? p.bus address with
  | none =>
    obtain ⟨t, hrun, ht⟩ := read_run_none h
    exact Action.Triple.of_run_error hrun ⟨hE, [], .read address, [], rfl, .none rfl ht, h, rfl⟩
  | some v =>
    obtain ⟨t, hrun, ht⟩ := read_run h
    exact Action.Triple.of_run hrun ⟨⟨rfl, by rw [ht]; rfl⟩, hP v h⟩

theorem write {address : UInt16} {v : UInt8} {P : Unit → Processor β → Prop}
    (hP : P () { p.elapse 1 with bus := Bus.store p.bus address v }) (hE : E p) :
    Paced (write address v) p [.write address] P E := by
  cases h : Bus.writable p.bus address v with
  | false =>
    obtain ⟨t, hrun, ht⟩ := write_run_false h
    exact Action.Triple.of_run_error hrun
      ⟨hE, [], .write address, [], rfl, .none rfl ht, ⟨v, h⟩, rfl⟩
  | true =>
    obtain ⟨t, hrun, ht⟩ := write_run h
    exact Action.Triple.of_run hrun ⟨⟨rfl, by rw [ht]; rfl⟩, hP⟩

theorem bind_read {address : UInt16} {f : UInt8 → Action (Processor β) γ}
    (hf : ∀ v, Bus.read? p.bus address = some v → Paced (f v) (p.elapse 1) bs Q E) (hE : E p) :
    Paced (Processor.read address >>= f) p (.read address :: bs) Q E := by
  refine bind (P := fun v q => Bus.read? p.bus address = some v ∧ q = p.elapse 1)
    (read (fun v h => ⟨h, rfl⟩) hE) ?_
  rintro v _ ⟨h, rfl⟩
  exact hf v h

theorem bind_write {address : UInt16} {v : UInt8} {f : Unit → Action (Processor β) γ}
    (hf : Paced (f ()) { p.elapse 1 with bus := Bus.store p.bus address v } bs Q E) (hE : E p) :
    Paced (Processor.write address v >>= f) p (.write address :: bs) Q E := by
  refine bind (P := fun _ q => q = { p.elapse 1 with bus := Bus.store p.bus address v })
    (write rfl hE) ?_
  rintro _ _ rfl
  exact hf

theorem bind_elapsing {n : Nat} {f : Unit → Action (Processor β) γ}
    (hf : Paced (f ()) (p.elapse n) bs Q E) :
    Paced (Processor.elapsing n >>= f) p (Beat.waits n ++ bs) Q E := by
  refine bind (P := fun _ q => q = p.elapse n) (elapsing rfl) ?_
  rintro _ _ rfl
  exact hf

end Paced

-- ---------------------------------------------------------------------------
-- Traffic
-- ---------------------------------------------------------------------------

theorem push_paced (w : UInt16) (p : Processor β) :
    Paced (push w) p (Beat.push p.registers) (fun _ _ => True) (Stalled p) :=
  .bind_reading <| .bind_write (.bind_write (.updating trivial) ⟨_, _, rfl⟩) (.refl p)

theorem pop_paced (p : Processor β) :
    Paced pop p (Beat.pop p.registers) (fun _ _ => True) (Stalled p) :=
  .bind_reading <| .bind_read (fun _ _ => .bind_read (fun _ _ =>
    .bind_updating (.pure trivial)) ⟨_, _, rfl⟩) (.refl p)

theorem readOperand_paced (o : Operand) (p : Processor β) :
    Paced (readOperand o) p (o.beats .read p.registers)
      (fun _ q => q.registers = p.registers ∧ Stalled p q) (Stalled p) := by
  cases o with
  | register r => exact .of_run rfl rfl rfl ⟨rfl, .refl p⟩
  | memory => exact .bind_reading <| .read (fun _ _ => ⟨rfl, _, _, rfl⟩) (.refl p)

theorem writeOperand_paced (o : Operand) (v : UInt8) (p : Processor β) :
    Paced (writeOperand o v) p (o.beats .write p.registers) (fun _ _ => True) (Stalled p) := by
  cases o with
  | register r => exact .updating trivial
  | memory => exact .bind_reading <| .write trivial (.refl p)

omit [Bus β] in
theorem pointerAddress_run (a : Pointer) (p : Processor β) :
    (pointerAddress a).run p = ⟨.ok (a.address p.registers), p.setRegisters a.move, []⟩ := by
  unfold setRegisters Pointer.address Pointer.move
  cases a <;> rfl

theorem storeAccumulator_paced (address : UInt16) (p : Processor β) :
    Paced (storeAccumulator address) p [.write address] (fun _ _ => True) (Stalled p) :=
  .bind_reading <| .write trivial (.refl p)

theorem loadAccumulator_paced (address : UInt16) (p : Processor β) :
    Paced (loadAccumulator address) p [.read address] (fun _ _ => True) (Stalled p) :=
  .bind_read (fun _ _ => .updating trivial) (.refl p)

-- ---------------------------------------------------------------------------
-- Operations
-- ---------------------------------------------------------------------------

theorem bind_readOperand_paced {f : UInt8 → Action (Processor β) α} {o : Operand}
    {p : Processor β} {bs : List Beat}
    (hf : ∀ v q, q.registers = p.registers → Paced (f v) q bs (fun _ _ => True) (Stalled q)) :
    Paced (readOperand o >>= f) p (o.beats .read p.registers ++ bs) (fun _ _ => True)
      (Stalled p) := by
  refine .bind (readOperand_paced o p) ?_
  rintro v q ⟨hr, hs⟩
  exact (hf v q hr).mono (fun _ _ h => h) fun _ h => hs.trans h

theorem revise_paced (o : Operand) (f : UInt8 → Flags → UInt8 × Flags) (p : Processor β) :
    Paced (revise o f) p (o.beats .read p.registers ++ o.beats .write p.registers)
      (fun _ _ => True) (Stalled p) := by
  refine bind_readOperand_paced fun v q hr => .bind_reading ?_
  rw [← hr]
  exact .bind_silent (writeOperand_paced o _ q) fun _ _ _ => .updating trivial

theorem whenMet_paced {c : Option Condition} {x : Action (Processor β) Unit} {p : Processor β}
    {bs : List Beat} (hx : Paced x p bs (fun _ _ => True) (Stalled p)) :
    Paced (whenMet c x) p (if Condition.met p.registers.flags c then bs else [])
      (fun _ _ => True) (Stalled p) := by
  refine .bind_reading ?_
  split
  · exact hx
  · exact .pure trivial

theorem callTo_paced (target : UInt16) (p : Processor β) :
    Paced (callTo target) p (Beat.push p.registers) (fun _ _ => True) (Stalled p) :=
  .bind_reading <| .bind_silent (push_paced _ p) fun _ _ _ => .updating trivial

theorem returnFromCall_paced (p : Processor β) :
    Paced returnFromCall p (Beat.pop p.registers ++ [.wait]) (fun _ _ => True) (Stalled p) :=
  .bind (pop_paced p) fun _ _ _ => .bind_elapsing (n := 1) <| .updating trivial

/-- An operation that can be executed goes through its beats. If the bus refuses
one of them, nothing was done but the accesses before it and the move of a
pointer. -/
theorem execute_paced (d : Decoded) (p : Processor β) (hu : d.operation ≠ .unimplemented)
    (hx : d.operation ≠ .extend) :
    Paced (execute d) p (d.operation.beats d.literal p.registers) (fun _ _ => True)
      (Stalled (p.setRegisters d.operation.aim)) := by
  obtain ⟨address, prefixed, opcode, operation, literal⟩ := d
  -- pointers apart, no operation changes a register before its last access
  cases operation with
  | unimplemented => exact absurd rfl hu
  | extend => exact absurd rfl hx
  | nop => exact .pure trivial
  | load target source =>
    refine bind_readOperand_paced fun v q hr => ?_
    rw [← hr]
    exact writeOperand_paced target v q
  | loadLiteral target => exact writeOperand_paced target _ p
  | storeThrough a =>
    exact .bind_of_run (pointerAddress_run a p) rfl rfl (storeAccumulator_paced _ _)
  | loadThrough a =>
    exact .bind_of_run (pointerAddress_run a p) rfl rfl (loadAccumulator_paced _ _)
  | storeAt | storeLastPage => exact storeAccumulator_paced _ p
  | loadFrom | loadLastPage => exact loadAccumulator_paced _ p
  | storeLastPageC => exact .bind_reading <| storeAccumulator_paced _ p
  | loadLastPageC => exact .bind_reading <| loadAccumulator_paced _ p
  | storeStackPointer =>
    exact .bind_reading <| .bind_write (.write trivial ⟨_, _, rfl⟩) (.refl p)
  | push a => exact .bind_reading <| push_paced _ p
  | pop a => exact .bind_silent (pop_paced p) fun _ _ _ => .updating trivial
  | alu op source | bit i source =>
    exact .bind_silent (readOperand_paced source p) fun _ _ _ => .updating trivial
  | increment target | decrement target | shift op target => exact revise_paced target _ p
  | jump c | jumpRelative c =>
    refine whenMet_paced (p := p) ?_
    exact .bind_elapsing (n := 1) <| .updating trivial
  | call c =>
    exact whenMet_paced (.bind_elapsing (n := 1) (callTo_paced _ _))
  | ret c => exact whenMet_paced (returnFromCall_paced p)
  | retEnable =>
    exact .bind_silent (returnFromCall_paced p) fun _ _ _ => .of_run rfl rfl rfl trivial
  | restart vector => exact callTo_paced _ p
  | disableInterrupts | enableInterrupts => exact .of_run rfl rfl rfl trivial
  | reset i target | set i target =>
    refine bind_readOperand_paced fun v q hr => ?_
    rw [← hr]
    exact writeOperand_paced target _ q
  | _ => exact .updating trivial

end
end Processor
end Handheld
