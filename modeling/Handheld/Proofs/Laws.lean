import Handheld.Proofs.Actions
import Handheld.Proofs.Alike

/-!
# Laws of instructions

A law is a relation between the state before, the accesses on the way and the
state after. If everything that an instruction is made of keeps a law, then so
does every instruction and every step, whether it succeeds or faults.
-/

namespace Handheld

structure Bus.Law {β : Type} [Bus β] (R : β → List Access → β → Prop) : Prop extends
    Action.Chain R where
  reads {b : β} {address : UInt16} :
    (Bus.read? b address).isSome = true → R b [.read address] b
  writes {b : β} {address : UInt16} {v : UInt8} :
    Bus.writable b address v = true → R b [.write address v] (Bus.store b address v)

namespace Processor

variable {α β : Type} [Bus β]

-- ---------------------------------------------------------------------------
-- Runs
-- ---------------------------------------------------------------------------

section
variable {p : Processor β} {address : UInt16} {v : UInt8}

theorem busRead_run (h : Bus.read? p.bus address = some v) :
    ∃ t, (onBus (Bus.read address)).run p = ⟨.ok v, p, t⟩ ∧
      Event.accesses t = [.read address] :=
  ⟨Bus.said p.bus (.read address) ++ [.access (.read address)],
    by simp [Action.run, onBus, Bus.read, h], by simp [Bus.said]⟩

theorem busRead_run_none (h : Bus.read? p.bus address = none) :
    ∃ t, (onBus (Bus.read address)).run p = ⟨.error (.unmapped address .read), p, t⟩ ∧
      Event.accesses t = [] :=
  ⟨Bus.said p.bus (.read address), by simp [Action.run, onBus, Bus.read, h], by simp [Bus.said]⟩

theorem busWrite_run (h : Bus.writable p.bus address v = true) :
    ∃ t, (onBus (Bus.write address v)).run p =
        ⟨.ok (), { p with bus := Bus.store p.bus address v }, t⟩ ∧
      Event.accesses t = [.write address v] :=
  ⟨Bus.said p.bus (.write address v) ++ [.access (.write address v)],
    by simp [Action.run, onBus, Bus.write, h], by simp [Bus.said]⟩

theorem busWrite_run_false (h : Bus.writable p.bus address v = false) :
    ∃ t, (onBus (Bus.write address v)).run p = ⟨.error (.unmapped address .write), p, t⟩ ∧
      Event.accesses t = [] :=
  ⟨Bus.said p.bus (.write address v), by simp [Action.run, onBus, Bus.write, h],
    by simp [Bus.said]⟩

end

omit [Bus β] in
theorem enter_run (d : Decoded) (p : Processor β) :
    ∃ t, (enter d).run p = ⟨.ok (), { p with trace := p.trace.push (traceEntry d) }, t⟩ ∧
      Event.accesses t = [] := by
  obtain ⟨registers, bus, ime, pending, cycles, instructions, trace, debugging⟩ := p
  cases debugging with
  | false => exact ⟨_, rfl, rfl⟩
  | true => exact ⟨_, rfl, rfl⟩

omit [Bus β] in
theorem rejected_run (pc : UInt16) (cycles : Cycles) (e : Fault) (p : Processor β) :
    ∃ t, (rejected pc cycles e).run p =
      ⟨.error e, if e.isOpcode then p.rewind pc cycles else p, t⟩ ∧ Event.accesses t = [] := by
  cases e with
  | unmapped address direction => exact ⟨_, rfl, rfl⟩
  | unimplemented opcode address => exact ⟨_, rfl, rfl⟩
  | unimplementedExtended leading opcode address => exact ⟨_, rfl, rfl⟩

-- ---------------------------------------------------------------------------
-- Laws
-- ---------------------------------------------------------------------------

/-- A relation that everything within the execution of an instruction keeps. -/
structure Law (R : Processor β → List Access → Processor β → Prop) : Prop extends
    Action.Chain R where
  reads {p : Processor β} {address : UInt16} :
    (Bus.read? p.bus address).isSome = true → R p [.read address] p
  writes {p : Processor β} {address : UInt16} {v : UInt8} :
    Bus.writable p.bus address v = true →
      R p [.write address v] { p with bus := Bus.store p.bus address v }
  elapses (p : Processor β) (n : Nat) : R p [] (p.elapse n)
  updates (p : Processor β) (f : Registers → Registers) : R p [] (p.setRegisters f)
  switches (p : Processor β) (on : Bool) : R p [] { p with ime := on }
  schedules (p : Processor β) (t : Toggle) : R p [] (p.schedule t)

/-- A relation that everything around the execution of an instruction keeps, too. -/
structure StepLaw (R : Processor β → List Access → Processor β → Prop) : Prop extends Law R where
  settles (p : Processor β) : R p [] p.settle
  records (p : Processor β) (e : TraceEntry) : R p [] { p with trace := p.trace.push e }
  finishes (p : Processor β) : R p [] { p with instructions := p.instructions + 1 }
  rewinds {p q : Processor β} {as : List Access} :
    R p as q → R p as (q.rewind p.registers.pc p.cycles)

/-- Actions that are made of the parts of instructions keep every law of these parts. -/
theorem Law.obeys {R : Processor β → List Access → Processor β → Prop} (hR : Law R)
    {x y : Action (Processor β) α} (h : Alike x y) : x.Obeys R := by
  induction h with
  | pure a => exact .pure hR.toChain a
  | fault e => exact .fault hR.toChain e
  | bind _ _ hx hf => exact .bind hR.toChain hx hf
  | reading f => exact .gets hR.toChain _
  | updating f => exact fun p => hR.updates p f
  | elapsing n => exact fun p => hR.elapses p n
  | switching on => exact fun p => hR.switches p on
  | scheduling t => exact fun p => hR.schedules p t
  | busRead address =>
    intro p
    cases h : Bus.read? p.bus address with
    | none =>
      obtain ⟨t, hrun, ht⟩ := busRead_run_none h
      rw [hrun, Outcome.accesses, ht]
      exact hR.refl p
    | some v =>
      obtain ⟨t, hrun, ht⟩ := busRead_run h
      rw [hrun, Outcome.accesses, ht]
      exact hR.reads (by rw [h, Option.isSome_some])
  | busWrite address v =>
    intro p
    cases h : Bus.writable p.bus address v with
    | false =>
      obtain ⟨t, hrun, ht⟩ := busWrite_run_false h
      rw [hrun, Outcome.accesses, ht]
      exact hR.refl p
    | true =>
      obtain ⟨t, hrun, ht⟩ := busWrite_run h
      rw [hrun, Outcome.accesses, ht]
      exact hR.writes h

namespace StepLaw

variable {R : Processor β → List Access → Processor β → Prop} (hR : StepLaw R)

include hR

theorem enter (d : Decoded) : (enter d).Obeys R := by
  intro p
  obtain ⟨t, hrun, ht⟩ := enter_run d p
  rw [hrun]
  simpa [Outcome.accesses, ht] using hR.records p (traceEntry d)

theorem rejected {p q : Processor β} {t : List Event} (h : R p (Event.accesses t) q) (e : Fault) :
    R p (Event.accesses (t ++ ((rejected p.registers.pc p.cycles e).run q).trail))
      ((Processor.rejected p.registers.pc p.cycles e).run q).state := by
  obtain ⟨u, hrun, hu⟩ := rejected_run p.registers.pc p.cycles e q
  rw [hrun, Event.accesses_append, hu, List.append_nil]
  dsimp only
  split
  · exact hR.rewinds h
  · exact h

theorem step : step.Obeys R := by
  intro p
  rw [Processor.step, Action.run_bind_modify, Action.run_bind_gets]
  refine hR.trans (hR.settles p) ?_
  have hdecode := hR.obeys .decode p.settle
  rcases h : Processor.decode.run p.settle with ⟨e | d, q, t⟩
  · rw [h] at hdecode
    rw [Action.run_bind_ok (Action.run_attempt h)]
    exact hR.rejected hdecode e
  · rw [h] at hdecode
    rw [Action.run_bind_ok (Action.run_attempt h)]
    have hrest : Action.Obeys R (do
        Processor.enter d
        Processor.elapsing d.operation.delay
        Processor.execute d
        Action.modify fun p => { p with instructions := p.instructions + 1 }) :=
      .bind hR.toChain (hR.enter d) fun _ => .bind hR.toChain (hR.obeys (.elapsing _)) fun _ =>
        .bind hR.toChain (hR.obeys (.execute d)) fun _ p => hR.finishes p
    have hq := hR.trans hdecode (hrest q)
    simp only [Outcome.accesses, ← Event.accesses_append] at hq
    exact hq

end StepLaw

theorem busLaw {R : β → List Access → β → Prop} (hR : Bus.Law R) :
    StepLaw fun (p : Processor β) as q => R p.bus as q.bus where
  refl p := hR.refl p.bus
  trans h h' := hR.trans h h'
  reads h := hR.reads h
  writes h := hR.writes h
  elapses p _ := hR.refl p.bus
  updates p _ := hR.refl p.bus
  switches p _ := hR.refl p.bus
  schedules p _ := hR.refl p.bus
  settles p := by simpa using hR.refl p.bus
  records p _ := hR.refl p.bus
  finishes p := hR.refl p.bus
  rewinds h := h

end Processor

end Handheld
