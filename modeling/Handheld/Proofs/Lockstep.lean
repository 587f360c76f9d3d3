import Handheld.Proofs.Laws
import Handheld.Proofs.Repeating

/-!
# Two runs side by side

Two actions run in lockstep if from related states they have the same result, make
the same accesses and leave related states. That may be asked only of runs whose
accesses are all of a certain kind. A relation of two processors that the parts of
an instruction keep is kept by steps, and so by any number of them.
-/

namespace Handheld

-- ---------------------------------------------------------------------------
-- Actions
-- ---------------------------------------------------------------------------

structure Outcome.Matches {σ τ α : Type} (S : σ → τ → Prop) (o : Outcome σ α) (o' : Outcome τ α) :
    Prop where
  result : o.result = o'.result
  accesses : o.accesses = o'.accesses
  state : S o.state o'.state

namespace Action

variable {σ τ α δ : Type} {S : σ → τ → Prop} {ok : Access → Prop}

/-- From related states the two actions do the same, as long as all accesses of the
second one are acceptable. -/
def Lockstep (S : σ → τ → Prop) (ok : Access → Prop) (x : Action σ α) (y : Action τ α) : Prop :=
  ∀ s t, S s t → (∀ a ∈ (y.run t).accesses, ok a) → (x.run s).Matches S (y.run t)

section
variable {x : Action σ α} {y : Action τ α} {f : α → Action σ δ} {g : α → Action τ δ}

theorem mem_accesses_bind {t : τ} {a : Access} (h : a ∈ (y.run t).accesses) :
    a ∈ ((y >>= g).run t).accesses := by
  rcases hy : y.run t with ⟨e | v, t', u⟩
  · rw [hy] at h
    rw [run_bind_error hy]
    exact h
  · rw [hy] at h
    rw [run_bind_ok hy, Outcome.accesses, Event.accesses_append]
    exact List.mem_append_left _ h

theorem Lockstep.bind (hxy : Lockstep S ok x y) (hfg : ∀ a, Lockstep S ok (f a) (g a)) :
    Lockstep S ok (x >>= f) (y >>= g) := by
  intro s t hs hok
  obtain ⟨hr, ha, hS⟩ := hxy s t hs fun a h => hok a (mem_accesses_bind h)
  rcases hx : x.run s with ⟨r, s', u⟩
  rcases hy : y.run t with ⟨r', t', u'⟩
  rw [hx, hy] at hr ha hS
  obtain rfl : r = r' := hr
  cases r with
  | error e =>
    rw [run_bind_error hx, run_bind_error hy]
    exact ⟨rfl, ha, hS⟩
  | ok v =>
    rw [run_bind_ok hy, Outcome.accesses, Event.accesses_append] at hok
    obtain ⟨hr', ha', hS'⟩ := hfg v s' t' hS fun a h => hok a (List.mem_append_right _ h)
    rw [run_bind_ok hx, run_bind_ok hy]
    refine ⟨hr', ?_, hS'⟩
    simp only [Outcome.accesses, Event.accesses_append] at ha ha' ⊢
    rw [ha, ha']

theorem Lockstep.attempt (hxy : Lockstep S ok x y) : Lockstep S ok x.attempt y.attempt := by
  intro s t hs hok
  rcases hx : x.run s with ⟨r, s', u⟩
  rcases hy : y.run t with ⟨r', t', u'⟩
  rw [run_attempt hy] at hok
  have hm := hxy s t hs (by rwa [hy])
  rw [hx, hy] at hm
  rw [run_attempt hx, run_attempt hy]
  exact ⟨congrArg Except.ok hm.result, hm.accesses, hm.state⟩

theorem Lockstep.after (hxy : Lockstep S ok x y) (n : Nat) {s : σ} {t : τ} (hs : S s t)
    (hok : ∀ a ∈ y.traffic n t, ok a) :
    (∀ k < n, (x.run (x.after k s)).result = (y.run (y.after k t)).result) ∧
      x.traffic n s = y.traffic n t ∧ S (x.after n s) (y.after n t) := by
  induction n with
  | zero => exact ⟨nofun, rfl, hs⟩
  | succ n ih =>
    rw [traffic_succ] at hok
    obtain ⟨hr, ht, hS⟩ := ih fun a h => hok a (List.mem_append_left _ h)
    have hm := hxy _ _ hS fun a h => hok a (List.mem_append_right _ h)
    refine ⟨?_, ?_, ?_⟩
    · intro k hk
      rcases Nat.lt_succ_iff_lt_or_eq.mp hk with hlt | rfl
      · exact hr k hlt
      · exact hm.result
    · rw [traffic_succ, traffic_succ, ht, hm.accesses]
    · rw [after_succ, after_succ]
      exact hm.state

theorem Lockstep.gets {f : σ → α} {g : τ → α} (h : ∀ s t, S s t → f s = g t) :
    Lockstep S ok (Action.gets f) (Action.gets g) :=
  fun s t hs _ => ⟨congrArg Except.ok (h s t hs), rfl, hs⟩

theorem Lockstep.pure (a : α) : Lockstep S ok (Pure.pure a : Action σ α) (Pure.pure a) :=
  fun _ _ hs _ => ⟨rfl, rfl, hs⟩

theorem Lockstep.fault (e : Fault) : Lockstep S ok (Action.fault e : Action σ α) (.fault e) :=
  fun _ _ hs _ => ⟨rfl, rfl, hs⟩

theorem Lockstep.modify {f : σ → σ} {g : τ → τ} (h : ∀ s t, S s t → S (f s) (g t)) :
    Lockstep S ok (Action.modify f) (Action.modify g) :=
  fun s t hs _ => ⟨rfl, rfl, h s t hs⟩

end

section
variable {x : Action σ UInt64} {y : Action τ UInt64} {goOn : UInt64 → Bool}

theorem Lockstep.accumulateFrom (hxy : Lockstep S (fun _ => True) x y) (n : Nat)
    {total : UInt64} {u u' : List Event} (hu : Event.accesses u.reverse = Event.accesses u'.reverse)
    {s : σ} {t : τ} (hs : S s t) :
    ((Action.accumulateFrom x goOn n total u).run s).Matches S
      ((Action.accumulateFrom y goOn n total u').run t) := by
  -- the two trails may differ in their remarks, so each loop carries its own
  induction n generalizing total u u' s t with
  | zero => exact ⟨rfl, hu, hs⟩
  | succ n ih =>
    by_cases hgo : goOn total = true
    · obtain ⟨hr, ha, hS⟩ := hxy s t hs fun _ _ => trivial
      rcases hx : x.run s with ⟨r, s', v⟩
      rcases hy : y.run t with ⟨r', t', v'⟩
      rw [hx, hy] at hr ha hS
      obtain rfl : r = r' := hr
      have hv : Event.accesses (v.reverseAux u).reverse =
          Event.accesses (v'.reverseAux u').reverse := by
        have ha : Event.accesses v = Event.accesses v' := ha
        simpa [List.reverseAux_eq, hu] using ha
      cases r with
      | ok a =>
        rw [accumulateFrom_run_ok hgo hx, accumulateFrom_run_ok hgo hy]
        exact ih hv hS
      | error e =>
        rw [accumulateFrom_run_error hgo hx, accumulateFrom_run_error hgo hy]
        exact ⟨rfl, hv, hS⟩
    · rw [accumulateFrom_run_stop hgo, accumulateFrom_run_stop hgo]
      exact ⟨rfl, hu, hs⟩

theorem Lockstep.accumulate (hxy : Lockstep S (fun _ => True) x y) (goOn : UInt64 → Bool)
    (limit : Nat) :
    Lockstep S (fun _ => True) (Action.accumulate x goOn limit) (Action.accumulate y goOn limit) :=
  fun _ _ hs _ => hxy.accumulateFrom limit rfl hs

end

end Action

-- ---------------------------------------------------------------------------
-- Processors
-- ---------------------------------------------------------------------------

namespace Processor

variable {α β γ : Type} [Bus β] [Bus γ]

/-- A relation of two processors that everything within the execution of an
instruction keeps, as long as the accesses of the second one are acceptable. -/
structure PairLaw (S : Processor β → Processor γ → Prop) (ok : Access → Prop) : Prop where
  registers {p : Processor β} {q : Processor γ} : S p q → p.registers = q.registers
  reads {p : Processor β} {q : Processor γ} (address : UInt16) :
    S p q → ((Bus.read? q.bus address).isSome = true → ok (.read address)) →
      Bus.read? p.bus address = Bus.read? q.bus address
  accepts {p : Processor β} {q : Processor γ} (address : UInt16) (v : UInt8) :
    S p q → (Bus.writable q.bus address v = true → ok (.write address v)) →
      Bus.writable p.bus address v = Bus.writable q.bus address v
  stores {p : Processor β} {q : Processor γ} (address : UInt16) (v : UInt8) :
    S p q → Bus.writable q.bus address v = true → ok (.write address v) →
      S { p with bus := Bus.store p.bus address v } { q with bus := Bus.store q.bus address v }
  elapses {p : Processor β} {q : Processor γ} (n : Nat) : S p q → S (p.elapse n) (q.elapse n)
  updates {p : Processor β} {q : Processor γ} (f : Registers → Registers) :
    S p q → S (p.setRegisters f) (q.setRegisters f)
  switches {p : Processor β} {q : Processor γ} (on : Bool) :
    S p q → S { p with ime := on } { q with ime := on }
  schedules {p : Processor β} {q : Processor γ} (t : Toggle) :
    S p q → S (p.schedule t) (q.schedule t)

/-- A relation of two processors that everything around the execution of an
instruction keeps, too. -/
structure StepPairLaw (S : Processor β → Processor γ → Prop) (ok : Access → Prop) : Prop extends
    PairLaw S ok where
  settles {p : Processor β} {q : Processor γ} : S p q → S p.settle q.settle
  records {p : Processor β} {q : Processor γ} (e : TraceEntry) :
    S p q → S { p with trace := p.trace.push e } { q with trace := q.trace.push e }
  finishes {p : Processor β} {q : Processor γ} :
    S p q → S { p with instructions := p.instructions + 1 }
      { q with instructions := q.instructions + 1 }
  rewinds {p₀ p : Processor β} {q₀ q : Processor γ} : S p₀ q₀ → S p q →
    S (p.rewind p₀.registers.pc p₀.cycles) (q.rewind q₀.registers.pc q₀.cycles)

variable {S : Processor β → Processor γ → Prop} {ok : Access → Prop}

theorem PairLaw.lockstep (hS : PairLaw S ok) {x : Action (Processor β) α}
    {y : Action (Processor γ) α} (h : Alike x y) : Action.Lockstep S ok x y := by
  induction h with
  | pure a | fault e => exact fun p q hpq _ => ⟨rfl, rfl, hpq⟩
  | bind _ _ hx hf => exact hx.bind hf
  | reading f =>
    exact fun p q hpq _ => ⟨congrArg (Except.ok <| f ·) (hS.registers hpq), rfl, hpq⟩
  | updating f => exact fun p q hpq _ => ⟨rfl, rfl, hS.updates f hpq⟩
  | elapsing n => exact fun p q hpq _ => ⟨rfl, rfl, hS.elapses n hpq⟩
  | switching on => exact fun p q hpq _ => ⟨rfl, rfl, hS.switches on hpq⟩
  | scheduling t => exact fun p q hpq _ => ⟨rfl, rfl, hS.schedules t hpq⟩
  | busRead address =>
    intro p q hpq hok
    cases h : Bus.read? q.bus address with
    | none =>
      have hp := hS.reads address hpq (by simp [h])
      obtain ⟨t, hrun, ht⟩ := busRead_run_none (hp.trans h)
      obtain ⟨u, hrun', hu⟩ := busRead_run_none h
      rw [hrun, hrun']
      exact ⟨rfl, ht.trans hu.symm, hpq⟩
    | some v =>
      obtain ⟨u, hrun', hu⟩ := busRead_run h
      rw [hrun', Outcome.accesses, hu] at hok
      have hp := hS.reads address hpq fun _ => hok _ (List.mem_singleton_self _)
      obtain ⟨t, hrun, ht⟩ := busRead_run (hp.trans h)
      rw [hrun, hrun']
      exact ⟨rfl, ht.trans hu.symm, hpq⟩
  | busWrite address v =>
    intro p q hpq hok
    cases h : Bus.writable q.bus address v with
    | false =>
      have hp := hS.accepts address v hpq (by simp [h])
      obtain ⟨t, hrun, ht⟩ := busWrite_run_false (hp.trans h)
      obtain ⟨u, hrun', hu⟩ := busWrite_run_false h
      rw [hrun, hrun']
      exact ⟨rfl, ht.trans hu.symm, hpq⟩
    | true =>
      obtain ⟨u, hrun', hu⟩ := busWrite_run h
      rw [hrun', Outcome.accesses, hu] at hok
      have ha : ok (.write address v) := hok _ (List.mem_singleton_self _)
      obtain ⟨t, hrun, ht⟩ := busWrite_run ((hS.accepts address v hpq fun _ => ha).trans h)
      rw [hrun, hrun']
      exact ⟨rfl, ht.trans hu.symm, hS.stores address v hpq h ha⟩

namespace StepPairLaw

variable (hS : StepPairLaw S ok)

include hS

theorem enter (d : Decoded) : Action.Lockstep S ok (enter d) (enter d) := by
  intro p q hpq _
  obtain ⟨t, hp, ht⟩ := enter_run d p
  obtain ⟨u, hq, hu⟩ := enter_run d q
  rw [hp, hq]
  exact ⟨rfl, ht.trans hu.symm, hS.records _ hpq⟩

theorem rejected {p₀ : Processor β} {q₀ : Processor γ} (h₀ : S p₀ q₀) (e : Fault) :
    Action.Lockstep S ok (rejected p₀.registers.pc p₀.cycles e)
      (rejected q₀.registers.pc q₀.cycles e) := by
  intro p q hpq _
  obtain ⟨t, hp, ht⟩ := rejected_run p₀.registers.pc p₀.cycles e p
  obtain ⟨u, hq, hu⟩ := rejected_run q₀.registers.pc q₀.cycles e q
  rw [hp, hq]
  refine ⟨rfl, ht.trans hu.symm, ?_⟩
  dsimp only
  split
  · exact hS.rewinds h₀ hpq
  · exact hpq

theorem step : Action.Lockstep S ok (step : Action (Processor β) Unit)
    (Processor.step : Action (Processor γ) Unit) := by
  intro p q hpq hok
  have h₀ : S p.settle q.settle := hS.settles hpq
  rw [Processor.step, Action.run_bind_modify, Action.run_bind_gets] at hok ⊢
  rw [Processor.step, Action.run_bind_modify, Action.run_bind_gets]
  refine Action.Lockstep.bind (hS.lockstep .decode).attempt (fun r => ?_) _ _ h₀ hok
  cases r with
  | error e => exact hS.rejected h₀ e
  | ok d =>
    exact (hS.enter d).bind fun _ => (hS.lockstep (.elapsing _)).bind fun _ =>
      (hS.lockstep (.execute d)).bind fun _ _ _ h _ => ⟨rfl, rfl, hS.finishes h⟩

end StepPairLaw

end Processor

end Handheld
