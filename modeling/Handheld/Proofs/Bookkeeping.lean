import Handheld.Proofs.Commands
import Handheld.Proofs.Effects
import Handheld.Proofs.Lockstep

/-!
# Bookkeeping does not influence execution

The interrupt switch, the counters, the trace, debugging and the viewport are
written as a console runs, and never looked at. Two consoles that differ in
nothing else do the same for any number of steps, and their counters go on by
the same amounts.
-/

namespace Handheld

theorem Cycles.add_congr {c : Cycles} {m n : Nat} (h : c.add m = c.add n) (d : Cycles) :
    d.add m = d.add n := by
  rw [add, add, ofNat_congr h]

theorem Cycles.elapsed_add (c : Cycles) (n : Nat) : (c.add n).t - c.t = UInt64.ofNat n * 4 := by
  show c.t + UInt64.ofNat n * 4 - c.t = _
  rw [UInt64.add_comm, UInt64.add_sub_cancel]

namespace Processor

variable {β : Type}

/-- From `p₀` and `q₀` on, `p` and `q` have gone the same way: they have the same
registers and the same bus, and as many cycles have passed. -/
structure Abreast (p₀ q₀ p q : Processor β) : Prop where
  registers : p.registers = q.registers
  bus : p.bus = q.bus
  cycles : ∃ m, p.cycles = p₀.cycles.add m ∧ q.cycles = q₀.cycles.add m

namespace Abreast

variable {p₀ q₀ p q : Processor β}

theorem of_eq (hr : p.registers = q.registers) (hb : p.bus = q.bus) : Abreast p q p q :=
  ⟨hr, hb, 0, (Cycles.add_zero _).symm, (Cycles.add_zero _).symm⟩

theorem settle (h : Abreast p₀ q₀ p q) : Abreast p₀ q₀ p.settle q.settle where
  registers := by simpa using h.registers
  bus := by simpa using h.bus
  cycles := by simpa using h.cycles

variable [Bus β]

theorem law (p₀ q₀ : Processor β) : StepPairLaw (Abreast p₀ q₀) fun _ => True where
  registers h := h.registers
  reads address h _ := congrArg (Bus.read? · address) h.bus
  accepts address v h _ := congrArg (Bus.writable · address v) h.bus
  stores address v h _ _ := { h with bus := congrArg (Bus.store · address v) h.bus }
  elapses n h := by
    obtain ⟨m, hp, hq⟩ := h.cycles
    refine { h with cycles := ⟨m + n, ?_, ?_⟩ }
    · rw [elapse, hp, Cycles.add_add]
    · rw [elapse, hq, Cycles.add_add]
  updates f h := { h with registers := congrArg f h.registers }
  switches on h := { h with }
  schedules t h := { h with }
  settles h := h.settle
  records e h := { h with }
  finishes h := { h with }
  rewinds {p₁ p q₁ q} h₁ h := by
    refine { h with registers := ?_, cycles := h₁.cycles }
    show { p.registers with pc := p₁.registers.pc } = { q.registers with pc := q₁.registers.pc }
    rw [h.registers, h₁.registers]

end Abreast

variable [Bus β]

theorem instructions_of_error {p : Processor β} {e : Fault} (h : (step.run p).result = .error e) :
    (step.run p).state.instructions = p.instructions := by
  rcases state_of_error h with ⟨n, hq⟩ | ⟨bus, cycles, hq⟩
  · rw [hq, settle_eq]
    rfl
  · rw [hq, settle_eq]
    rfl

theorem instructions_step (p : Processor β) :
    (step.run p).state.instructions =
      p.instructions + UInt64.ofNat (step.run p).result.isOk.toNat := by
  cases h : (step.run p).result with
  | ok u =>
    rw [step_effect rfl h]
    rfl
  | error e =>
    rw [instructions_of_error h]
    exact (UInt64.add_zero _).symm

theorem step_abreast {p q : Processor β} (hr : p.registers = q.registers) (hb : p.bus = q.bus) :
    (step.run p).result = (step.run q).result ∧
      ∃ m ≤ 6, (step.run p).state.cycles = p.cycles.add m ∧
        (step.run q).state.cycles = q.cycles.add m ∧
        (step.run p).state.registers = (step.run q).state.registers ∧
        (step.run p).state.bus = (step.run q).state.bus := by
  have hm := (Abreast.law p q).step p q (.of_eq hr hb) fun _ _ => trivial
  obtain ⟨m, hle, hp⟩ := step_cycles p
  obtain ⟨n, hp', hq⟩ := hm.state.cycles
  rw [Cycles.add_congr (hp'.symm.trans hp)] at hq
  exact ⟨hm.result, m, hle, hp, hq, hm.state.registers, hm.state.bus⟩

end Processor

namespace Console

theorem step_abreast {c d : Console} (hr : c.processor.registers = d.processor.registers)
    (hb : c.processor.bus = d.processor.bus) :
    (step.run c).result = (step.run d).result ∧
      (step.run c).state.processor.registers = (step.run d).state.processor.registers ∧
      (step.run c).state.processor.bus = (step.run d).state.processor.bus ∧
      (∃ m ≤ 6, (step.run c).state.processor.cycles = c.processor.cycles.add m ∧
        (step.run d).state.processor.cycles = d.processor.cycles.add m) ∧
      ∃ i ≤ 1, (step.run c).state.processor.instructions =
          c.processor.instructions + UInt64.ofNat i ∧
        (step.run d).state.processor.instructions =
          d.processor.instructions + UInt64.ofNat i := by
  obtain ⟨hresult, m, hle, hm, hm', hregisters, hbus⟩ := Processor.step_abreast hr hb
  have hi := Processor.instructions_step c.processor
  have hi' := Processor.instructions_step d.processor
  rcases hc : Processor.step.run c.processor with ⟨r, p, t⟩
  rcases hd : Processor.step.run d.processor with ⟨r', q, u⟩
  rw [hc] at hresult hm hregisters hbus hi
  rw [hd] at hresult hm' hregisters hbus hi'
  obtain rfl : r = r' := hresult
  have helapsed : p.cycles.t - c.processor.cycles.t = UInt64.ofNat m * 4 := by
    rw [hm, Cycles.elapsed_add]
  have helapsed' : q.cycles.t - d.processor.cycles.t = UInt64.ofNat m * 4 := by
    rw [hm', Cycles.elapsed_add]
  rw [step_run hc helapsed, step_run hd helapsed']
  exact ⟨rfl, hregisters, congrArg (advancePicture _) hbus, ⟨m, hle, hm, hm'⟩,
    _, Bool.toNat_le _, hi, hi'⟩

/-- Two consoles with the same registers and the same memory map, whatever else is
in them, give the same result at every step, stay the same in this way, and count
the same cycles and instructions. -/
theorem step_bookkeeping {c d : Console} (hr : c.processor.registers = d.processor.registers)
    (hb : c.processor.bus = d.processor.bus) (n : Nat) :
    (∀ k < n, (step.run (step.after k c)).result = (step.run (step.after k d)).result) ∧
      let p := (step.after n c).processor
      let q := (step.after n d).processor
      p.registers = q.registers ∧ p.bus = q.bus ∧
      (∃ m ≤ 6 * n, p.cycles = c.processor.cycles.add m ∧ q.cycles = d.processor.cycles.add m) ∧
      ∃ i ≤ n, p.instructions = c.processor.instructions + UInt64.ofNat i ∧
        q.instructions = d.processor.instructions + UInt64.ofNat i := by
  induction n with
  | zero =>
    exact ⟨nofun, hr, hb, ⟨0, Nat.le_refl 0, (Cycles.add_zero _).symm, (Cycles.add_zero _).symm⟩,
      0, Nat.le_refl 0, (UInt64.add_zero _).symm, (UInt64.add_zero _).symm⟩
  | succ n ih =>
    obtain ⟨hresults, hregisters, hbus, ⟨m, hm, hc, hd⟩, i, hi, hci, hdi⟩ := ih
    obtain ⟨hresult, hregisters, hbus, ⟨m', hm', hc', hd'⟩, i', hi', hci', hdi'⟩ :=
      step_abreast hregisters hbus
    rw [Action.after_succ, Action.after_succ]
    refine ⟨?_, hregisters, hbus, ⟨m + m', by omega, ?_, ?_⟩, i + i', by omega, ?_, ?_⟩
    · intro k hk
      rcases Nat.lt_succ_iff_lt_or_eq.mp hk with hlt | rfl
      · exact hresults k hlt
      · exact hresult
    · rw [hc', hc, Cycles.add_add]
    · rw [hd', hd, Cycles.add_add]
    · rw [hci', hci, UInt64.ofNat_add, UInt64.add_assoc]
    · rw [hdi', hdi, UInt64.ofNat_add, UInt64.add_assoc]

/-- A console whose program watches the line counter. -/
def watchingLine : Console := new ⟨#[0xF0, 0x44, 0x18, 0xFC]⟩ none 0 ⟨1, 1⟩

def watchedLine : Console where
  processor :=
    { watchingLine.processor with
      ime := true
      pending := some .disable
      cycles := ⟨7, 500⟩
      instructions := 9
      trace := .empty 3
      debugging := true }
  viewport := ⟨160, 144⟩

theorem step_bookkeeping_watchingLine :
    watchingLine.processor.registers = watchedLine.processor.registers ∧
      watchingLine.processor.bus = watchedLine.processor.bus ∧
      ∀ k < 3, (step.run (step.after k watchingLine)).result =
        (step.run (step.after k watchedLine)).result :=
  ⟨rfl, rfl, (step_bookkeeping (c := watchingLine) (d := watchedLine) rfl rfl 3).1⟩

end Console

end Handheld
