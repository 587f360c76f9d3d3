import Handheld.Proofs.BusFaults
import Handheld.Proofs.Duration

/-!
# When a step decodes

Decoding is over before anything is executed. It completes exactly if the bytes at
the program counter stand for an instruction and the bus answers for all of them;
what is left of the step is then a matter of that instruction alone.
-/

namespace Handheld.Processor

variable {β : Type} [Bus β] {p : Processor β} {d : Decoded}

def decoded? (p : Processor β) : Option Decoded := (decode.run p.settle).result.toOption

theorem decode_run_of_readable (hd : Bus.instructionAt p.bus p.registers.pc = d)
    (hi : d.operation.implemented = true) (hr : Bus.Readable p.bus p.registers.pc d.size) :
    ∃ t, decode.run p.settle = ⟨.ok d, p.settle.fetched d.size, t⟩ ∧
      Spent (Beat.fetches p.registers.pc d.size) p.settle (p.settle.fetched d.size) t := by
  have hd' : Bus.instructionAt p.settle.bus p.settle.registers.pc = d := by simpa using hd
  rcases h : decode.run p.settle with ⟨e | d', q, t⟩
  · exact absurd (by simpa using hr) (decode_error hd' hi h).2
  · obtain ⟨hs, rfl, rfl, -⟩ := (decode_paced p.settle hd' hi).ok h
    exact ⟨t, rfl, by simpa using hs⟩

theorem decoded?_eq_some_iff : p.decoded? = some d ↔
    Bus.instructionAt p.bus p.registers.pc = d ∧ d.operation.implemented = true ∧
      Bus.Readable p.bus p.registers.pc d.size := by
  constructor
  · intro h
    rcases hrun : decode.run p.settle with ⟨e | d', q, t⟩
    · simp [decoded?, hrun, Except.toOption] at h
    · obtain rfl : d' = d := by simpa [decoded?, hrun, Except.toOption] using h
      cases hi : (Bus.instructionAt p.bus p.registers.pc).operation.implemented with
      | false =>
        obtain ⟨u, hfault, -⟩ := decode_unimplemented p.settle (by simp) hi
        rw [hrun] at hfault
        cases hfault
      | true =>
        obtain ⟨-, rfl, -, hr⟩ := (decode_paced p.settle (by simp) hi).ok hrun
        exact ⟨rfl, hi, by simpa using hr⟩
  · rintro ⟨hd, hi, hr⟩
    obtain ⟨t, h, -⟩ := decode_run_of_readable hd hi hr
    rw [decoded?, h]
    rfl

theorem step_of_decoded (h : p.decoded? = some d) :
    let o := (launch d).run (p.settle.fetched d.size)
    ∃ t, Spent (Beat.fetches p.registers.pc d.size) p.settle (p.settle.fetched d.size) t ∧
      step.run p = ⟨o.result, o.state, t ++ o.trail⟩ := by
  obtain ⟨hd, hi, hr⟩ := decoded?_eq_some_iff.mp h
  obtain ⟨t, hrun, hs⟩ := decode_run_of_readable hd hi hr
  exact ⟨t, hs, step_of_decode_ok hrun⟩

theorem decode_of_undecoded (h : p.decoded? = none) :
    ∃ e q t, decode.run p.settle = ⟨.error e, q, t⟩ := by
  rcases hrun : decode.run p.settle with ⟨e | d, q, t⟩
  · exact ⟨e, q, t, rfl⟩
  · simp [decoded?, hrun, Except.toOption] at h

omit [Bus β] in
theorem fetched_congr {p : Processor β} {m n : Nat} (h : p.cycles.add m = p.cycles.add n) :
    p.fetched m = p.fetched n := by
  have hpc : UInt16.ofNat m = UInt16.ofNat n := by
    simpa using congrArg UInt64.toUInt16 (Cycles.ofNat_congr h)
  rw [fetched, fetched, elapse, elapse, h, hpc]

/-- The bytes that are fetched lie one after the other, so what stops early stops at
the byte after those that it fetched. -/
theorem fetches_cut {address : UInt16} {size : Nat} {past rest : List Beat} {beat : Beat}
    (h : Beat.fetches address size = past ++ beat :: rest) :
    past.length < size ∧ past = Beat.fetches address past.length ∧
      beat = .read (address + UInt16.ofNat past.length) := by
  have hlength := congrArg List.length h
  rw [Beat.length_fetches, List.length_append, List.length_cons] at hlength
  obtain ⟨k, rfl⟩ : ∃ k, size = past.length + (k + 1) := ⟨rest.length, hlength⟩
  rw [Beat.fetches_add, Beat.fetches] at h
  obtain ⟨hpast, hrest⟩ := List.append_inj h (Beat.length_fetches _ _)
  exact ⟨by omega, hpast.symm, (List.cons.inj hrest).1.symm⟩

/-- A step that the bus stops while it decodes has fetched some bytes, and done
nothing else. -/
theorem step_of_undecoded {address : UInt16} {direction : Direction} (h : p.decoded? = none)
    (hu : (step.run p).result = .error (.unmapped address direction)) :
    ∃ n < (Bus.instructionAt p.bus p.registers.pc).size, ∃ t,
      Spent (Beat.fetches p.registers.pc n) p.settle (p.settle.fetched n) t ∧
        step.run p = ⟨.error (.unmapped (p.registers.pc + UInt16.ofNat n) .read),
          p.settle.fetched n, t⟩ := by
  obtain ⟨e, q, t, hrun⟩ := decode_of_undecoded h
  cases hi : (Bus.instructionAt p.bus p.registers.pc).operation.implemented with
  | false =>
    obtain ⟨u, hfault, -⟩ := step_unimplemented p rfl hi
    rw [hfault] at hu
    cases hu
  | true =>
    obtain ⟨⟨n, rfl⟩, past, beat, rest, hbeats, hs, href⟩ :=
      (decode_paced p.settle (by simp) hi).error hrun
    rw [registers_settle] at hbeats
    obtain ⟨hlt, hpast, rfl⟩ := fetches_cut hbeats
    obtain ⟨-, rfl⟩ := href
    rw [fetched_congr hs.cycles] at hrun hs
    obtain ⟨u, hsilent, hstep⟩ := step_of_decode_error hrun
    refine ⟨past.length, hlt, t ++ u, ?_, hstep⟩
    rw [← hpast]
    simpa using hs.append (.none rfl hsilent)

theorem decoded?_of_ok (h : (step.run p).result = .ok ()) :
    p.decoded? = some (Bus.instructionAt p.bus p.registers.pc) := by
  obtain ⟨hi, hr, -⟩ := step_spent rfl h
  exact decoded?_eq_some_iff.mpr ⟨rfl, hi, hr⟩

end Handheld.Processor
