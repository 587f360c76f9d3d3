import Handheld.Proofs.Bookkeeping
import Handheld.Proofs.Clock
import Mathlib.Algebra.Group.Nat.Defs

/-!
# How long a frame runs

Steps run in sequence add up, so a run can be cut anywhere. A step that succeeds takes
from one to six machine cycles, so a frame ends after finitely many steps and takes at
most five machine cycles too many. Nothing but its own clock cycles or a fault ends it.
-/

namespace Handheld

theorem Decoded.length_beats_pos (d : Decoded) (r : Registers) : 0 < (d.beats r).length := by
  have hsize : 0 < d.size := by
    unfold size opcodeSize
    split <;> omega
  simp only [beats, List.length_append, Beat.length_fetches]
  omega

namespace Console

-- ---------------------------------------------------------------------------
-- Runs of steps
-- ---------------------------------------------------------------------------

theorem runSteps_eq_laps (n : Nat) : runSteps n = step.laps n 0 := Action.accumulate_eq_rounds n

theorem runSteps_add (m n : Nat) :
    runSteps (m + n) = runSteps m >>= fun d => runSteps n >>= fun e => pure (d + e) := by
  simp only [runSteps_eq_laps, Action.laps_add]
  congr 1
  funext d
  exact Action.laps_from n d

theorem runSteps_one : runSteps 1 = step := by
  simp [runSteps_eq_laps, Action.laps_succ, Action.laps_zero]

theorem runSteps_succ (n : Nat) :
    runSteps (n + 1) = runSteps n >>= fun d => step >>= fun e => pure (d + e) := by
  rw [runSteps_add, runSteps_one]

theorem smooth_of_runSteps {n : Nat} {c : Console} {e : UInt64}
    (h : ((runSteps n).run c).result = .ok e) :
    step.Smooth n c ∧ ((runSteps n).run c).state = step.after n c := by
  have hsmooth : step.Smooth n c := by
    induction n generalizing e with
    | zero => exact .zero step c
    | succ n ih =>
      rw [runSteps_succ] at h
      obtain ⟨d, hd, he⟩ := Action.result_bind_eq_ok h
      obtain ⟨a, ha, -⟩ := Action.result_bind_eq_ok he
      have hn := ih hd
      rw [runSteps, Action.accumulate, (Action.accumulateFrom_smooth hn 0 []).2] at ha
      exact hn.succ ha
  exact ⟨hsmooth, (Action.accumulateFrom_smooth hsmooth 0 []).2⟩

theorem step_of_runSteps_succ {n : Nat} {c : Console} {d : UInt64}
    (h : ((runSteps n).run c).result = .ok d) :
    ((runSteps (n + 1)).run c).result = (step.run (step.after n c)).result.map (d + ·) ∧
      ((runSteps (n + 1)).run c).state = (step.run (step.after n c)).state := by
  have hstate := (smooth_of_runSteps h).2
  rcases hrun : (runSteps n).run c with ⟨r, c', t⟩
  rw [hrun] at h hstate
  obtain rfl : r = .ok d := h
  obtain rfl : c' = step.after n c := hstate
  rw [runSteps_succ, Action.run_bind_ok hrun]
  rcases hstep : step.run (step.after n c) with ⟨e | a, c'', u⟩
  · rw [Action.run_bind_error hstep]
    exact ⟨rfl, rfl⟩
  · rw [Action.run_bind_ok hstep]
    exact ⟨rfl, rfl⟩

-- ---------------------------------------------------------------------------
-- Costs
-- ---------------------------------------------------------------------------

theorem step_cost {c : Console} {e : UInt64} (h : (step.run c).result = .ok e) :
    ∃ n, 1 ≤ n ∧ n ≤ 6 ∧ e = UInt64.ofNat (4 * n) := by
  rcases hrun : Processor.step.run c.processor with ⟨f | u, q, t⟩
  · rw [step_run hrun rfl] at h
    cases h
  · obtain ⟨hi, -, hs⟩ := Processor.step_spent (p := c.processor) rfl (by rw [hrun])
    have hcycles := hs.cycles
    rw [hrun] at hcycles
    rw [step_run hrun (by rw [hcycles, Cycles.elapsed_add])] at h
    refine ⟨_, Decoded.length_beats_pos _ c.processor.registers, Bus.length_beats_le _ _ _ hi, ?_⟩
    rw [← Except.ok.inj h, UInt64.ofNat_mul, UInt64.mul_comm]
    rfl

theorem runSteps_cost {n : Nat} {c : Console} {e : UInt64}
    (h : ((runSteps n).run c).result = .ok e) :
    ∃ q, n ≤ q ∧ q ≤ 6 * n ∧ e = UInt64.ofNat (4 * q) := by
  induction n generalizing e with
  | zero => exact ⟨0, Nat.le_refl 0, Nat.le_refl 0, (Except.ok.inj h).symm⟩
  | succ n ih =>
    rw [runSteps_succ] at h
    obtain ⟨d, hd, h⟩ := Action.result_bind_eq_ok h
    obtain ⟨a, ha, h⟩ := Action.result_bind_eq_ok h
    obtain ⟨q, hq, hq', rfl⟩ := ih hd
    obtain ⟨i, hi, hi', rfl⟩ := step_cost ha
    refine ⟨q + i, by omega, by omega, ?_⟩
    rw [← Except.ok.inj h, Nat.mul_add, UInt64.ofNat_add]

-- ---------------------------------------------------------------------------
-- Frames
-- ---------------------------------------------------------------------------

theorem toNat_frameCycles : frameCycles.toNat = 70224 := rfl

theorem frameSteps_eq : frameSteps = 17556 := rfl

/-- Short of `k` steps the frame that begins at `c` is not over, and with them it is, unless
the last one faults. -/
structure FrameLasts (c : Console) (k : Nat) : Prop where
  short (j : Nat) : j < k → ∃ e, ((runSteps j).run c).result = .ok e ∧ e < frameCycles
  full (e : UInt64) : ((runSteps k).run c).result = .ok e → frameCycles ≤ e

theorem FrameLasts.unique {c : Console} {k l : Nat} (hk : FrameLasts c k) (hl : FrameLasts c l) :
    k = l := by
  rcases Nat.lt_trichotomy k l with hlt | heq | hlt
  · obtain ⟨e, he, hless⟩ := hl.short k hlt
    exact absurd (hk.full e he) (UInt64.not_le.mpr hless)
  · exact heq
  · obtain ⟨e, he, hless⟩ := hk.short l hlt
    exact absurd (hl.full e he) (UInt64.not_le.mpr hless)

theorem frameCycles_le_of_runSteps {c : Console} {e : UInt64}
    (h : ((runSteps frameSteps).run c).result = .ok e) : frameCycles ≤ e := by
  obtain ⟨q, hq, hq', rfl⟩ := runSteps_cost h
  rw [UInt64.le_iff_toNat_le, UInt64.toNat_ofNat', toNat_frameCycles]
  rw [frameSteps_eq] at hq hq'
  omega

/-- A loop that is allowed as many steps as a frame can have makes just those of the frame. -/
theorem frame_lasts (c : Console) {limit : Nat} (hlimit : frameSteps ≤ limit) :
    ∃ k ≤ frameSteps, FrameLasts c k ∧
      (Action.accumulate step (· < frameCycles) limit).run c = (runSteps k).run c := by
  obtain ⟨k, hk, heq, hshort, hfull⟩ := @Action.rounds_ends _ step (· < frameCycles) limit 0 c
  simp only [← runSteps_eq_laps, decide_eq_true_eq, decide_eq_false_iff_not, UInt64.not_lt]
    at heq hshort hfull
  have hle : k ≤ frameSteps := by
    refine Nat.not_lt.mp fun hlt => ?_
    obtain ⟨e, he, hless⟩ := hshort frameSteps hlt
    exact UInt64.not_le.mpr hless (frameCycles_le_of_runSteps he)
  refine ⟨k, hle, ⟨hshort, fun e he => ?_⟩, ?_⟩
  · by_cases hlt : k < limit
    · exact hfull hlt e he
    · obtain rfl : k = frameSteps := by omega
      exact frameCycles_le_of_runSteps he
  · rw [Action.accumulate_eq_rounds, heq]

theorem runFrame_eq_ignore :
    runFrame = (Action.accumulate step (· < frameCycles) frameSteps).ignore := rfl

/-- A frame that ends without a fault takes at least its clock cycles, and less than one step
more. -/
theorem FrameLasts.overshoot {c : Console} {k : Nat} (h : FrameLasts c k) (hk : k ≤ frameSteps)
    {e : UInt64} (he : ((runSteps k).run c).result = .ok e) :
    70224 ≤ e.toNat ∧ e.toNat ≤ 70244 ∧ 4 ∣ e.toNat := by
  have hfull := UInt64.le_iff_toNat_le.mp (h.full e he)
  rw [toNat_frameCycles] at hfull
  rw [frameSteps_eq] at hk
  cases k with
  | zero =>
    obtain rfl : 0 = e := Except.ok.inj he
    simp at hfull
  | succ j =>
    obtain ⟨d, hd, hless⟩ := h.short j (Nat.lt_succ_self j)
    have hless := UInt64.lt_iff_toNat_lt.mp hless
    rw [toNat_frameCycles] at hless
    rw [(step_of_runSteps_succ hd).1] at he
    obtain ⟨q, -, hq, rfl⟩ := runSteps_cost hd
    cases ha : (step.run (step.after j c)).result with
    | error f =>
      rw [ha] at he
      cases he
    | ok a =>
      rw [ha] at he
      obtain ⟨i, -, hi, rfl⟩ := step_cost ha
      obtain rfl : UInt64.ofNat (4 * q) + UInt64.ofNat (4 * i) = e := Except.ok.inj he
      rw [← UInt64.ofNat_add, UInt64.toNat_ofNat'] at hfull ⊢
      rw [UInt64.toNat_ofNat'] at hless
      omega

theorem FrameLasts.fault {c : Console} {k : Nat} (h : FrameLasts c k) {f : Fault}
    (hf : ((runSteps k).run c).result = .error f) :
    ∃ j, k = j + 1 ∧ step.Smooth j c ∧ (step.run (step.after j c)).result = .error f ∧
      ((runSteps k).run c).state = (step.run (step.after j c)).state := by
  cases k with
  | zero => cases hf
  | succ j =>
    obtain ⟨d, hd, -⟩ := h.short j (Nat.lt_succ_self j)
    obtain ⟨hresult, hstate⟩ := step_of_runSteps_succ hd
    refine ⟨j, rfl, (smooth_of_runSteps hd).1, ?_, hstate⟩
    rw [hresult] at hf
    cases ha : (step.run (step.after j c)).result with
    | error f' =>
      rw [ha] at hf
      obtain rfl : f' = f := Except.error.inj hf
      rfl
    | ok a =>
      rw [ha] at hf
      cases hf

/-- A frame is a run of steps, at most 17556 of them: the fewest that take a frame's clock
cycles together, or those up to the first one that faults. If none faults, the clock goes on
by what they take, at most 20 cycles more than a frame. No limit from there on is ever
reached, so the limit is not what ends a frame. Runs of steps can be cut anywhere. -/
theorem frame_is_run :
    (∀ c : Console, ∃ k ≤ 17556, runFrame.run c = (runSteps k).ignore.run c ∧
      (∀ j < k, ∃ e, ((runSteps j).run c).result = .ok e ∧ e.toNat < 70224) ∧
      let c' := (runFrame.run c).state
      match (runFrame.run c).result with
      | .ok () => step.Smooth k c ∧ c' = step.after k c ∧
        ∃ e, ((runSteps k).run c).result = .ok e ∧ 70224 ≤ e.toNat ∧ e.toNat ≤ 70244 ∧
          4 ∣ e.toNat ∧ clock c' = (clock c + e.toNat) % 2 ^ 64
      | .error f => ∃ j, k = j + 1 ∧ step.Smooth j c ∧
        (step.run (step.after j c)).result = .error f ∧ c' = (step.run (step.after j c)).state) ∧
    (∀ more, runFrame = (Action.accumulate step (· < frameCycles) (17556 + more)).ignore) ∧
    ∀ m n, runSteps (m + n) = runSteps m >>= fun d => runSteps n >>= fun e => pure (d + e) := by
  refine ⟨fun c => ?_, fun more => ?_, runSteps_add⟩
  · obtain ⟨k, hk, hlasts, heq⟩ := frame_lasts c (Nat.le_refl frameSteps)
    have hrun : runFrame.run c = (runSteps k).ignore.run c := by
      rw [runFrame_eq_ignore, Action.run_ignore, Action.run_ignore, heq]
    refine ⟨k, hk, hrun, fun j hj => ?_, ?_⟩
    · obtain ⟨e, he, hless⟩ := hlasts.short j hj
      exact ⟨e, he, UInt64.lt_iff_toNat_lt.mp hless⟩
    · rw [hrun, Action.run_ignore]
      dsimp only
      cases hresult : ((runSteps k).run c).result with
      | error f => exact hlasts.fault hresult
      | ok e =>
        obtain ⟨hsmooth, hstate⟩ := smooth_of_runSteps hresult
        obtain ⟨hle, hle', hdvd⟩ := hlasts.overshoot hk hresult
        have hgain : ((runSteps k).run c).state.processor.cycles.t = c.processor.cycles.t + e :=
          Action.accumulate_gain (·.processor.cycles.t) step_gain k c hresult
        refine ⟨hsmooth, hstate, e, rfl, hle, hle', hdvd, ?_⟩
        rw [clock, hgain, UInt64.toNat_add]
        rfl
  · refine runFrame_eq_ignore.trans (congrArg Action.ignore (funext fun c => ?_))
    obtain ⟨k, -, hlasts, heq⟩ := frame_lasts c (Nat.le_refl frameSteps)
    obtain ⟨l, -, hlasts', heq'⟩ := frame_lasts c (Nat.le_add_right frameSteps more)
    obtain rfl := hlasts.unique hlasts'
    exact heq.trans heq'.symm

end Console

end Handheld
