import Handheld.Proofs.Commands
import Handheld.Proofs.Duration
import Handheld.Proofs.Layout
import Handheld.Proofs.WellFormed

/-!
# The clock of the picture unit

The processor counts clock cycles, and the picture unit counts dots. A step that
faults has taken the cycles of what it did, and a write to the line counter sets
the dots to zero in the middle of an instruction. Still the dots are the cycles
since the start of the last step that wrote the line counter.
-/

namespace Handheld

def WritesLine (as : List Access) : Prop := (Direction.write, 0xFF44) ∈ as.map Access.place

instance : DecidablePred WritesLine := by
  unfold WritesLine
  infer_instance

namespace MemoryMap

theorem dots_writePlace (m : MemoryMap) {address : UInt16} {place : Place}
    (h : Place.ofAddress? address = some place) (v : UInt8) :
    (m.writePlace place v).picture.dots = if address = 0xFF44 then 0 else m.picture.dots := by
  by_cases hline : place = .picture (.register .ly)
  · subst hline
    obtain rfl : address = 0xFF44 := UInt16.toNat_inj.mp (Place.named_of_ofAddress? h)
    rfl
  · have hne : address ≠ 0xFF44 := by
      rintro rfl
      exact hline (Option.some.inj (h.symm.trans rfl))
    rw [if_neg hne]
    cases place with
    | picture target =>
      cases target with
      | video i => rfl
      | register r =>
        cases r with
        | ly => exact absurd rfl hline
        | _ => rfl
    | serialControl =>
      unfold writePlace writeSerialControl
      dsimp only
      split <;> rfl
    | overlaySwitch =>
      unfold writePlace
      dsimp only
      split <;> rfl
    | _ => rfl

theorem dots_law :
    Bus.Law fun (m : MemoryMap) as m' =>
      m'.picture.dots = if WritesLine as then 0 else m.picture.dots where
  refl m := (if_neg List.not_mem_nil).symm
  trans {m m' m'' as bs} h h' := by
    have happend : WritesLine (as ++ bs) ↔ WritesLine as ∨ WritesLine bs := by
      simp [WritesLine]
    rw [h', h]
    by_cases hbs : WritesLine bs
    · rw [if_pos hbs, if_pos (happend.mpr (.inr hbs))]
    · rw [if_neg hbs]
      simp only [happend, hbs, or_false]
  reads _ := (if_neg (by simp [WritesLine, Access.place])).symm
  writes {m address v} _ := by
    have hwrites : WritesLine [.write address v] ↔ address = 0xFF44 := by
      simp [WritesLine, Access.place, eq_comm]
    simp only [hwrites]
    cases h : Place.ofAddress? address with
    | none =>
      have hne : address ≠ 0xFF44 := by
        rintro rfl
        cases h
      rw [store_hole m h, if_neg hne]
    | some place => rw [store_place m h, dots_writePlace m h]

end MemoryMap

namespace Console

def clock (c : Console) : Nat := c.processor.cycles.t.toNat

/-- The clock at the start of the last step that wrote the line counter, among a
number of steps, and zero if there was none. -/
def lineStart (c : Console) : Nat → Nat
  | 0 => 0
  | k + 1 =>
    if WritesLine (step.run (step.after k c)).accesses then clock (step.after k c)
    else lineStart c k

/-- In a number of steps the clock is never set back, so it does not wrap around. -/
def Unwrapped (c : Console) (k : Nat) : Prop :=
  ∀ j < k, clock (step.after j c) ≤ clock (step.after (j + 1) c)

-- ---------------------------------------------------------------------------
-- One step
-- ---------------------------------------------------------------------------

theorem step_counts {c : Console} (h : c.picture.dots < Picture.dotsPerFrame) : ∃ n ≤ 24,
    (step.run c).state.processor.cycles.t = c.processor.cycles.t + UInt64.ofNat n ∧
      (step.run c).state.picture.dots.toNat =
        ((if WritesLine (step.run c).accesses then 0 else c.picture.dots.toNat) + n) % 70224 := by
  obtain ⟨n, hn, hcycles⟩ := Processor.step_cycles c.processor
  have hdots := (Processor.busLaw MemoryMap.dots_law).step c.processor
  rw [← accesses_step] at hdots
  rcases hrun : Processor.step.run c.processor with ⟨r, q, t⟩
  rw [hrun] at hcycles hdots
  have ht : q.cycles.t = c.processor.cycles.t + UInt64.ofNat (n * 4) := by
    rw [hcycles, Cycles.add, UInt64.ofNat_mul]
    rfl
  have helapsed : q.cycles.t - c.processor.cycles.t = UInt64.ofNat (n * 4) := by
    rw [ht, UInt64.add_comm, UInt64.add_sub_cancel]
  have hstate : (step.run c).state =
      { c with processor := { q with bus := advancePicture (UInt64.ofNat (n * 4)) q.bus } } := by
    rw [step_run hrun helapsed]
  rw [hstate]
  refine ⟨n * 4, by omega, ht, ?_⟩
  show (q.bus.picture.advance (UInt64.ofNat (n * 4)).toUInt32).dots.toNat = _
  have hnat : (UInt64.ofNat (n * 4)).toUInt32.toNat = n * 4 := by
    rw [UInt64.toUInt32_ofNat', UInt32.toNat_ofNat']
    exact Nat.mod_eq_of_lt (by omega)
  rw [Picture.toNat_dots_advance, hnat, hdots]
  · split <;> rfl
  · rw [hdots]
    split
    · decide
    · exact h

theorem clock_add {c c' : Console} {e : UInt64}
    (ht : c'.processor.cycles.t = c.processor.cycles.t + e) (hle : clock c ≤ clock c') :
    clock c' = clock c + e.toNat := by
  unfold clock at hle ⊢
  have hc := c.processor.cycles.t.toNat_lt
  have he := e.toNat_lt
  rw [ht, UInt64.toNat_add] at hle ⊢
  omega

-- ---------------------------------------------------------------------------
-- Many steps
-- ---------------------------------------------------------------------------

theorem Unwrapped.of_succ {c : Console} {k : Nat} (h : Unwrapped c (k + 1)) : Unwrapped c k :=
  fun j hj => h j (Nat.lt_succ_of_lt hj)

theorem dots_after {c : Console} (hclock : clock c = 0) (hdots : c.picture.dots = 0) (k : Nat)
    (h : Unwrapped c k) :
    lineStart c k ≤ clock (step.after k c) ∧
      (step.after k c).picture.dots.toNat =
        (clock (step.after k c) - lineStart c k) % 70224 := by
  induction k with
  | zero =>
    show 0 ≤ clock c ∧ c.picture.dots.toNat = (clock c - 0) % 70224
    rw [hclock, hdots]
    decide
  | succ k ih =>
    obtain ⟨hle, hd⟩ := ih h.of_succ
    have hlt := Picture.dots_lt_of_toNat_eq hd
    have hmono := h k (Nat.lt_succ_self k)
    rw [Action.after_succ] at hmono ⊢
    obtain ⟨n, hn, ht, hdots'⟩ := step_counts hlt
    have hclock' := clock_add ht hmono
    rw [UInt64.toNat_ofNat', Nat.mod_eq_of_lt (by omega)] at hclock'
    rw [hdots', hclock', lineStart]
    split
    · -- the dots began anew within this step, and all of it was added to them
      exact ⟨Nat.le_add_right _ n, by omega⟩
    · rw [hd]
      exact ⟨by omega, by omega⟩

theorem line_of_dots {m : MemoryMap} {n : Nat} (h : m.picture.dots.toNat = n % 70224) :
    ∃ v, Bus.read? m 0xFF44 = some v ∧ v.toNat = n / 456 % 154 := by
  refine ⟨m.picture.ly, rfl, ?_⟩
  rw [Picture.toNat_ly (Picture.dots_lt_of_toNat_eq h), h]
  omega

theorem step_gain (c : Console) (e : UInt64) (h : (step.run c).result = .ok e) :
    (step.run c).state.processor.cycles.t = c.processor.cycles.t + e := by
  rcases hrun : Processor.step.run c.processor with ⟨f | u, q, t⟩
  · rw [step_run hrun rfl] at h
    cases h
  · rw [step_run hrun rfl] at h ⊢
    rw [← Except.ok.inj h, UInt64.add_comm, UInt64.sub_add_cancel]

/-- From power-on, whatever drives the console is a number of steps. After any
number of them the dots are the clock cycles since the start of the last step that
wrote the line counter, and the line follows from them. A successful step, or a
successful run of steps, gives exactly what it added to the clock cycles. -/
theorem clocks_agree (cartridge : Image) (boot : Option Image) (traceCapacity : Nat)
    (viewport : Viewport) (cs : List Command) (hcs : ∀ cmd ∈ cs, cmd.drives = true) :
    let c₀ := new cartridge boot traceCapacity viewport
    (∃ k, ((perform cs).run c₀).state = step.after k c₀ ∧
      ((perform cs).run c₀).accesses = step.traffic k c₀) ∧
    (∀ k, Unwrapped c₀ k →
      let c := step.after k c₀
      let t₀ := lineStart c₀ k
      t₀ ≤ clock c ∧ c.picture.dots.toNat = (clock c - t₀) % 70224 ∧
        ∃ v, Bus.read? c.processor.bus 0xFF44 = some v ∧
          v.toNat = (clock c - t₀) / 456 % 154) ∧
    (∀ (c : Console) (e : UInt64), (step.run c).result = .ok e →
      let c' := (step.run c).state
      c'.processor.cycles.t = c.processor.cycles.t + e ∧
        (clock c ≤ clock c' → clock c' = clock c + e.toNat)) ∧
    ∀ (n : Nat) (c : Console) (e : UInt64), ((runSteps n).run c).result = .ok e →
      let c' := ((runSteps n).run c).state
      c'.processor.cycles.t = c.processor.cycles.t + e ∧
        (clock c ≤ clock c' → clock c' = clock c + e.toNat) := by
  intro c₀
  refine ⟨perform_steps hcs c₀, ?_, ?_, ?_⟩
  · intro k hk c t₀
    obtain ⟨hle, hdots⟩ := dots_after (c := c₀) rfl rfl k hk
    exact ⟨hle, hdots, line_of_dots hdots⟩
  · intro c e he c'
    have ht := step_gain c e he
    exact ⟨ht, clock_add ht⟩
  · intro n c e he c'
    have ht : c'.processor.cycles.t = c.processor.cycles.t + e :=
      Action.accumulate_gain (·.processor.cycles.t) step_gain n c he
    exact ⟨ht, clock_add ht⟩

/-- A console whose second instruction writes the line counter. -/
def writingLine : Console := new ⟨#[0x00, 0xE0, 0x44, 0x00]⟩ none 0 ⟨1, 1⟩

theorem clocks_agree_writingLine :
    (∀ cmd ∈ [Command.step, .runSteps 2], cmd.drives = true) ∧ Unwrapped writingLine 3 ∧
      lineStart writingLine 3 = 4 ∧ clock (step.after 3 writingLine) = 20 ∧
      (step.after 3 writingLine).picture.dots.toNat = 16 := by
  have hcs : ∀ cmd ∈ [Command.step, .runSteps 2], cmd.drives = true := by decide
  have hk : Unwrapped writingLine 3 := by
    unfold Unwrapped
    decide
  obtain ⟨-, hdots, -⟩ := (clocks_agree ⟨#[0x00, 0xE0, 0x44, 0x00]⟩ none 0 ⟨1, 1⟩ _ hcs).2.1 3 hk
  exact ⟨hcs, hk, rfl, rfl, hdots⟩

end Console

end Handheld
