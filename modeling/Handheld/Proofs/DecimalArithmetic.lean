import Handheld.Proofs.LongArithmetic

/-!
# Decimal arithmetic

A byte holds two decimal digits, one in each nibble. After an addition or a subtraction
the decimal adjustment corrects each nibble that overflowed as a digit, and its carry is
that of the high digit. So a byte is two columns of base ten, and numbers of many bytes
are dealt with as in base 256.
-/

namespace Handheld

namespace Byte

def IsDecimal (v : UInt8) : Prop := v.toNat % 16 < 10 ∧ v.toNat / 16 < 10

instance (v : UInt8) : Decidable (IsDecimal v) := inferInstanceAs (Decidable (_ ∧ _))

def decimal (v : UInt8) : Nat := v.toNat % 16 + 10 * (v.toNat / 16)

theorem decimal_lt {v : UInt8} (h : IsDecimal v) : decimal v < 100 := by
  obtain ⟨hlow, hhigh⟩ := h
  rw [decimal]
  omega

end Byte

namespace Alu

def adjustsLow (v : UInt8) (f : Flags) : Bool :=
  f.halfCarry || !f.subtract && decide (Byte.lowNibble v > 9)

def adjustsHigh (v : UInt8) (f : Flags) : Bool :=
  f.carry || !f.subtract && decide (v > 0x99)

theorem flags_decimalAdjust (v : UInt8) (f : Flags) :
    (decimalAdjust v f).2 =
      { zero := (decimalAdjust v f).1 == 0, subtract := f.subtract, carry := adjustsHigh v f } := by
  obtain ⟨z, n, h, d⟩ := f
  cases n <;> simp [decimalAdjust, adjustsHigh]

theorem lowNibble_correctHigh (v : UInt8) (adjusts : Bool) :
    Byte.lowNibble (if adjusts then v + 0x60 else v) = Byte.lowNibble v := by
  cases adjusts with
  | false => rfl
  | true =>
    apply UInt8.toNat_inj.mp
    simp [Byte.lowNibble, UInt8.toNat_mod, UInt8.toNat_add]
    omega

theorem toNat_decimalAdjust {s : Sign} {v : UInt8} {f : Flags} (h : f.subtract = (s == .minus)) :
    ((decimalAdjust v f).1.toNat : Int) =
      (v.toNat + s.unit * (6 * (adjustsLow v f).toNat + 0x60 * (adjustsHigh v f).toNat)) % 256 := by
  have hv := v.toNat_lt
  obtain ⟨z, n, hc, d⟩ := f
  cases s with
  | plus =>
    obtain rfl : n = false := h
    -- the low nibble is looked at when the high digit was corrected already
    have hlow := lowNibble_correctHigh v (d || decide (v > 0x99))
    simp only [decimalAdjust, adjustsLow, adjustsHigh, Bool.false_eq_true, if_false, hlow,
      Bool.not_false, Bool.true_and]
    generalize (hc || decide (Byte.lowNibble v > 9)) = low
    generalize (d || decide (v > 0x99)) = high
    cases low <;> cases high <;> simp [Sign.unit, UInt8.toNat_add] <;> omega
  | minus =>
    obtain rfl : n = true := h
    cases hc <;> cases d <;>
      simp [decimalAdjust, adjustsLow, adjustsHigh, Sign.unit, UInt8.toNat_sub] <;> omega

end Alu

namespace Sign

variable (s : Sign) (x y : UInt8) (c : Bool)

theorem adjustsLow_combine : Alu.adjustsLow (s.combine x y c).1 (s.combine x y c).2 = true ↔
    s.Overflows 10 c (x.toNat % 16) (y.toNat % 16) := by
  have hc := Bool.toNat_le c
  have hv := toNat_combine s x y c
  have hhalf := (column_combine_low s x y c).carry_iff (Nat.mod_lt _ (by decide))
  rw [Alu.adjustsLow, Bool.or_eq_true, hhalf, subtract_combine]
  cases s with
  | plus =>
    have hnine : Byte.lowNibble (plus.combine x y c).1 > 9 ↔
        9 < (plus.combine x y c).1.toNat % 16 := UInt8.lt_iff_toNat_lt
    simp [Overflows, unit, hnine] at hv ⊢
    omega
  | minus => simp [Overflows]

section
variable {x y} (hx : Byte.IsDecimal x) (hy : Byte.IsDecimal y)

include hx hy

theorem adjustsHigh_combine : Alu.adjustsHigh (s.combine x y c).1 (s.combine x y c).2 = true ↔
    s.Overflows 10 (Alu.adjustsLow (s.combine x y c).1 (s.combine x y c).2) (x.toNat / 16)
      (y.toNat / 16) := by
  have hc := Bool.toNat_le c
  have hv := toNat_combine s x y c
  have hlow := adjustsLow_combine s x y c
  have hcarry := (column_combine s x y c).carry_iff (UInt8.toNat_lt _)
  generalize Alu.adjustsLow (s.combine x y c).1 (s.combine x y c).2 = low at hlow ⊢
  rw [Alu.adjustsHigh, Bool.or_eq_true, hcarry, subtract_combine]
  unfold Byte.IsDecimal at hx hy
  cases s with
  | plus =>
    simp only [Overflows, unit, gt_iff_lt, UInt8.lt_iff_toNat_lt] at hv hlow ⊢
    cases low <;> simp at hlow ⊢ <;> omega
  | minus =>
    simp only [Overflows] at hlow ⊢
    cases low <;> simp at hlow ⊢ <;> omega

/-- The corrected byte has the digits of two columns of base ten. -/
theorem column_decimalAdjust {v : UInt8} {f : Flags} (hcombine : s.combine x y c = (v, f)) :
    Byte.IsDecimal (Alu.decimalAdjust v f).1 ∧
      Column s 100 c (Byte.decimal x) (Byte.decimal y) (Byte.decimal (Alu.decimalAdjust v f).1)
        (Alu.decimalAdjust v f).2.carry := by
  have hv := toNat_combine s x y c
  have hsubtract := subtract_combine s x y c
  have hlow := adjustsLow_combine s x y c
  have hhigh := adjustsHigh_combine s c hx hy
  rw [hcombine] at hv hsubtract hlow hhigh
  have hw := Alu.toNat_decimalAdjust (v := v) hsubtract
  obtain ⟨l, hl, hlow⟩ := Column.exists_digit hx.1 hy.1 hlow
  obtain ⟨h, hh, hhigh⟩ := Column.exists_digit hx.2 hy.2 hhigh
  -- a nibble has six values more than a digit, and each correction makes up for them
  have hdigits : (Alu.decimalAdjust v f).1.toNat = l + 16 * h := by
    cases s <;> simp only [Column, unit] at hlow hhigh hv hw <;> omega
  have hmod : (Alu.decimalAdjust v f).1.toNat % 16 = l := by omega
  have hdiv : (Alu.decimalAdjust v f).1.toNat / 16 = h := by omega
  have hdecimal : Byte.decimal (Alu.decimalAdjust v f).1 = l + 10 * h := by
    rw [Byte.decimal, hmod, hdiv]
  constructor
  · exact ⟨hmod ▸ hl, hdiv ▸ hh⟩
  · rw [hdecimal, Alu.flags_decimalAdjust]
    exact hlow.beside hhigh

end

end Sign

-- ---------------------------------------------------------------------------
-- Numbers
-- ---------------------------------------------------------------------------

/-- The number that bytes of two digits stand for, the least significant one first. -/
def decimalNumber (bytes : List UInt8) : Nat := Nat.ofDigits 100 (bytes.map Byte.decimal)

theorem decimalNumber_lt {bytes : List UInt8} (h : ∀ v ∈ bytes, Byte.IsDecimal v) :
    decimalNumber bytes < 100 ^ bytes.length := by
  have hdigits : ∀ d ∈ bytes.map Byte.decimal, d < 100 :=
    List.forall_mem_map.mpr fun v hv => Byte.decimal_lt (h v hv)
  simpa [decimalNumber] using Nat.ofDigits_lt_base_pow_length (by decide) hdigits

namespace Processor

variable {β : Type} [Bus β] {hole : UInt16 → Prop} {s : Sign} {c : Bool}

theorem step_decimalAdjust (hb : Bus.HolesAt β hole) {p : Processor β}
    (hop : (Bus.instructionAt p.bus p.registers.pc).operation = .decimalAdjust) :
    let r := p.registers
    (step.run p).result = .ok () ∧
      (step.run p).state.registers.a = (Alu.decimalAdjust r.a r.flags).1 ∧
      (step.run p).state.registers.flags = (Alu.decimalAdjust r.a r.flags).2 := by
  obtain ⟨hok, pc, hregisters⟩ :=
    step_updating hb hop rfl rfl (by simp) rfl fun _ _ _ => rfl
  rw [hregisters]
  exact ⟨hok, rfl, rfl⟩

/-- The processor adds or subtracts next, and then adjusts the result. -/
structure DecimalReady (s : Sign) (c : Bool) (x y : UInt8) (p : Processor β) : Prop
    extends Ready s c x y p where
  adjusted : (Bus.instructionAt (step.after 1 p).bus (step.after 1 p).registers.pc).operation =
    .decimalAdjust

namespace DecimalReady

variable {x y : UInt8} {p : Processor β}

theorem smooth (hb : Bus.HolesAt β hole) (h : DecimalReady s c x y p) : step.Smooth 2 p :=
  ((Action.Smooth.zero step p).succ (h.ok hb)).succ (step_decimalAdjust hb h.adjusted).1

theorem registers (hb : Bus.HolesAt β hole) (h : DecimalReady s c x y p) :
    let r := (step.after 1 p).registers
    (step.after 2 p).registers.a = (Alu.decimalAdjust r.a r.flags).1 ∧
      (step.after 2 p).registers.flags = (Alu.decimalAdjust r.a r.flags).2 := by
  rw [Action.after_succ step 1 p]
  exact (step_decimalAdjust hb h.adjusted).2

theorem column (hb : Bus.HolesAt β hole) (h : DecimalReady s c x y p) (hx : Byte.IsDecimal x)
    (hy : Byte.IsDecimal y) :
    Byte.IsDecimal (step.after 2 p).registers.a ∧
      Column s 100 c (Byte.decimal x) (Byte.decimal y) (Byte.decimal (step.after 2 p).registers.a)
        (step.after 2 p).registers.flags.carry := by
  obtain ⟨ha, hflags⟩ := h.toReady.registers hb
  obtain ⟨hadjusted, hafter⟩ := h.registers hb
  rw [hadjusted, hafter]
  exact Sign.column_decimalAdjust s c hx hy (Prod.ext ha.symm hflags.symm)

theorem flags (hb : Bus.HolesAt β hole) (h : DecimalReady s c x y p) :
    let r := (step.after 2 p).registers
    r.flags.halfCarry = false ∧
      r.flags.subtract = (step.after 1 p).registers.flags.subtract ∧
      r.flags.zero = (r.a == 0) := by
  intro r
  obtain ⟨ha, hflags⟩ : r.a = _ ∧ r.flags = _ := h.registers hb
  rw [ha, hflags, Alu.flags_decimalAdjust]
  exact ⟨rfl, rfl, rfl⟩

end DecimalReady

variable {xs ys : List UInt8} {ps : List (Processor β)} {q : Processor β}

/-- Adding or subtracting with the decimal adjustment after each byte gives the digits of
the sum or difference, and the carry at the end tells whether it overflowed. -/
theorem decimal_arithmetic (hb : Bus.HolesAt β hole)
    (h : Bytewise (DecimalReady s) 2 c xs ys ps q) (hxs : ∀ x ∈ xs, Byte.IsDecimal x)
    (hys : ∀ y ∈ ys, Byte.IsDecimal y) :
    let n := xs.length
    (∀ p ∈ ps, step.Smooth 2 p ∧
      (step.after 2 p).registers.flags.halfCarry = false ∧
      (step.after 2 p).registers.flags.subtract = (step.after 1 p).registers.flags.subtract ∧
      (step.after 2 p).registers.flags.zero = ((step.after 2 p).registers.a == 0)) ∧
    (results 2 ps).length = n ∧ (∀ r ∈ results 2 ps, Byte.IsDecimal r) ∧
    (decimalNumber (results 2 ps) : Int) =
      (decimalNumber xs + s.unit * (decimalNumber ys + c.toNat)) % (100 ^ n : Nat) ∧
    (q.registers.flags.carry = true ↔
      s.Overflows (100 ^ n) c (decimalNumber xs) (decimalNumber ys)) := by
  intro n
  have hdecimal := h.and_forall hxs hys
  have hlength : (results 2 ps).length = n := h.length_results
  have hresults : ∀ r ∈ results 2 ps, Byte.IsDecimal r :=
    List.forall_mem_map.mpr <|
      hdecimal.forall_mem fun hp => (hp.1.column hb hp.2.1 hp.2.2).1
  have hlt : decimalNumber (results 2 ps) < 100 ^ n := hlength ▸ decimalNumber_lt hresults
  have hcolumn : Column s (100 ^ n) c (decimalNumber xs) (decimalNumber ys)
      (decimalNumber (results 2 ps)) q.registers.flags.carry :=
    hdecimal.column fun hp => (hp.1.column hb hp.2.1 hp.2.2).2
  exact ⟨h.forall_mem fun hp => ⟨hp.smooth hb, hp.flags hb⟩, hlength, hresults, hcolumn.digit hlt,
    hcolumn.carry_iff hlt⟩

def takingDigits : Processor FlatMemory where
  bus := .withProgram 0 [0x3E, 0x42, 0xDE, 0x99, 0x27, 0x3E, 0x00, 0xDE, 0x00, 0x27]

theorem decimal_arithmetic_takingDigits :
    let ps := [step.after 1 takingDigits, step.after 4 takingDigits]
    let q := step.after 2 (step.after 4 takingDigits)
    Bytewise (DecimalReady .minus) 2 false [0x42, 0x00] [0x99, 0x00] ps q ∧
      (∀ x ∈ [0x42, 0x00], Byte.IsDecimal x) ∧ (∀ y ∈ [0x99, 0x00], Byte.IsDecimal y) ∧
      (decimalNumber (results 2 ps) : Int) = 9943 ∧ q.registers.flags.carry = true := by
  intro ps q
  have hlow : DecimalReady .minus false 0x42 0x99 (step.after 1 takingDigits) :=
    { accumulator := by decide +kernel
      instruction := .inl ⟨by decide +kernel, by decide +kernel⟩
      adjusted := by decide +kernel }
  have hhigh : DecimalReady .minus (step.after 2 (step.after 1 takingDigits)).registers.flags.carry
      0x00 0x00 (step.after 4 takingDigits) :=
    { accumulator := by decide +kernel
      instruction := .inl ⟨by decide +kernel, by decide +kernel⟩
      adjusted := by decide +kernel }
  have h : Bytewise (DecimalReady .minus) 2 false [0x42, 0x00] [0x99, 0x00] ps q :=
    .more hlow (.last hhigh)
  have hxs : ∀ x ∈ [0x42, 0x00], Byte.IsDecimal x := by decide +kernel
  have hys : ∀ y ∈ [0x99, 0x00], Byte.IsDecimal y := by decide +kernel
  obtain ⟨-, -, -, hnumber, hcarry⟩ := decimal_arithmetic .flatMemory h hxs hys
  exact ⟨h, hxs, hys, hnumber.trans (by decide), hcarry.mpr (by decide)⟩

end Processor

end Handheld
