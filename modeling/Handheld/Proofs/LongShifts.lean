import Handheld.Proofs.LongArithmetic
import Handheld.Proofs.Operands

/-!
# Shifts of numbers of many bytes

A number is shifted byte by byte, with the bit that leaves one byte carried into the next:
to the left from the least significant byte on, to the right from the most significant one.
Shifting to the left adds a number to itself and shifting to the right undoes that, so both
come down to the same columns, the one with the carry going up and the other with the carry
coming down.
-/

namespace Handheld

-- ---------------------------------------------------------------------------
-- One byte
-- ---------------------------------------------------------------------------

namespace Alu

variable (x : UInt8) (c : Bool)

theorem column_shift_rl :
    Column .plus 256 c x.toNat x.toNat (shift .rl x c).1.toNat (shift .rl x c).2 := by
  have hx := x.toNat_lt
  refine .of_carry hx hx ?_ ?_
  · simp only [shift, Sign.unit, UInt8.toNat_add, UInt8.toNat_mul]
    cases c <;> simp <;> omega
  · simp only [shift, Sign.Overflows, decide_eq_true_iff, ge_iff_le, UInt8.le_iff_toNat_le]
    cases c <;> simp <;> omega

theorem column_shift_rr :
    Column .plus 256 (shift .rr x c).2 (shift .rr x c).1.toNat (shift .rr x c).1.toNat
      x.toNat c := by
  have hx := x.toNat_lt
  have hbottom : (decide (x % 2 = 1)).toNat = x.toNat % 2 := by
    rcases Nat.mod_two_eq_zero_or_one x.toNat with h | h <;> simp [← UInt8.toNat_inj, h]
  simp only [Column, shift, Sign.unit, hbottom, UInt8.toNat_add, UInt8.toNat_div]
  cases c <;> simp <;> omega

theorem shift_sla : shift .sla x c = shift .rl x false := by
  simp [shift]

theorem shift_srl : shift .srl x c = shift .rr x false := by
  simp [shift]

theorem shift_sra : shift .sra x c = shift .rr x (decide (x ≥ 0x80)) := rfl

end Alu

-- ---------------------------------------------------------------------------
-- Numbers
-- ---------------------------------------------------------------------------

theorem testBit_number {bytes : List UInt8} (hne : bytes ≠ []) :
    (number bytes).testBit (8 * bytes.length - 1) =
      decide (256 ^ bytes.length ≤ 2 * number bytes) := by
  have hlt := number_lt bytes
  have hpos := List.length_pos_iff.mpr hne
  have hpow : 256 ^ bytes.length = 2 * 2 ^ (8 * bytes.length - 1) := by
    rw [← Nat.pow_succ', show (8 * bytes.length - 1).succ = 8 * bytes.length by omega,
      Nat.pow_mul]
  rw [hpow] at hlt ⊢
  rw [Nat.testBit_eq_decide_div_mod_eq, decide_eq_decide]
  have hdiv : number bytes / 2 ^ (8 * bytes.length - 1) < 2 := by
    rwa [Nat.div_lt_iff_lt_mul (by positivity)]
  rw [Nat.mod_eq_of_lt hdiv, Nat.div_eq_iff (by positivity)]
  omega

theorem double_number_reverse_cons (x : UInt8) (bytes : List UInt8) :
    256 ^ (x :: bytes).length ≤ 2 * number (x :: bytes).reverse ↔ x ≥ 0x80 := by
  have hlt := number_lt bytes.reverse
  rw [List.length_reverse] at hlt
  rw [List.reverse_cons, number_append, List.length_reverse, List.length_cons, Nat.pow_succ',
    ge_iff_le, UInt8.le_iff_toNat_le]
  show _ ≤ 2 * (_ + 256 ^ bytes.length * x.toNat) ↔ 128 ≤ x.toNat
  constructor
  · intro h
    by_contra hx
    have := Nat.mul_le_mul_left (256 ^ bytes.length) (show x.toNat ≤ 127 by omega)
    omega
  · intro hx
    have := Nat.mul_le_mul_left (256 ^ bytes.length) hx
    omega

namespace Column

variable {m x y : Nat} {c d : Bool}

theorem double (h : Column .plus m false x x y d) (hy : y < m) :
    y = 2 * x % m ∧ d = decide (m ≤ 2 * x) := by
  constructor
  · have hdigit := h.digit hy
    simp only [Sign.unit, Bool.toNat_false] at hdigit
    rw [show (x : Int) + 1 * (x + (0 : Nat)) = (2 * x : Nat) by push_cast; ring] at hdigit
    exact_mod_cast hdigit
  · rw [Bool.eq_iff_iff, h.carry_iff hy, decide_eq_true_iff, Sign.Overflows, Bool.toNat_false]
    omega

theorem halved (h : Column .plus m d y y x c) : 2 * y + d.toNat = x + m * c.toNat := by
  simp only [Column, Sign.unit] at h
  zify
  linarith

theorem bottom (h : Column .plus m d y y x c) (hm : 2 ∣ m) : d.toNat = x % 2 := by
  have hsum := h.halved
  have hd := Bool.toNat_lt d
  obtain ⟨k, rfl⟩ := hm
  rw [Nat.mul_assoc] at hsum
  omega

theorem half (h : Column .plus m d y y x false) : y = x / 2 := by
  have hsum := h.halved
  have hd := Bool.toNat_lt d
  rw [Bool.toNat_false, Nat.mul_zero] at hsum
  omega

/-- If the sign is what comes in at the top, the signed number is halved. -/
theorem half_signed (h : Column .plus m d y y x c) (hm : 4 ∣ m) (hx : x < m)
    (hc : c = decide (m ≤ 2 * x)) : (y : Int).bmod m = (x : Int).bmod m / 2 := by
  have hsum := h.halved
  have hd := Bool.toNat_lt d
  have hy : y < m := by
    cases c <;> simp at hsum hc <;> omega
  rw [Int.bmod_def, Int.bmod_def, Int.emod_eq_of_lt (by omega) (by omega),
    Int.emod_eq_of_lt (by omega) (by omega)]
  cases c <;> simp at hsum hc <;> split <;> split <;> omega

end Column

-- ---------------------------------------------------------------------------
-- The processor
-- ---------------------------------------------------------------------------

namespace Processor

variable {β : Type} [Bus β] {hole : UInt16 → Prop}

/-- The processor shifts next. The carry flag is `c`, and a register, or a cell that keeps
what is written there, holds `x` before that step and `y` after it. -/
structure Shifts (op : ShiftOp) (o : Operand) (c : Bool) (x y : UInt8) (p : Processor β) :
    Prop where
  decodes : ∃ d, p.decoded? = some d ∧ d.operation = .shift op o
  carry : p.registers.flags.carry = c
  value : o.value? p.bus p.registers = some x
  kept : o = .memory → ∀ v, Bus.read? (Bus.store p.bus p.registers.hl v) p.registers.hl = some v
  result : o.value? (step.after 1 p).bus (step.after 1 p).registers = some y

def ShiftsByte (op : ShiftOp) (c : Bool) (x y : UInt8) (p : Processor β) : Prop :=
  ∃ o, Shifts op o c x y p

def Doubles (c : Bool) (x y : UInt8) (p : Processor β) : Prop :=
  Column .plus 256 c x.toNat x.toNat y.toNat (step.after 1 p).registers.flags.carry

def Halves (c : Bool) (x y : UInt8) (p : Processor β) : Prop :=
  Column .plus 256 (step.after 1 p).registers.flags.carry y.toNat y.toNat x.toNat c

namespace ShiftsByte

variable {op : ShiftOp} {c d : Bool} {x y : UInt8} {p : Processor β}

theorem outcome (hb : Bus.HolesAt β hole) (h : ShiftsByte op c x y p) :
    y = (Alu.shift op x c).1 ∧
      (step.after 1 p).registers.flags = { zero := y == 0, carry := (Alu.shift op x c).2 } := by
  obtain ⟨o, hdecodes, rfl, hvalue, hkept, hresult⟩ := h
  have hperforms : Performs (.shift op) o ⟨x, p.registers.a, p.registers.flags⟩ p :=
    ⟨⟨hvalue, rfl, rfl⟩, hdecodes⟩
  obtain ⟨hflags, hy⟩ := hperforms.replaced hb rfl
  have hy : y = (Alu.shift op x p.registers.flags.carry).1 :=
    Option.some.inj (hresult.symm.trans (hy fun ho => hkept ho _))
  exact ⟨hy, hflags.trans (by rw [hy]; rfl)⟩

theorem doubles (hb : Bus.HolesAt β hole) (h : ShiftsByte op c x y p)
    (hop : Alu.shift op x c = Alu.shift .rl x d) : Doubles d x y p := by
  obtain ⟨hy, hflags⟩ := h.outcome hb
  rw [Doubles, hy, hflags, hop]
  exact Alu.column_shift_rl x d

theorem halves (hb : Bus.HolesAt β hole) (h : ShiftsByte op c x y p)
    (hop : Alu.shift op x c = Alu.shift .rr x d) : Halves d x y p := by
  obtain ⟨hy, hflags⟩ := h.outcome hb
  rw [Halves, hy, hflags, hop]
  exact Alu.column_shift_rr x d

end ShiftsByte

-- ---------------------------------------------------------------------------
-- Many bytes
-- ---------------------------------------------------------------------------

namespace Bytewise

variable {c : Bool} {xs ys : List UInt8} {ps : List (Processor β)} {q : Processor β}

/-- From the least significant byte on, the bytes are doubled as one number. -/
theorem column_double (h : Bytewise Doubles 1 c xs ys ps q) :
    Column .plus (256 ^ xs.length) c (number xs) (number xs) (number ys)
      q.registers.flags.carry := by
  induction h with
  | last hp =>
    simp only [List.length_singleton, Nat.pow_one, number_singleton]
    exact hp
  | more hp _ ih =>
    rw [List.length_cons, Nat.pow_succ']
    exact Column.beside hp ih

/-- From the most significant byte on, the bytes are halved as one number. -/
theorem column_half (h : Bytewise Halves 1 c xs ys ps q) :
    Column .plus (256 ^ xs.length) q.registers.flags.carry (number ys.reverse)
      (number ys.reverse) (number xs.reverse) c := by
  induction h with
  | last hp =>
    simp only [List.length_singleton, Nat.pow_one, List.reverse_singleton, number_singleton]
    exact hp
  | more hp hrest ih =>
    -- here the first byte is the upper column, and what it gives goes into the lower one
    simp only [List.reverse_cons, number_append, number_singleton, List.length_reverse,
      List.length_cons, hrest.length_eq, Nat.pow_succ]
    exact Column.beside ih hp

theorem restored {ys' : List UInt8} {ps' : List (Processor β)} {q' : Processor β}
    (h : Bytewise Doubles 1 c xs ys ps q)
    (h' : Bytewise Halves 1 q.registers.flags.carry ys.reverse ys' ps' q') :
    ys' = xs.reverse ∧ q'.registers.flags.carry = c := by
  have hlength : ys'.reverse.length = xs.length := by
    rw [List.length_reverse, h'.length_eq, List.length_reverse, h.length_eq]
  have hup := h.column_double.halved
  have hdown := h'.column_half.halved
  have hlow := Bool.toNat_lt c
  have hlow' := Bool.toNat_lt q'.registers.flags.carry
  rw [List.reverse_reverse, List.length_reverse, h.length_eq] at hdown
  constructor
  · rw [← List.reverse_eq_iff]
    exact number_inj hlength (by omega)
  · rw [← Bool.ofNat_toNat c, ← Bool.ofNat_toNat q'.registers.flags.carry]
    exact congrArg Bool.ofNat (by omega)

end Bytewise

/-- The first byte is shifted in one way, from the carry flag `c`, and each of the following
in another, from the carry flag that the one before left. -/
inductive Shifting (first next : ShiftOp) (c : Bool) :
    List UInt8 → List UInt8 → List (Processor β) → Processor β → Prop
  | alone {x y p} : ShiftsByte first c x y p →
      Shifting first next c [x] [y] [p] (step.after 1 p)
  | followed {x y p xs ys ps q} : ShiftsByte first c x y p →
      Bytewise (ShiftsByte next) 1 (step.after 1 p).registers.flags.carry xs ys ps q →
      Shifting first next c (x :: xs) (y :: ys) (p :: ps) q

namespace Shifting

variable {first next : ShiftOp} {ready : Bool → UInt8 → UInt8 → Processor β → Prop}
  {c d : Bool} {xs ys : List UInt8} {ps : List (Processor β)} {q : Processor β}

theorem ne_nil (h : Shifting first next c xs ys ps q) : xs ≠ [] := by
  cases h <;> exact List.cons_ne_nil _ _

theorem dvd_base (h : Shifting first next c xs ys ps q) : 4 ∣ 256 ^ xs.length :=
  dvd_pow (by decide) (List.length_pos_iff.mpr h.ne_nil).ne'

theorem bytewise (h : Shifting first next c xs ys ps q)
    (hfirst : ∀ x ∈ xs.head?, ∀ {y p}, ShiftsByte first c x y p → ready d x y p)
    (hnext : ∀ {c x y p}, ShiftsByte next c x y p → ready c x y p) :
    Bytewise ready 1 d xs ys ps q := by
  cases h with
  | alone hp => exact .last (hfirst _ rfl hp)
  | followed hp hrest => exact .more (hfirst _ rfl hp) (hrest.imp hnext)

section
variable (hb : Bus.HolesAt β hole)

include hb

theorem double (h : Shifting .sla .rl c xs ys ps q) :
    ys.length = xs.length ∧ number ys = 2 * number xs % 256 ^ xs.length ∧
      q.registers.flags.carry = (number xs).testBit (8 * xs.length - 1) := by
  have hbytes : Bytewise Doubles 1 false xs ys ps q :=
    h.bytewise (fun x _ _ _ hp => hp.doubles hb (Alu.shift_sla x c)) fun hp => hp.doubles hb rfl
  have hys : number ys < 256 ^ xs.length := hbytes.length_eq ▸ number_lt ys
  obtain ⟨hnumber, hcarry⟩ := hbytes.column_double.double hys
  exact ⟨hbytes.length_eq, hnumber, hcarry.trans (testBit_number h.ne_nil).symm⟩

theorem half (h : Shifting .srl .rr c xs ys ps q) :
    ys.length = xs.length ∧ number ys.reverse = number xs.reverse / 2 ∧
      q.registers.flags.carry.toNat = number xs.reverse % 2 := by
  have hbytes : Bytewise Halves 1 false xs ys ps q :=
    h.bytewise (fun x _ _ _ hp => hp.halves hb (Alu.shift_srl x c)) fun hp => hp.halves hb rfl
  exact ⟨hbytes.length_eq, hbytes.column_half.half,
    hbytes.column_half.bottom (.trans (by decide) h.dvd_base)⟩

theorem half_signed (h : Shifting .sra .rr c xs ys ps q) :
    ys.length = xs.length ∧
      (number ys.reverse : Int).bmod (256 ^ xs.length) =
        (number xs.reverse : Int).bmod (256 ^ xs.length) / 2 ∧
      q.registers.flags.carry.toNat = number xs.reverse % 2 := by
  have hbytes :
      Bytewise Halves 1 (decide (256 ^ xs.length ≤ 2 * number xs.reverse)) xs ys ps q := by
    refine h.bytewise (fun x hx _ _ hp => hp.halves hb ?_) fun hp => hp.halves hb rfl
    obtain ⟨bytes, rfl⟩ := List.head?_eq_some_iff.mp hx
    rw [Alu.shift_sra, decide_eq_decide.mpr (double_number_reverse_cons x bytes)]
  have hxs : number xs.reverse < 256 ^ xs.length := List.length_reverse ▸ number_lt xs.reverse
  exact ⟨hbytes.length_eq, hbytes.column_half.half_signed h.dvd_base hxs rfl,
    hbytes.column_half.bottom (.trans (by decide) h.dvd_base)⟩

end

end Shifting

-- ---------------------------------------------------------------------------
-- The accumulator
-- ---------------------------------------------------------------------------

theorem step_rotateAccumulator (hb : Bus.HolesAt β hole) {p : Processor β} {op : ShiftOp}
    (hop : (Bus.instructionAt p.bus p.registers.pc).operation = .rotateAccumulator op) :
    let (result, carry) := Alu.shift op p.registers.a p.registers.flags.carry
    (step.run p).result = .ok () ∧ (step.after 1 p).registers.a = result ∧
      (step.after 1 p).registers.flags = { carry } := by
  obtain ⟨hok, pc, hregisters⟩ :=
    step_updating hb hop rfl rfl (by simp) rfl fun _ _ _ => rfl
  rw [Action.after, Action.after, hregisters]
  exact ⟨hok, rfl, rfl⟩

/-- Shifting to the left from the least significant byte on doubles a number, and the carry
is its top bit in the end. Shifting to the right from the most significant byte on halves
it, as a signed one if the first shift keeps the sign, and the carry is its bottom bit in
the end. Rotating to the left through the carry doubles the number with the carry behind it,
and rotating to the right then restores both. Every such shift tells in the zero flag
whether the byte is zero, and clears the half-carry and subtract flags; the short forms for
the accumulator clear the zero flag as well. -/
theorem long_shifts (hb : Bus.HolesAt β hole) :
    (∀ (c : Bool) (xs ys : List UInt8) (ps : List (Processor β)) (q : Processor β),
      let n := xs.length
      let carry := q.registers.flags.carry
      (Shifting .sla .rl c xs ys ps q →
        ys.length = n ∧ number ys = 2 * number xs % 256 ^ n ∧
          carry = (number xs).testBit (8 * n - 1)) ∧
      (Shifting .srl .rr c xs ys ps q →
        ys.length = n ∧ number ys.reverse = number xs.reverse / 2 ∧
          carry.toNat = number xs.reverse % 2) ∧
      (Shifting .sra .rr c xs ys ps q →
        ys.length = n ∧
          (number ys.reverse : Int).bmod (256 ^ n) =
            (number xs.reverse : Int).bmod (256 ^ n) / 2 ∧
          carry.toNat = number xs.reverse % 2) ∧
      (Bytewise (ShiftsByte .rl) 1 c xs ys ps q →
        number ys + 256 ^ n * carry.toNat = 2 * number xs + c.toNat ∧
          ∀ ys' ps' (q' : Processor β), Bytewise (ShiftsByte .rr) 1 carry ys.reverse ys' ps' q' →
            ys' = xs.reverse ∧ q'.registers.flags.carry = c)) ∧
    (∀ op o s (p : Processor β), Performs (.shift op) o s p →
      let v := ((ByteOperation.shift op).apply s).operand
      let q := step.after 1 p
      (step.run p).result = .ok () ∧
        q.registers.flags =
          { zero := v == 0, subtract := false, halfCarry := false,
            carry := q.registers.flags.carry } ∧
        ((o = .memory →
            Bus.read? (Bus.store p.bus p.registers.hl v) p.registers.hl = some v) →
          o.value? q.bus q.registers = some v)) ∧
    ∀ op (p : Processor β),
      (Bus.instructionAt p.bus p.registers.pc).operation = .rotateAccumulator op →
      (step.run p).result = .ok () ∧
        ∀ y (p' : Processor β), ShiftsByte op p.registers.flags.carry p.registers.a y p' →
          (step.after 1 p).registers.a = y ∧
            (step.after 1 p).registers.flags =
              { (step.after 1 p').registers.flags with zero := false } := by
  refine ⟨fun c xs ys ps q => ?_, fun op o s p h => ?_, fun op p hop => ?_⟩
  · refine ⟨fun h => h.double hb, fun h => h.half hb, fun h => mod_cast h.half_signed hb,
      fun h => ?_⟩
    have hleft : Bytewise Doubles 1 c xs ys ps q := h.imp fun hp => hp.doubles hb rfl
    exact ⟨hleft.column_double.halved.symm, fun ys' ps' q' h' =>
      hleft.restored (h'.imp fun hp => hp.halves hb rfl)⟩
  · intro v q
    obtain ⟨hflags, hvalue⟩ := h.replaced hb rfl
    have hq : q.registers.flags = ((ByteOperation.shift op).apply s).flags := hflags
    exact ⟨h.ok hb, by rw [hq]; rfl, hvalue⟩
  · obtain ⟨hok, ha, hflags⟩ := step_rotateAccumulator hb hop
    refine ⟨hok, fun y p' h => ?_⟩
    obtain ⟨hy, hflags'⟩ := h.outcome hb
    rw [ha, hflags, hy, hflags']
    exact ⟨rfl, rfl⟩

def shiftingWord : Processor FlatMemory where
  bus := .withProgram 0 [0xCB, 0x23, 0xCB, 0x12, 0xCB, 0x2A, 0xCB, 0x1B, 0xCB, 0x13, 0xCB, 0x12,
    0xCB, 0x1A, 0xCB, 0x1B]
  registers := { d := 0xC0, e := 0x81, flags := { carry := true } }

theorem long_shifts_shiftingWord :
    let p := fun n => step.after n shiftingWord
    Shifting .sla .rl true [0x81, 0xC0] [0x02, 0x81] [p 0, p 1] (p 2) ∧
      number [0x02, 0x81] = 2 * 0xC081 % 65536 ∧ (p 2).registers.flags.carry = true ∧
      Shifting .sra .rr true [0x81, 0x02] [0xC0, 0x81] [p 2, p 3] (p 4) ∧
      (number [0x81, 0xC0] : Int).bmod 65536 = -32510 / 2 ∧
      (p 4).registers.flags.carry.toNat = 0 ∧
      Bytewise (ShiftsByte .rl) 1 false [0x81, 0xC0] [0x02, 0x81] [p 4, p 5] (p 6) ∧
      Bytewise (ShiftsByte .rr) 1 (p 6).registers.flags.carry [0x81, 0x02] [0xC0, 0x81]
        [p 6, p 7] (p 8) ∧
      (p 8).registers.flags.carry = false := by
  intro p
  have shifts {op : ShiftOp} {c : Bool} {x y : UInt8} (n : Nat) (r : ByteRegister)
      (h : ((p n).decoded?).map Decoded.operation = some (.shift op (.register r)) ∧
        (p n).registers.flags.carry = c ∧ (p n).registers.byte r = x ∧
        (step.after 1 (p n)).registers.byte r = y) : ShiftsByte op c x y (p n) :=
    ⟨.register r, Option.map_eq_some_iff.mp h.1, h.2.1, congrArg some h.2.2.1, nofun,
      congrArg some h.2.2.2⟩
  have hdouble : Shifting .sla .rl true [0x81, 0xC0] [0x02, 0x81] [p 0, p 1] (p 2) :=
    .followed (shifts 0 .e (by decide +kernel)) (.last (shifts 1 .d (by decide +kernel)))
  have hhalf : Shifting .sra .rr true [0x81, 0x02] [0xC0, 0x81] [p 2, p 3] (p 4) :=
    .followed (shifts 2 .d (by decide +kernel)) (.last (shifts 3 .e (by decide +kernel)))
  have hleft : Bytewise (ShiftsByte .rl) 1 false [0x81, 0xC0] [0x02, 0x81] [p 4, p 5] (p 6) :=
    .more (shifts 4 .e (by decide +kernel)) (.last (shifts 5 .d (by decide +kernel)))
  have hright : Bytewise (ShiftsByte .rr) 1 (p 6).registers.flags.carry [0x81, 0x02]
      [0xC0, 0x81] [p 6, p 7] (p 8) :=
    .more (shifts 6 .d (by decide +kernel)) (.last (shifts 7 .e (by decide +kernel)))
  obtain ⟨hruns, -⟩ := long_shifts (β := FlatMemory) .flatMemory
  obtain ⟨-, hnumber, hcarry⟩ := (hruns _ _ _ _ _).1 hdouble
  obtain ⟨-, hsigned, hbottom⟩ := (hruns _ _ _ _ _).2.2.1 hhalf
  obtain ⟨-, hright'⟩ := (hruns _ _ _ _ _).2.2.2 hleft
  obtain ⟨-, hrestored⟩ := hright' _ _ _ hright
  exact ⟨hdouble, hnumber.trans (by decide), hcarry.trans (by decide), hhalf,
    hsigned.trans (by decide), hbottom.trans (by decide), hleft, hright, hrestored⟩

end Processor

end Handheld
