import Handheld.Proofs.Repeating
import Handheld.Proofs.Success
import Mathlib.Data.Nat.Digits.Lemmas
import Mathlib.Tactic.LinearCombination

/-!
# Arithmetic on numbers of many bytes

Numbers are added and subtracted byte by byte, from the least significant one, each
byte with the carry that the one before left. As in written arithmetic every column
has a carry into it and a carry out of it, and columns side by side are one column of
a larger base. So what the operations do to one byte, they do to numbers of any length.
-/

namespace Handheld

inductive Sign where
  | plus
  | minus
  deriving DecidableEq, Repr

namespace Sign

def unit : Sign → Int
  | plus => 1
  | minus => -1

def carried : Sign → AluOp
  | plus => .adc
  | minus => .sbc

def plain : Sign → AluOp
  | plus => .add
  | minus => .sub

def combine : Sign → UInt8 → UInt8 → Bool → UInt8 × Flags
  | plus => Alu.sum
  | minus => Alu.difference

def Overflows (m : Nat) (c : Bool) (x y : Nat) : Sign → Prop
  | plus => m ≤ x + y + c.toNat
  | minus => x < y + c.toNat

instance {m x y : Nat} {c : Bool} : ∀ s : Sign, Decidable (s.Overflows m c x y)
  | plus => inferInstanceAs (Decidable (m ≤ x + y + c.toNat))
  | minus => inferInstanceAs (Decidable (x < y + c.toNat))

end Sign

-- ---------------------------------------------------------------------------
-- Columns
-- ---------------------------------------------------------------------------

/-- In base `m`, adding or subtracting `y` and the carry `c` leaves the digit `r` of `x`
and the carry `c'`. -/
def Column (s : Sign) (m : Nat) (c : Bool) (x y r : Nat) (c' : Bool) : Prop :=
  (r : Int) + s.unit * (m * c'.toNat) = x + s.unit * (y + c.toNat)

namespace Column

variable {s : Sign} {b m x y r x' y' r' : Nat} {c d e : Bool}

theorem beside (h : Column s b c x y r d) (h' : Column s m d x' y' r' e) :
    Column s (b * m) c (x + b * x') (y + b * y') (r + b * r') e := by
  unfold Column at h h' ⊢
  push_cast
  linear_combination h + b * h'

theorem digit (h : Column s m c x y r d) (hr : r < m) :
    (r : Int) = (x + s.unit * (y + c.toNat)) % m := by
  unfold Column at h
  rw [← h, mul_left_comm, Int.add_mul_emod_self_left, Int.emod_eq_of_lt (by omega) (by omega)]

theorem carry_iff (h : Column s m c x y r d) (hr : r < m) : d = true ↔ s.Overflows m c x y := by
  cases s <;> cases d <;> simp [Column, Sign.unit, Sign.Overflows] at h ⊢ <;> omega

theorem of_carry (hx : x < m) (hy : y < m)
    (hr : (r : Int) = (x + s.unit * (y + c.toNat)) % m) (hd : d = true ↔ s.Overflows m c x y) :
    Column s m c x y r d := by
  have hc := Bool.toNat_le c
  -- without the base, where it overflowed, the result is in range
  have hrange : 0 ≤ x + s.unit * (y + c.toNat) - m * (s.unit * d.toNat) ∧
      x + s.unit * (y + c.toNat) - m * (s.unit * d.toNat) < m := by
    cases s <;> cases d <;> simp [Sign.unit, Sign.Overflows] at hd ⊢ <;> omega
  rw [← Int.sub_mul_emod_self_left _ _ (s.unit * d.toNat),
    Int.emod_eq_of_lt hrange.1 hrange.2] at hr
  unfold Column
  linear_combination hr

theorem exists_digit (hx : x < m) (hy : y < m) (hd : d = true ↔ s.Overflows m c x y) :
    ∃ r < m, Column s m c x y r d := by
  have hm : (0 : Int) < m := by omega
  have hnonneg := Int.emod_nonneg (x + s.unit * (y + c.toNat)) hm.ne'
  have hlt := Int.emod_lt_of_pos (x + s.unit * (y + c.toNat)) hm
  exact ⟨_, (Int.toNat_lt hnonneg).mpr hlt, .of_carry hx hy (Int.toNat_of_nonneg hnonneg) hd⟩

end Column

namespace Sign

variable (s : Sign) (x y : UInt8) (c : Bool)

theorem toNat_combine :
    ((s.combine x y c).1.toNat : Int) = (x.toNat + s.unit * (y.toNat + c.toNat)) % 256 := by
  have hc := Bool.toNat_le c
  have hx := x.toNat_lt
  have hy := y.toNat_lt
  cases s with
  | plus =>
    simp only [combine, Alu.sum, unit, UInt8.toNat_add, UInt8.toNat_ofNat']
    omega
  | minus =>
    simp only [combine, Alu.difference, unit, UInt8.toNat_sub, UInt8.toNat_ofNat']
    omega

theorem column_combine :
    Column s 256 c x.toNat y.toNat (s.combine x y c).1.toNat (s.combine x y c).2.carry := by
  refine .of_carry x.toNat_lt y.toNat_lt (toNat_combine s x y c) ?_
  cases s <;> exact decide_eq_true_iff

theorem column_combine_low :
    Column s 16 c (x.toNat % 16) (y.toNat % 16) ((s.combine x y c).1.toNat % 16)
      (s.combine x y c).2.halfCarry := by
  refine .of_carry (Nat.mod_lt _ (by decide)) (Nat.mod_lt _ (by decide)) ?_ ?_
  · have h := toNat_combine s x y c
    cases s <;> simp only [unit] at h ⊢ <;> omega
  · cases s <;> exact decide_eq_true_iff

theorem zero_combine : (s.combine x y c).2.zero = ((s.combine x y c).1 == 0) := by
  cases s <;> rfl

theorem subtract_combine : (s.combine x y c).2.subtract = (s == minus) := by
  cases s <;> rfl

end Sign

-- ---------------------------------------------------------------------------
-- One byte
-- ---------------------------------------------------------------------------

namespace Processor

variable {β : Type} [Bus β] {hole : UInt16 → Prop} {p : Processor β}

/-- The accumulator operation at the program counter and the byte that it takes, if the
bus answers where it lies. -/
def arithmetic? (p : Processor β) : Option (AluOp × UInt8) :=
  match (Bus.instructionAt p.bus p.registers.pc).operation with
  | .alu op (.register x) => some (op, p.registers.byte x)
  | .alu op .memory => (Bus.read? p.bus p.registers.hl).map fun v => (op, v)
  | .aluLiteral op => (Bus.read? p.bus (p.registers.pc + 1)).map fun v => (op, v)
  | _ => none

section
variable {op : AluOp} {v : UInt8}

theorem arithmetic?_cases (h : p.arithmetic? = some (op, v)) :
    let d := Bus.instructionAt p.bus p.registers.pc
    (∃ x, d.operation = .alu op (.register x) ∧ v = p.registers.byte x) ∨
      (d.operation = .alu op .memory ∧ Bus.read? p.bus p.registers.hl = some v) ∨
      (d.operation = .aluLiteral op ∧ Bus.read? p.bus (p.registers.pc + 1) = some v) := by
  intro d
  unfold arithmetic? at h
  split at h
  · rename_i x hop
    cases h
    exact .inl ⟨x, hop, rfl⟩
  · rename_i hop
    obtain ⟨_, hread, hv⟩ := Option.map_eq_some_iff.mp h
    cases hv
    exact .inr (.inl ⟨hop, hread⟩)
  · rename_i hop
    obtain ⟨_, hread, hv⟩ := Option.map_eq_some_iff.mp h
    cases hv
    exact .inr (.inr ⟨hop, hread⟩)
  · cases h

theorem ok_of_arithmetic (hb : Bus.HolesAt β hole) (h : p.arithmetic? = some (op, v)) :
    (step.run p).result = .ok () := by
  rcases arithmetic?_cases h with ⟨x, hop, -⟩ | ⟨hop, hread⟩ | ⟨hop, hread⟩
  · exact ok_of_operation hb hop rfl rfl (by simp) (List.forall_mem_nil _)
  · exact ok_of_operation hb hop rfl rfl (by simp)
      (List.forall_mem_singleton.mpr (Option.isSome_of_mem hread))
  · exact ok_of_operation hb hop rfl rfl (by simp)
      (List.forall_mem_singleton.mpr (Option.isSome_of_mem hread))

theorem registers_of_arithmetic (h : p.arithmetic? = some (op, v))
    (hok : (step.run p).result = .ok ()) :
    ∃ pc, (step.run p).state.registers = { p.registers with pc }.accumulate op v := by
  refine ⟨p.registers.pc + UInt16.ofNat (Bus.instructionAt p.bus p.registers.pc).size, ?_⟩
  rw [(Reached.of_step rfl hok).1, Decoded.effect]
  rcases arithmetic?_cases h with ⟨x, hop, rfl⟩ | ⟨hop, hread⟩ | ⟨hop, hread⟩
  · rw [hop]
    cases x <;> rfl
  · rw [hop, ← Bus.peek_of_read? hread]
    rfl
  · rw [hop, ← Bus.peek_of_read? hread,
      ← (Bus.instructionAt_byte rfl (by rw [hop]; rfl) (by rw [hop]; rfl)).1]
    rfl

end

/-- The processor adds or subtracts next: `x` is in the accumulator, and the instruction
takes `y` and the carry `c`. Where `c` is clear it may be the one that takes no carry. -/
structure Ready (s : Sign) (c : Bool) (x y : UInt8) (p : Processor β) : Prop where
  accumulator : p.registers.a = x
  instruction : (p.arithmetic? = some (s.carried, y) ∧ p.registers.flags.carry = c) ∨
    (p.arithmetic? = some (s.plain, y) ∧ c = false)

namespace Ready

variable {s : Sign} {c : Bool} {x y : UInt8}

theorem ok (hb : Bus.HolesAt β hole) (h : Ready s c x y p) : (step.run p).result = .ok () :=
  h.instruction.elim (fun h => ok_of_arithmetic hb h.1) fun h => ok_of_arithmetic hb h.1

theorem registers (hb : Bus.HolesAt β hole) (h : Ready s c x y p) :
    (step.after 1 p).registers.a = (s.combine x y c).1 ∧
      (step.after 1 p).registers.flags = (s.combine x y c).2 := by
  have hok := h.ok hb
  obtain ⟨rfl, ⟨hp, rfl⟩ | ⟨hp, rfl⟩⟩ := h
  all_goals
    obtain ⟨pc, hregisters⟩ := registers_of_arithmetic hp hok
    rw [Action.after, Action.after, hregisters]
    cases s <;> exact ⟨rfl, rfl⟩

theorem column (hb : Bus.HolesAt β hole) (h : Ready s c x y p) :
    Column s 256 c x.toNat y.toNat (step.after 1 p).registers.a.toNat
      (step.after 1 p).registers.flags.carry := by
  obtain ⟨ha, hflags⟩ := h.registers hb
  rw [ha, hflags]
  exact Sign.column_combine s x y c

theorem column_low (hb : Bus.HolesAt β hole) (h : Ready s c x y p) :
    Column s 16 c (x.toNat % 16) (y.toNat % 16) ((step.after 1 p).registers.a.toNat % 16)
      (step.after 1 p).registers.flags.halfCarry := by
  obtain ⟨ha, hflags⟩ := h.registers hb
  rw [ha, hflags]
  exact Sign.column_combine_low s x y c

theorem zero_subtract (hb : Bus.HolesAt β hole) (h : Ready s c x y p) :
    (step.after 1 p).registers.flags.zero = ((step.after 1 p).registers.a == 0) ∧
      (step.after 1 p).registers.flags.subtract = (s == .minus) := by
  obtain ⟨ha, hflags⟩ := h.registers hb
  rw [ha, hflags]
  exact ⟨Sign.zero_combine s x y c, Sign.subtract_combine s x y c⟩

end Ready

-- ---------------------------------------------------------------------------
-- Many bytes
-- ---------------------------------------------------------------------------

/-- Bytes are dealt with one after the other, in `k` steps each, with the carry that the
one before left. Whatever happens in between may do anything but change it. The processors
are those at which a byte is begun, and the one that is left at the end. -/
inductive Bytewise (ready : Bool → UInt8 → UInt8 → Processor β → Prop) (k : Nat) :
    Bool → List UInt8 → List UInt8 → List (Processor β) → Processor β → Prop
  | last {c x y p} : ready c x y p → Bytewise ready k c [x] [y] [p] (step.after k p)
  | more {c x y p xs ys ps q} : ready c x y p →
      Bytewise ready k (step.after k p).registers.flags.carry xs ys ps q →
      Bytewise ready k c (x :: xs) (y :: ys) (p :: ps) q

def results (k : Nat) (ps : List (Processor β)) : List UInt8 :=
  ps.map fun p => (step.after k p).registers.a

namespace Bytewise

variable {ready ready' : Bool → UInt8 → UInt8 → Processor β → Prop} {k : Nat} {s : Sign}
  {c : Bool} {xs ys : List UInt8} {ps : List (Processor β)} {q : Processor β}

theorem imp (h : Bytewise ready k c xs ys ps q)
    (himp : ∀ {c x y p}, ready c x y p → ready' c x y p) : Bytewise ready' k c xs ys ps q := by
  induction h with
  | last hp => exact .last (himp hp)
  | more hp _ ih => exact .more (himp hp) ih

theorem length_eq (h : Bytewise ready k c xs ys ps q) : ys.length = xs.length := by
  induction h with
  | last _ => rfl
  | more _ _ ih => exact congrArg (· + 1) ih

theorem length_results (h : Bytewise ready k c xs ys ps q) :
    (results k ps).length = xs.length := by
  induction h with
  | last _ => rfl
  | more _ _ ih => exact congrArg (· + 1) ih

theorem forall_mem {P : Processor β → Prop} (h : Bytewise ready k c xs ys ps q)
    (hP : ∀ {c x y p}, ready c x y p → P p) : ∀ p ∈ ps, P p := by
  induction h with
  | last hp => exact List.forall_mem_singleton.mpr (hP hp)
  | more hp _ ih => exact List.forall_mem_cons.mpr ⟨hP hp, ih⟩

theorem and_forall {P : UInt8 → Prop} (h : Bytewise ready k c xs ys ps q) (hxs : ∀ x ∈ xs, P x)
    (hys : ∀ y ∈ ys, P y) :
    Bytewise (fun c x y p => ready c x y p ∧ P x ∧ P y) k c xs ys ps q := by
  induction h with
  | last hp => exact .last ⟨hp, List.forall_mem_singleton.mp hxs, List.forall_mem_singleton.mp hys⟩
  | more hp _ ih =>
    obtain ⟨hx, hxs⟩ := List.forall_mem_cons.mp hxs
    obtain ⟨hy, hys⟩ := List.forall_mem_cons.mp hys
    exact .more ⟨hp, hx, hy⟩ (ih hxs hys)

theorem column {b : Nat} {digit : UInt8 → Nat} (h : Bytewise ready k c xs ys ps q)
    (hready : ∀ {c x y p}, ready c x y p → Column s b c (digit x) (digit y)
      (digit (step.after k p).registers.a) (step.after k p).registers.flags.carry) :
    Column s (b ^ xs.length) c (Nat.ofDigits b (xs.map digit)) (Nat.ofDigits b (ys.map digit))
      (Nat.ofDigits b ((results k ps).map digit)) q.registers.flags.carry := by
  induction h with
  | last hp => simpa [results] using hready hp
  | more hp _ ih =>
    rw [List.length_cons, Nat.pow_succ']
    exact (hready hp).beside ih

end Bytewise

end Processor

-- ---------------------------------------------------------------------------
-- Numbers
-- ---------------------------------------------------------------------------

/-- The number that bytes stand for, the least significant one first. -/
def number (bytes : List UInt8) : Nat := Nat.ofDigits 256 (bytes.map UInt8.toNat)

theorem number_cons (v : UInt8) (bytes : List UInt8) :
    number (v :: bytes) = v.toNat + 256 * number bytes := rfl

theorem number_lt (bytes : List UInt8) : number bytes < 256 ^ bytes.length := by
  have h : ∀ d ∈ bytes.map UInt8.toNat, d < 256 :=
    List.forall_mem_map.mpr fun v _ => v.toNat_lt
  simpa [number] using Nat.ofDigits_lt_base_pow_length (by decide) h

theorem number_singleton (v : UInt8) : number [v] = v.toNat :=
  Nat.ofDigits_singleton

theorem number_append (low high : List UInt8) :
    number (low ++ high) = number low + 256 ^ low.length * number high := by
  rw [number, List.map_append, Nat.ofDigits_append, List.length_map]
  rfl

theorem number_inj {xs ys : List UInt8} (hlength : xs.length = ys.length)
    (h : number xs = number ys) : xs = ys := by
  have hlt (bytes : List UInt8) : ∀ d ∈ bytes.map UInt8.toNat, d < 256 :=
    List.forall_mem_map.mpr fun v _ => v.toNat_lt
  refine List.map_injective_iff.mpr (fun _ _ => UInt8.toNat_inj.mp) ?_
  exact Nat.ofDigits_inj_of_len_eq (by decide) (by simpa using hlength) (hlt xs) (hlt ys) h

theorem number_cons_mod (v : UInt8) (bytes : List UInt8) (m : Nat) :
    number (v :: bytes) % (256 * m) = v.toNat + 256 * (number bytes % m) := by
  have hv := v.toNat_lt
  rw [number_cons, Nat.mod_mul, Nat.add_mul_mod_self_left, Nat.mod_eq_of_lt hv,
    Nat.add_mul_div_left _ _ (by decide), Nat.div_eq_of_lt hv, Nat.zero_add]

namespace Processor

variable {β : Type} [Bus β] {hole : UInt16 → Prop} {s : Sign} {c : Bool} {xs ys : List UInt8}
  {ps : List (Processor β)} {q : Processor β}

theorem Bytewise.column_low (hb : Bus.HolesAt β hole) (h : Bytewise (Ready s) 1 c xs ys ps q) :
    let m := 256 ^ (xs.length - 1) * 16
    Column s m c (number xs % m) (number ys % m) (number (results 1 ps) % m)
      q.registers.flags.halfCarry := by
  induction h with
  | last hp => simpa [number, results] using hp.column_low hb
  | @more c x y p xs ys ps q hp hrest ih =>
    have hlength : xs.length = xs.length - 1 + 1 := by
      cases hrest <;> rfl
    have hm : 256 ^ ((x :: xs).length - 1) * 16 = 256 * (256 ^ (xs.length - 1) * 16) := by
      rw [List.length_cons, Nat.add_sub_cancel, hlength, Nat.pow_succ', Nat.mul_assoc,
        Nat.add_sub_cancel]
    -- the low part of a number is its first byte and the low part of the rest
    simp only [hm, results, List.map_cons, number_cons_mod]
    exact (hp.column hb).beside ih

/-- Adding or subtracting byte by byte gives the bytes of the sum or difference. The carry
at the end tells whether all of it overflowed, and the half-carry whether all but the high
nibble of the last byte did. -/
theorem long_arithmetic (hb : Bus.HolesAt β hole) (h : Bytewise (Ready s) 1 c xs ys ps q) :
    let n := xs.length
    let m := 2 ^ (8 * (n - 1) + 4)
    (∀ p ∈ ps, (step.run p).result = .ok () ∧
      (step.after 1 p).registers.flags.zero = ((step.after 1 p).registers.a == 0) ∧
      (step.after 1 p).registers.flags.subtract = (s == .minus)) ∧
    (results 1 ps).length = n ∧
    (number (results 1 ps) : Int) =
      (number xs + s.unit * (number ys + c.toNat)) % (256 ^ n : Nat) ∧
    (q.registers.flags.carry = true ↔ s.Overflows (256 ^ n) c (number xs) (number ys)) ∧
    (q.registers.flags.halfCarry = true ↔ s.Overflows m c (number xs % m) (number ys % m)) := by
  intro n m
  have hlength : (results 1 ps).length = n := h.length_results
  have hlt : number (results 1 ps) < 256 ^ n := hlength ▸ number_lt _
  have hcolumn : Column s (256 ^ n) c (number xs) (number ys) (number (results 1 ps))
      q.registers.flags.carry := h.column fun hp => hp.column hb
  have hm : 256 ^ (n - 1) * 16 = m := by
    show _ = 2 ^ (8 * (n - 1) + 4)
    rw [Nat.pow_add, Nat.pow_mul]
  refine ⟨h.forall_mem fun hp => ⟨hp.ok hb, hp.zero_subtract hb⟩, hlength, hcolumn.digit hlt,
    hcolumn.carry_iff hlt, ?_⟩
  rw [← hm]
  exact (h.column_low hb).carry_iff (Nat.mod_lt _ (by positivity))

def addingWords : Processor FlatMemory where
  bus := .withProgram 0 [0x3E, 0xFF, 0xC6, 0x01, 0x3E, 0x0F, 0xCE, 0xF0]

theorem long_arithmetic_addingWords :
    let ps := [step.after 1 addingWords, step.after 3 addingWords]
    let q := step.after 1 (step.after 3 addingWords)
    Bytewise (Ready .plus) 1 false [0xFF, 0x0F] [0x01, 0xF0] ps q ∧
      (number (results 1 ps) : Int) = 0 ∧ q.registers.flags.carry = true ∧
      q.registers.flags.halfCarry = true := by
  intro ps q
  have hlow : Ready .plus false 0xFF 0x01 (step.after 1 addingWords) :=
    ⟨by decide +kernel, .inr ⟨by decide +kernel, rfl⟩⟩
  have hhigh : Ready .plus (step.after 1 (step.after 1 addingWords)).registers.flags.carry
      0x0F 0xF0 (step.after 3 addingWords) :=
    ⟨by decide +kernel, .inl ⟨by decide +kernel, by decide +kernel⟩⟩
  have h : Bytewise (Ready .plus) 1 false [0xFF, 0x0F] [0x01, 0xF0] ps q := .more hlow (.last hhigh)
  obtain ⟨-, -, hnumber, hcarry, hhalfCarry⟩ := long_arithmetic .flatMemory h
  exact ⟨h, hnumber.trans (by decide), hcarry.mpr (by decide), hhalfCarry.mpr (by decide)⟩

end Processor

end Handheld
