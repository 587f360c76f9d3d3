import Handheld.Proofs.LongArithmetic

/-!
# Arithmetic on words

Two words are added at once, or byte by byte in the accumulator, the low bytes first. Both
ways give the same word, and the flags of the one can be told from those of the other:
where whole words are added they are those that the high bytes leave, where an offset is
added to the stack pointer those that the low bytes leave.
-/

namespace Handheld

-- ---------------------------------------------------------------------------
-- Bytes of words
-- ---------------------------------------------------------------------------

theorem Word.toNat_eq (w : UInt16) : w.toNat = (low w).toNat + 256 * (high w).toNat := by
  rw [toNat_low, toNat_high]
  omega

namespace Byte

theorem low_signExtend (e : UInt8) : Word.low (signExtend e) = e := by
  unfold signExtend
  split
  · exact UInt8.toNat_inj.mp (by simp [Word.low])
  · exact Word.low_ofBytes _ _

theorem high_signExtend (e : UInt8) :
    Word.high (signExtend e) = if e < 0x80 then 0x00 else 0xFF := by
  have he := e.toNat_lt
  unfold signExtend
  split
  · refine UInt8.toNat_inj.mp ?_
    rw [Word.toNat_high, UInt8.toNat_toUInt16, Nat.div_eq_of_lt he]
    rfl
  · exact Word.high_ofBytes _ _

theorem toNat_signExtend (e : UInt8) : ((signExtend e).toNat : Int) = signed e % 65536 := by
  have he := e.toNat_lt
  unfold signExtend signed
  split
  · rw [UInt8.toNat_toUInt16]
    omega
  · rw [Word.toNat_ofBytes, show (0xFF : UInt8).toNat = 255 from rfl]
    omega

end Byte

-- ---------------------------------------------------------------------------
-- Sums
-- ---------------------------------------------------------------------------

namespace Registers

/-- The registers once `low` was added in the accumulator to the low byte of a word, and
once `high` and the carry were then added to its high byte. -/
def addBytes (x : UInt16) (low high : UInt8) (r : Registers) : Registers × Registers :=
  let first := { r with a := Word.low x }.accumulate .add low
  (first, { first with a := Word.high x }.accumulate .adc high)

variable {x y : UInt16} {r first second : Registers}
  (h : r.addBytes x (Word.low y) (Word.high y) = (first, second))

include h

theorem column_addBytes :
    Column .plus 65536 false x.toNat y.toNat (first.a.toNat + 256 * second.a.toNat)
      second.flags.carry := by
  cases h
  rw [Word.toNat_eq x, Word.toNat_eq y]
  exact (Sign.column_combine .plus _ _ false).beside (Sign.column_combine .plus _ _ _)

theorem column_addBytes_low :
    Column .plus 4096 false (x.toNat % 4096) (y.toNat % 4096)
      (first.a.toNat + 256 * (second.a.toNat % 16)) second.flags.halfCarry := by
  have hmod (w : UInt16) :
      w.toNat % 4096 = (Word.low w).toNat + 256 * ((Word.high w).toNat % 16) := by
    rw [Word.toNat_low, Word.toNat_high]
    omega
  cases h
  rw [hmod x, hmod y]
  exact (Sign.column_combine .plus _ _ false).beside (Sign.column_combine_low .plus _ _ _)

theorem ofBytes_addBytes : Word.ofBytes second.a first.a = x + y := by
  have hlow := first.a.toNat_lt
  have hhigh := second.a.toNat_lt
  have hdigit := (column_addBytes h).digit (by omega)
  apply UInt16.toNat_inj.mp
  rw [UInt16.toNat_add, Word.toNat_ofBytes]
  simp only [Sign.unit, Bool.toNat_false] at hdigit
  omega

theorem sumWords_eq (f : Flags) :
    Alu.sumWords x y f =
      (Word.ofBytes second.a first.a,
        { zero := f.zero, halfCarry := second.flags.halfCarry, carry := second.flags.carry }) := by
  have hlow := first.a.toNat_lt
  have hhigh := second.a.toNat_lt
  have hcarry : second.flags.carry = decide (x.toNat + y.toNat > 65535) := by
    rw [Bool.eq_iff_iff, (column_addBytes h).carry_iff (by omega), decide_eq_true_iff]
    exact Nat.lt_iff_add_one_le.symm
  have hhalf : second.flags.halfCarry =
      decide (x.toNat % 4096 + y.toNat % 4096 > 4095) := by
    rw [Bool.eq_iff_iff, (column_addBytes_low h).carry_iff (by omega), decide_eq_true_iff]
    exact Nat.lt_iff_add_one_le.symm
  rw [ofBytes_addBytes h, hcarry, hhalf, Alu.sumWords]

omit h in
theorem offsetWord_eq {e : UInt8}
    (h : r.addBytes x e (if e < 0x80 then 0x00 else 0xFF) = (first, second)) :
    Alu.offsetWord x e =
      (Word.ofBytes second.a first.a,
        { halfCarry := first.flags.halfCarry, carry := first.flags.carry }) := by
  have hbytes : r.addBytes x (Word.low (Byte.signExtend e)) (Word.high (Byte.signExtend e)) =
      (first, second) := by
    rw [Byte.low_signExtend, Byte.high_signExtend, h]
  rw [ofBytes_addBytes hbytes, Alu.offsetWord]
  cases h
  simp only [accumulate, Alu.compute, Alu.sum, Word.toNat_low, Bool.toNat_false, Nat.add_zero,
    Nat.mod_mod_of_dvd _ (show 16 ∣ 256 by decide)]

omit h in
theorem addHL_eq {source : WordRegister} (h : r.addBytes r.hl (Word.low (r.word source))
    (Word.high (r.word source)) = (first, second)) :
    (r.addHL source).l = first.a ∧ (r.addHL source).h = second.a ∧
      (r.addHL source).flags =
        { zero := r.flags.zero, halfCarry := second.flags.halfCarry,
          carry := second.flags.carry } := by
  rw [addHL, sumWords_eq h]
  exact ⟨Word.low_ofBytes _ _, Word.high_ofBytes _ _, rfl⟩

end Registers

-- ---------------------------------------------------------------------------
-- The processor
-- ---------------------------------------------------------------------------

namespace Processor

variable {β : Type} [Bus β] {hole : UInt16 → Prop} {p : Processor β}

/-- A processor that adds the bytes of a word, low byte first, does what `addBytes` says,
whatever else it does in between. -/
theorem Bytewise.addBytes (hb : Bus.HolesAt β hole) {x : UInt16} {low high : UInt8}
    {p₁ p₂ q : Processor β}
    (h : Bytewise (Ready .plus) 1 false [Word.low x, Word.high x] [low, high] [p₁, p₂] q)
    (r : Registers) :
    let sum := r.addBytes x low high
    ((step.after 1 p₁).registers.a = sum.1.a ∧ (step.after 1 p₁).registers.flags = sum.1.flags) ∧
      q.registers.a = sum.2.a ∧ q.registers.flags = sum.2.flags := by
  cases h with
  | more hlow hrest =>
    cases hrest with
    | more _ hnone => cases hnone
    | last hhigh =>
      have hfirst := hlow.registers hb
      rw [hfirst.2] at hhigh
      exact ⟨hfirst, hhigh.registers hb⟩

section
variable (hb : Bus.HolesAt β hole)

include hb

theorem step_addHL {source : WordRegister}
    (hop : (Bus.instructionAt p.bus p.registers.pc).operation = .addHL source) :
    (step.run p).result = .ok () ∧ ∃ pc,
      (step.run p).state.registers = { p.registers.addHL source with pc } := by
  obtain ⟨hok, pc, hregisters⟩ :=
    step_updating hb hop rfl rfl (by simp) rfl fun _ _ _ => rfl
  refine ⟨hok, pc, hregisters.trans ?_⟩
  cases source <;> rfl

theorem step_offset {op : Operation} {e : UInt8}
    (hop : (Bus.instructionAt p.bus p.registers.pc).operation = op)
    (hoffset : op = .hlFromStackPointer ∨ op = .addStackPointer)
    (hread : Bus.read? p.bus (p.registers.pc + 1) = some e) :
    (step.run p).result = .ok () ∧ ∃ pc, (step.run p).state.registers =
      { (op.effect (.byte e) (Bus.peek p.bus) p.registers).registers with pc } := by
  have hattempts : ∀ a ∈ [(Direction.read, p.registers.pc + 1)],
      (Bus.read? p.bus a.2).isSome = true :=
    List.forall_mem_singleton.mpr (Option.isSome_of_mem hread)
  rcases hoffset with rfl | rfl
  all_goals
    have hok : (step.run p).result = .ok () :=
      ok_of_operation hb hop rfl rfl (by simp) hattempts
    have hbyte := (Bus.instructionAt_byte rfl (by rw [hop]; rfl) (by rw [hop]; rfl)).1
    refine ⟨hok, p.registers.pc + UInt16.ofNat (Bus.instructionAt p.bus p.registers.pc).size, ?_⟩
    rw [(Reached.of_step rfl hok).1, Decoded.effect, hop, Operation.effect, hbyte,
      Bus.peek_of_read? hread]
    rfl

end

/-- Adding words agrees with adding their bytes in the accumulator, which a processor does
as `addBytes` says. Adding a word to HL gives the bytes of that sum, its carry and
half-carry, and keeps the zero flag. Adding a signed offset to the stack pointer gives the
bytes that come of adding it with its sign as the high byte, and the carry and half-carry
of the low bytes. -/
theorem word_arithmetic (hb : Bus.HolesAt β hole) (p : Processor β) :
    let r := p.registers
    let op := (Bus.instructionAt p.bus r.pc).operation
    let o := step.run p
    (∀ x low high p₁ p₂ q,
      Bytewise (Ready (β := β) .plus) 1 false [Word.low x, Word.high x] [low, high] [p₁, p₂] q →
      let sum := r.addBytes x low high
      ((step.after 1 p₁).registers.a = sum.1.a ∧
        (step.after 1 p₁).registers.flags = sum.1.flags) ∧
        q.registers.a = sum.2.a ∧ q.registers.flags = sum.2.flags) ∧
    (∀ source, op = .addHL source →
      let sum := r.addBytes r.hl (Word.low (r.word source)) (Word.high (r.word source))
      o.result = .ok () ∧ o.state.registers.l = sum.1.a ∧ o.state.registers.h = sum.2.a ∧
        o.state.registers.flags =
          { zero := r.flags.zero, subtract := false, halfCarry := sum.2.flags.halfCarry,
            carry := sum.2.flags.carry }) ∧
    ∀ e, Bus.read? p.bus (r.pc + 1) = some e →
      let sum := r.addBytes r.sp e (if e < 0x80 then 0x00 else 0xFF)
      let w := Word.ofBytes sum.2.a sum.1.a
      let flags : Flags :=
        { zero := false, subtract := false, halfCarry := sum.1.flags.halfCarry,
          carry := sum.1.flags.carry }
      (w.toNat : Int) = (r.sp.toNat + Byte.signed e) % 65536 ∧
        (op = .hlFromStackPointer →
          o.result = .ok () ∧ o.state.registers.hl = w ∧ o.state.registers.flags = flags) ∧
        (op = .addStackPointer →
          o.result = .ok () ∧ o.state.registers.sp = w ∧ o.state.registers.flags = flags) := by
  intro r op o
  refine ⟨fun x low high p₁ p₂ q h => h.addBytes hb r, fun source hop => ?_, fun e hread => ?_⟩
  · obtain ⟨hok, pc, hregisters⟩ := step_addHL hb hop
    dsimp only [o]
    rw [hregisters]
    exact ⟨hok, Registers.addHL_eq rfl⟩
  · intro sum w flags
    have hsum : Alu.offsetWord r.sp e = (w, flags) := Registers.offsetWord_eq rfl
    refine ⟨?_, fun hop => ?_, fun hop => ?_⟩
    · have hoffset := Byte.toNat_signExtend e
      rw [← show r.sp + Byte.signExtend e = w from congrArg Prod.fst hsum, UInt16.toNat_add]
      omega
    · obtain ⟨hok, pc, hregisters⟩ := step_offset hb hop (.inl rfl) hread
      dsimp only [o]
      rw [hregisters, Operation.effect, Literal.toByte, Registers.hlFromStackPointer, hsum]
      exact ⟨hok, Word.ofBytes_high_low w, rfl⟩
    · obtain ⟨hok, pc, hregisters⟩ := step_offset hb hop (.inr rfl) hread
      dsimp only [o]
      rw [hregisters, Operation.effect, Literal.toByte, Registers.addStackPointer, hsum]
      exact ⟨hok, rfl, rfl⟩

def addingAtOnce : Processor FlatMemory where
  bus := .withProgram 0 [0x19, 0xE8, 0xFE]
  registers := { h := 0x0F, l := 0xFF, d := 0xF0, e := 0x01, sp := 0x0001 }

theorem word_arithmetic_addingAtOnce :
    let p₁ := step.after 1 addingWords
    let p₂ := step.after 3 addingWords
    let p := step.after 1 addingAtOnce
    Bytewise (Ready .plus) 1 false [0xFF, 0x0F] [0x01, 0xF0] [p₁, p₂] (step.after 1 p₂) ∧
      p.registers.l = (step.after 1 p₁).registers.a ∧
      p.registers.h = (step.after 1 p₂).registers.a ∧
      p.registers.flags = { halfCarry := true, carry := true } ∧
      (step.run p).state.registers.sp = 0xFFFF ∧ (step.run p).state.registers.flags = {} := by
  intro p₁ p₂ p
  have hlow : Ready .plus false 0xFF 0x01 p₁ :=
    ⟨by decide +kernel, .inr ⟨by decide +kernel, rfl⟩⟩
  have hhigh : Ready .plus (step.after 1 p₁).registers.flags.carry 0x0F 0xF0 p₂ :=
    ⟨by decide +kernel, .inl ⟨by decide +kernel, by decide +kernel⟩⟩
  have h : Bytewise (Ready .plus) 1 false [0xFF, 0x0F] [0x01, 0xF0] [p₁, p₂] (step.after 1 p₂) :=
    .more hlow (.last hhigh)
  obtain ⟨hbytes, hwords, -⟩ := word_arithmetic .flatMemory addingAtOnce
  obtain ⟨-, -, hoffset⟩ := word_arithmetic .flatMemory p
  obtain ⟨⟨hfirst, -⟩, hsecond, -⟩ := hbytes 0x0FFF 0x01 0xF0 p₁ p₂ (step.after 1 p₂) h
  obtain ⟨-, hl, hh, hflags⟩ := hwords .de (by decide +kernel)
  obtain ⟨-, -, hsp⟩ := hoffset 0xFE (by decide +kernel)
  obtain ⟨-, hsp, hclear⟩ := hsp (by decide +kernel)
  exact ⟨h, hl.trans hfirst.symm, hh.trans hsecond.symm, hflags.trans (by decide),
    hsp.trans (by decide +kernel), hclear.trans (by decide +kernel)⟩

end Processor

end Handheld
