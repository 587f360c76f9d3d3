import Handheld.Word

/-!
# Masks

What is left of a byte under a mask, and what comes of setting bits in it.
-/

namespace Handheld.Byte

variable {v m n : UInt8}

theorem or_and (a b m : UInt8) : (a ||| b) &&& m = a &&& m ||| b &&& m :=
  UInt8.toBitVec_inj.mp BitVec.and_or_distrib_right

theorem and_or (v m n : UInt8) : v &&& (m ||| n) = v &&& m ||| v &&& n :=
  UInt8.toBitVec_inj.mp BitVec.and_or_distrib_left

theorem and_and_self (v m : UInt8) : v &&& m &&& m = v &&& m := by
  rw [UInt8.and_assoc, UInt8.and_self]

theorem and_all (v : UInt8) : v &&& 0xFF = v := UInt8.and_neg_one

theorem and_and_of_disjoint (h : m &&& n = 0) : v &&& m &&& n = 0 := by
  rw [UInt8.and_assoc, h, UInt8.and_zero]

theorem and_of_and_eq_zero (hmn : m ||| n = 0xFF) (h : v &&& m = 0) : v &&& n = v := by
  calc v &&& n
    _ = v &&& m ||| v &&& n := by rw [h, UInt8.zero_or]
    _ = v := by rw [← and_or, hmn, and_all]

theorem and_or_self (v m : UInt8) : v &&& m ||| m = m := by
  apply UInt8.toBitVec_inj.mp
  ext i
  simp

/-- Bits that are set afterwards need no mask. -/
theorem and_or_or (v m n : UInt8) : v &&& (m ||| n) ||| n = v &&& m ||| n := by
  rw [and_or, UInt8.or_assoc, and_or_self]

-- ---------------------------------------------------------------------------
-- Single bits
-- ---------------------------------------------------------------------------

theorem toBitVec_mask : ∀ i : Fin 8, (mask i).toBitVec = BitVec.twoPow 8 i := by
  decide

theorem bit_eq_getLsbD (b : UInt8) (i : Fin 8) : bit b i = b.toBitVec.getLsbD i := by
  have hzero : b &&& mask i = 0 ↔ b.toBitVec.getLsbD i = false := by
    rw [← UInt8.toBitVec_inj, UInt8.toBitVec_and, toBitVec_mask, BitVec.and_twoPow]
    cases b.toBitVec.getLsbD i with
    | false => exact ⟨fun _ => rfl, fun _ => rfl⟩
    | true =>
      refine ⟨fun h => absurd h ?_, nofun⟩
      revert i
      decide
  rw [bit]
  cases h : b.toBitVec.getLsbD i with
  | false => simp [hzero.mpr h]
  | true => simp [hzero, h]

theorem bit_or (a b : UInt8) (i : Fin 8) : bit (a ||| b) i = (bit a i || bit b i) := by
  simp only [bit_eq_getLsbD, UInt8.toBitVec_or, BitVec.getLsbD_or]

theorem bit_and (a b : UInt8) (i : Fin 8) : bit (a &&& b) i = (bit a i && bit b i) := by
  simp only [bit_eq_getLsbD, UInt8.toBitVec_and, BitVec.getLsbD_and]

theorem bit_mask : ∀ i j : Fin 8, bit (mask i) j = decide (i = j) := by
  decide

def ofBits (f : Fin 8 → Bool) : UInt8 :=
  ((List.finRange 8).filter f).foldl (fun b i => b ||| mask i) 0

theorem bit_foldl_or (is : List (Fin 8)) (b : UInt8) (j : Fin 8) :
    bit (is.foldl (fun b i => b ||| mask i) b) j = true ↔ bit b j = true ∨ j ∈ is := by
  induction is generalizing b with
  | nil => simp
  | cons i is ih => simp [ih, bit_or, bit_mask, or_assoc, @eq_comm _ j i]

@[simp] theorem bit_ofBits (f : Fin 8 → Bool) (i : Fin 8) : bit (ofBits f) i = f i := by
  have hzero : bit 0 i = false := by
    revert i
    decide
  rw [Bool.eq_iff_iff, ofBits, bit_foldl_or]
  simp [hzero]

end Handheld.Byte
