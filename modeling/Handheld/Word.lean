/-!
# Bytes and words

A word is two bytes. This module cuts words into bytes and joins them,
reads a byte as a signed number, and names the bits of a byte.
-/

namespace Handheld

namespace Word

def ofBytes (high low : UInt8) : UInt16 := high.toUInt16 * 256 + low.toUInt16

def high (w : UInt16) : UInt8 := (w / 256).toUInt8

def low (w : UInt16) : UInt8 := w.toUInt8

def lastPage (offset : UInt8) : UInt16 := ofBytes 0xFF offset

theorem toNat_ofBytes (h l : UInt8) : (ofBytes h l).toNat = h.toNat * 256 + l.toNat := by
  have hh := h.toNat_lt
  have hl := l.toNat_lt
  simp [ofBytes, UInt16.toNat_add, UInt16.toNat_mul]
  omega

theorem toNat_high (w : UInt16) : (high w).toNat = w.toNat / 256 := by
  have := w.toNat_lt
  simp [high]
  omega

theorem toNat_low (w : UInt16) : (low w).toNat = w.toNat % 256 := by
  simp [low]

@[simp] theorem high_ofBytes (h l : UInt8) : high (ofBytes h l) = h := by
  have hl := l.toNat_lt
  apply UInt8.toNat_inj.mp
  rw [toNat_high, toNat_ofBytes]
  omega

@[simp] theorem low_ofBytes (h l : UInt8) : low (ofBytes h l) = l := by
  have hl := l.toNat_lt
  apply UInt8.toNat_inj.mp
  rw [toNat_low, toNat_ofBytes]
  omega

@[simp] theorem ofBytes_high_low (w : UInt16) : ofBytes (high w) (low w) = w := by
  apply UInt16.toNat_inj.mp
  rw [toNat_ofBytes, toNat_high, toNat_low]
  omega

end Word

namespace Byte

/-- The byte read as a number from -128 to 127. -/
def signed (b : UInt8) : Int := if b < 0x80 then b.toNat else b.toNat - 256

theorem signed_eq (b : UInt8) :
    signed b = b.toNat ∧ b.toNat < 128 ∨ signed b = b.toNat - 256 ∧ 128 ≤ b.toNat := by
  unfold signed
  split
  · rename_i h
    exact .inl ⟨rfl, UInt8.lt_iff_toNat_lt.mp h⟩
  · rename_i h
    exact .inr ⟨rfl, Nat.not_lt.mp fun hlt => h (UInt8.lt_iff_toNat_lt.mpr hlt)⟩

theorem eq_of_signed_eq {b c : UInt8} (h : signed b = signed c) : b = c := by
  have hb := b.toNat_lt
  have hc := c.toNat_lt
  have hsb := signed_eq b
  have hsc := signed_eq c
  exact UInt8.toNat_inj.mp (by omega)

def signExtend (b : UInt8) : UInt16 := if b < 0x80 then b.toUInt16 else Word.ofBytes 0xFF b

def mask (bit : Fin 8) : UInt8 := 1 <<< UInt8.ofNat bit.val

def bit (b : UInt8) (i : Fin 8) : Bool := b &&& mask i != 0

def lowNibble (b : UInt8) : UInt8 := b % 16

/-- What holds of every byte is decided by trying them all. -/
instance decidableForall (P : UInt8 → Prop) [DecidablePred P] : Decidable (∀ b, P b) :=
  decidable_of_iff (∀ i : Fin 256, P ⟨⟨i⟩⟩) ⟨fun h b => h b.toFin, fun h i => h ⟨⟨i⟩⟩⟩

end Byte

end Handheld
