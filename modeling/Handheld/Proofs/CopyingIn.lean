import Handheld.FlatMemory
import Mathlib.Data.List.Induction
import Mathlib.Data.Nat.ModEq
import Mathlib.Order.Bounds.Basic

/-!
# Copying bytes in

Flat memory takes any number of bytes, also more than it has cells. They go to one address
after the other, and from the top of memory on to the bottom. Of all the bytes that come to an
address the last one stays.
-/

namespace Handheld.FlatMemory

/-- Which of the first `n` bytes copied in from `origin` on come to the address `a`. -/
def arrivals (origin a : UInt16) (n : Nat) : Set Nat :=
  {i | i < n ∧ origin.toNat + i ≡ a.toNat [MOD 2 ^ 16]}

variable {origin a : UInt16} {i n : Nat}

theorem add_ofNat_eq_iff :
    origin + UInt16.ofNat i = a ↔ origin.toNat + i ≡ a.toNat [MOD 2 ^ 16] := by
  have ha : a.toNat % 2 ^ 16 = a.toNat := Nat.mod_eq_of_lt a.toNat_lt
  rw [← UInt16.toNat_inj, UInt16.toNat_add, UInt16.toNat_ofNat', Nat.add_mod_mod, Nat.ModEq, ha]

theorem arrivals_eq_empty_iff :
    arrivals origin a n = ∅ ↔ ∀ i < n, ¬ origin.toNat + i ≡ a.toNat [MOD 2 ^ 16] :=
  Set.eq_empty_iff_forall_notMem.trans (forall_congr' fun _ => not_and)

theorem isGreatest_arrivals_succ (h : origin + UInt16.ofNat n = a) :
    IsGreatest (arrivals origin a (n + 1)) n :=
  ⟨⟨Nat.lt_succ_self n, add_ofNat_eq_iff.mp h⟩, fun _ hi => Nat.le_of_lt_succ hi.1⟩

theorem arrivals_succ (h : origin + UInt16.ofNat n ≠ a) :
    arrivals origin a (n + 1) = arrivals origin a n := by
  ext i
  constructor
  · rintro ⟨hlt, hcomes⟩
    have hne : i ≠ n := fun hi => h (add_ofNat_eq_iff.mpr (hi ▸ hcomes))
    exact ⟨by omega, hcomes⟩
  · rintro ⟨hlt, hcomes⟩
    exact ⟨Nat.lt_succ_of_lt hlt, hcomes⟩

theorem load_append (m : FlatMemory) (origin : UInt16) (us vs : List UInt8) :
    m.load origin (us ++ vs) = (m.load origin us).load (origin + UInt16.ofNat us.length) vs := by
  induction us generalizing m origin with
  | nil => exact congrArg (m.load · vs) (UInt16.add_zero origin).symm
  | cons u us ih =>
    have hnext : origin + 1 + UInt16.ofNat us.length = origin + UInt16.ofNat (us.length + 1) := by
      rw [UInt16.add_assoc, UInt16.add_comm 1, UInt16.ofNat_add]
      rfl
    rw [List.cons_append, load, load, ih, hnext, List.length_cons]

theorem peek_load_concat (m : FlatMemory) (origin : UInt16) (vs : List UInt8) (v : UInt8)
    (a : UInt16) :
    (m.load origin (vs ++ [v])).peek a =
      if origin + UInt16.ofNat vs.length = a then v else (m.load origin vs).peek a := by
  rw [load_append, load, load, peek_poke]

/-- The cells after copying, by induction from the last byte on: it stays where it comes to,
and elsewhere it makes no difference. -/
theorem last_arrival (m : FlatMemory) (origin : UInt16) (vs : List UInt8) (a : UInt16) :
    (∃ i v, IsGreatest (arrivals origin a vs.length) i ∧ vs[i]? = some v ∧
        (m.load origin vs).peek a = v) ∨
      arrivals origin a vs.length = ∅ ∧ (m.load origin vs).peek a = m.peek a := by
  induction vs using List.reverseRecOn with
  | nil => exact .inr ⟨arrivals_eq_empty_iff.mpr nofun, rfl⟩
  | append_singleton vs v ih =>
    rw [peek_load_concat, List.length_append, List.length_singleton]
    by_cases h : origin + UInt16.ofNat vs.length = a
    · rw [if_pos h]
      exact .inl ⟨vs.length, v, isGreatest_arrivals_succ h, List.getElem?_concat_length, rfl⟩
    · rw [if_neg h, arrivals_succ h]
      refine ih.imp_left ?_
      rintro ⟨i, u, hi, hu, hpeek⟩
      have hlt : i < vs.length := hi.1.1
      exact ⟨i, u, hi, (List.getElem?_append_left hlt).trans hu, hpeek⟩

/-- After any bytes were copied in, however many, each address holds the last one of those that
came to it, or what it held before if none did. Copying can be cut anywhere: the rest goes on
where the bytes so far would have led. -/
theorem last_byte_stays (m : FlatMemory) (origin : UInt16) :
    (∀ (vs : List UInt8) (a : UInt16),
      (∃ i v, IsGreatest {i | i < vs.length ∧ origin.toNat + i ≡ a.toNat [MOD 2 ^ 16]} i ∧
          vs[i]? = some v ∧ (m.load origin vs).peek a = v) ∨
        (∀ i < vs.length, ¬ origin.toNat + i ≡ a.toNat [MOD 2 ^ 16]) ∧
          (m.load origin vs).peek a = m.peek a) ∧
    ∀ us vs : List UInt8,
      m.load origin (us ++ vs) = (m.load origin us).load (origin + UInt16.ofNat us.length) vs := by
  refine ⟨fun vs a => ?_, load_append m origin⟩
  exact (last_arrival m origin vs a).imp_right (And.imp_left arrivals_eq_empty_iff.mp)

def overlong : List UInt8 := List.replicate 65536 0x11 ++ [0x22]

theorem last_byte_stays_overlong : (zeros.load 0x8000 overlong).peek 0x8000 = 0x22 := by
  have hlength : overlong.length = 65537 := by
    rw [overlong, List.length_append, List.length_replicate, List.length_singleton]
  have hcomes : (0x8000 : UInt16).toNat + 65536 ≡ (0x8000 : UInt16).toNat [MOD 2 ^ 16] := rfl
  rcases (last_byte_stays zeros 0x8000).1 overlong 0x8000 with ⟨i, v, hlast, hv, hpeek⟩ | ⟨hnone, -⟩
  · have hle : i < overlong.length := hlast.1.1
    have hge : 65536 ≤ i := hlast.2 ⟨hlength ▸ Nat.lt_succ_self _, hcomes⟩
    obtain rfl : i = 65536 := by omega
    rw [overlong, List.getElem?_append_right (by rw [List.length_replicate]),
      List.length_replicate] at hv
    exact hpeek.trans (Option.some.inj hv).symm
  · exact absurd hcomes (hnone 65536 (hlength ▸ Nat.lt_succ_self _))

end Handheld.FlatMemory
