import Handheld.MemoryMap

/-!
# Which addresses name which places

Every place has one address, and most of work memory a second one in the echo.
The addresses that name no place are the holes of the memory map.
-/

namespace Handheld

def Picture.Register.number : Register → Nat
  | .lcdc => 0xFF40
  | .stat => 0xFF41
  | .scy => 0xFF42
  | .scx => 0xFF43
  | .ly => 0xFF44
  | .lyc => 0xFF45
  | .dma => 0xFF46
  | .bgp => 0xFF47
  | .obp0 => 0xFF48
  | .obp1 => 0xFF49
  | .wy => 0xFF4A
  | .wx => 0xFF4B

def MemoryMap.Hole (address : UInt16) : Prop :=
  0xA000 ≤ address.toNat ∧ address.toNat ≤ 0xBFFF ∨
    0xFE00 ≤ address.toNat ∧ address.toNat ≤ 0xFF00 ∨
    0xFF03 ≤ address.toNat ∧ address.toNat ≤ 0xFF0E ∨
    0xFF4C ≤ address.toNat ∧ address.toNat ≤ 0xFF4F ∨
    0xFF51 ≤ address.toNat ∧ address.toNat ≤ 0xFF7F

instance : DecidablePred MemoryMap.Hole := by
  unfold MemoryMap.Hole
  infer_instance

namespace Place

/-- The address with the number names the place. -/
def Named (n : Nat) : Place → Prop
  | .cartridge i => n = i.val
  | .picture (.video i) => n = 0x8000 + i.val
  | .picture (.register r) => n = r.number
  | .work i => n = 0xC000 + i.val ∨ n = 0xE000 + i.val ∧ n < 0xFE00
  | .serialData => n = 0xFF01
  | .serialControl => n = 0xFF02
  | .interruptRequest => n = 0xFF0F
  | .sound i => n = 0xFF10 + i.val
  | .overlaySwitch => n = 0xFF50
  | .high i => n = 0xFF80 + i.val
  | .interruptEnable => n = 0xFFFF

theorem named_of_register {address : UInt16} {r : Picture.Register}
    (h : Picture.Register.ofAddress? address = some r) : address.toNat = r.number := by
  unfold Picture.Register.ofAddress? at h
  split at h <;> first | cases h; rfl | cases h

theorem named_of_lastPage {address : UInt16} {p : Place} (h : ofLastPage? address = some p) :
    Named address.toNat p := by
  unfold ofLastPage? at h
  split at h
  case h_6 =>
    split at h
    · cases h
      simp only [Named]
      omega
    · cases hs : Sound.slot? address with
      | some i =>
        rw [hs] at h
        cases h
        unfold Sound.slot? at hs
        split at hs
        · rw [← Option.some.inj hs]
          simp only [Named]
          omega
        · cases hs
      | none =>
        rw [hs] at h
        obtain ⟨r, hr, rfl⟩ := Option.map_eq_some_iff.mp h
        exact named_of_register hr
  all_goals
    cases h
    rfl

theorem named_of_ofAddress? {address : UInt16} {p : Place} (h : ofAddress? address = some p) :
    Named address.toNat p := by
  unfold ofAddress? at h
  dsimp only at h
  split at h
  · cases h
    rfl
  · split at h
    · cases h
      simp only [Named]
      omega
    · split at h
      · cases h
      · split at h
        · cases h
          simp only [Named]
          omega
        · split at h
          · cases h
            simp only [Named]
            omega
          · exact named_of_lastPage h

theorem sound_named : ∀ i : Fin 48, ofAddress? (.ofNat (0xFF10 + i)) = some (.sound i) := by
  decide +kernel

theorem high_named : ∀ i : Fin 127, ofAddress? (.ofNat (0xFF80 + i)) = some (.high i) := by
  decide +kernel

theorem ofAddress?_of_named {address : UInt16} {p : Place} (h : Named address.toNat p) :
    ofAddress? address = some p := by
  cases p with
  | cartridge i =>
    have hi : i = ⟨address.toNat, h ▸ i.isLt⟩ := Fin.ext h.symm
    rw [hi, ofAddress?, dif_pos]
  | picture target =>
    cases target with
    | video i =>
      simp only [Named] at h
      rw [ofAddress?, dif_neg (by omega), dif_pos (by omega)]
      simp [h]
    | register r =>
      rw [← UInt16.ofNat_toNat (x := address), h]
      cases r <;> rfl
  | work i =>
    have hi := i.isLt
    simp only [Named] at h
    rw [ofAddress?, dif_neg (by omega), dif_neg (by omega), if_neg (by omega)]
    split
    · simp only [Option.some.injEq, work.injEq, Fin.ext_iff]
      omega
    · rw [dif_pos (by omega)]
      simp only [Option.some.injEq, work.injEq, Fin.ext_iff]
      omega
  | sound i =>
    rw [← UInt16.ofNat_toNat (x := address), h]
    exact sound_named i
  | high i =>
    rw [← UInt16.ofNat_toNat (x := address), h]
    exact high_named i
  | _ =>
    rw [← UInt16.ofNat_toNat (x := address), h]
    rfl

theorem register_number : ∀ i : Fin 12, ∃ r ∈ [Picture.Register.lcdc, .stat, .scy, .scx, .ly,
    .lyc, .dma, .bgp, .obp0, .obp1, .wy, .wx], r.number = 0xFF40 + i := by
  decide

theorem exists_named {address : UInt16} (h : ¬MemoryMap.Hole address) :
    ∃ p, Named address.toNat p := by
  have hlt := address.toNat_lt
  have hn : address.toNat < 0x8000 ∨ 0x8000 ≤ address.toNat ∧ address.toNat < 0xA000 ∨
      0xC000 ≤ address.toNat ∧ address.toNat < 0xE000 ∨
      0xE000 ≤ address.toNat ∧ address.toNat < 0xFE00 ∨
      address.toNat = 0xFF01 ∨ address.toNat = 0xFF02 ∨ address.toNat = 0xFF0F ∨
      0xFF10 ≤ address.toNat ∧ address.toNat < 0xFF40 ∨
      0xFF40 ≤ address.toNat ∧ address.toNat < 0xFF4C ∨ address.toNat = 0xFF50 ∨
      0xFF80 ≤ address.toNat ∧ address.toNat < 0xFFFF ∨ address.toNat = 0xFFFF := by
    unfold MemoryMap.Hole at h
    omega
  -- the ranges from below, the second one of work memory being the echo
  rcases hn with hn | hn | hn | hn | hn | hn | hn | hn | hn | hn | hn | hn
  · exact ⟨.cartridge ⟨address.toNat, hn⟩, rfl⟩
  · exact ⟨.picture (.video ⟨address.toNat - 0x8000, by omega⟩), by simp only [Named]; omega⟩
  · exact ⟨.work ⟨address.toNat - 0xC000, by omega⟩, by simp only [Named]; omega⟩
  · exact ⟨.work ⟨address.toNat - 0xE000, by omega⟩, by simp only [Named]; omega⟩
  · exact ⟨.serialData, hn⟩
  · exact ⟨.serialControl, hn⟩
  · exact ⟨.interruptRequest, hn⟩
  · exact ⟨.sound ⟨address.toNat - 0xFF10, by omega⟩, by simp only [Named]; omega⟩
  · obtain ⟨r, -, hr⟩ := register_number ⟨address.toNat - 0xFF40, by omega⟩
    exact ⟨.picture (.register r), by simp only [Named, hr]; omega⟩
  · exact ⟨.overlaySwitch, hn⟩
  · exact ⟨.high ⟨address.toNat - 0xFF80, by omega⟩, by simp only [Named]; omega⟩
  · exact ⟨.interruptEnable, hn⟩

theorem not_hole_of_named {address : UInt16} {p : Place} (h : Named address.toNat p) :
    ¬MemoryMap.Hole address := by
  unfold MemoryMap.Hole
  cases p with
  | picture target =>
    cases target with
    | video i => simp only [Named] at h; omega
    | register r => cases r <;> simp only [Named, Picture.Register.number] at h <;> omega
  | _ => simp only [Named] at h; omega

theorem ofAddress?_eq_none_iff {address : UInt16} :
    ofAddress? address = none ↔ MemoryMap.Hole address := by
  constructor
  · intro h
    refine Decidable.byContradiction fun hn => ?_
    obtain ⟨p, hp⟩ := exists_named hn
    rw [ofAddress?_of_named hp] at h
    cases h
  · intro h
    cases hp : ofAddress? address with
    | none => rfl
    | some p => exact absurd h (not_hole_of_named (named_of_ofAddress? hp))

end Place

namespace MemoryMap

theorem read?_place (m : MemoryMap) {address : UInt16} {p : Place}
    (h : Place.ofAddress? address = some p) : Bus.read? m address = some (m.readPlace p) :=
  congrArg (Option.map m.readPlace) h

theorem store_place (m : MemoryMap) {address : UInt16} {p : Place}
    (h : Place.ofAddress? address = some p) (v : UInt8) :
    Bus.store m address v = m.writePlace p v := by
  simp only [Bus.store, h]

theorem store_hole (m : MemoryMap) {address : UInt16} (h : Place.ofAddress? address = none)
    (v : UInt8) : Bus.store m address v = m := by
  simp only [Bus.store, h]

variable {m : MemoryMap} {i : Fin 0x8000}

theorem romByte_overlay {boot : Image} (h : m.overlay = some boot) (hi : i.val ≤ 0x00FF) :
    m.romByte i = Image.byteAt boot i.val := by
  have hi' : i.val < overlaySize := Nat.lt_succ_of_le hi
  simp only [romByte, h, hi', ↓reduceIte]

theorem romByte_cartridge (h : m.overlay = none ∨ 0x00FF < i.val) :
    m.romByte i = Image.byteAt m.cartridge i.val := by
  unfold romByte
  split
  · rename_i boot ho
    refine if_neg (Nat.not_lt.mpr (h.resolve_left ?_))
    simp [ho]
  · rfl

end MemoryMap

end Handheld
