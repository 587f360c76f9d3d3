import Handheld.FlatMemory
import Handheld.Proofs.PlainMemory

/-!
# Cells of memory

A cell keeps the byte that was written to it until another one is. In flat memory
every address is a cell of its own. On the memory map of the console there are the
cells of video, work and high memory and the interrupt mask, and those of work memory
can have two addresses. `Bus.Room` says that the bytes right below an address are
cells, as a stack needs them.
-/

namespace Handheld

-- ---------------------------------------------------------------------------
-- Addresses below an address
-- ---------------------------------------------------------------------------

namespace Word

variable {a : UInt16} {m n : Nat}

/-- The address a number of bytes further down. Below the lowest address comes the
highest one. -/
def down (a : UInt16) (n : Nat) : UInt16 := a - UInt16.ofNat n

theorem down_down : down (down a m) n = down a (m + n) := by
  simp only [down, UInt16.ofNat_add, UInt16.sub_eq_add_neg, UInt16.neg_add, UInt16.add_assoc]

theorem down_add_one : down a (n + 1) + 1 = down a n := by
  rw [← down_down]
  exact UInt16.sub_add_cancel _ _

theorem down_add_two : down a (n + 2) + 2 = down a n := by
  rw [← down_down]
  exact UInt16.sub_add_cancel _ _

theorem down_inj (hm : 0 < m) (hm' : m ≤ 65536) (hn : 0 < n) (hn' : n ≤ 65536)
    (h : down a m = down a n) : m = n := by
  have hmod := congrArg UInt16.toNat ((UInt16.sub_right_inj a).mp h)
  simp only [UInt16.toNat_ofNat'] at hmod
  omega

def Below (s : UInt16) (n : Nat) (a : UInt16) : Prop := ∃ k, 0 < k ∧ k ≤ n ∧ a = down s k

theorem below_down (hn : 0 < n) (h : n ≤ m) : Below a m (down a n) := ⟨n, hn, h, rfl⟩

theorem forall_below {s : UInt16} {P : UInt16 → Prop} :
    (∀ a, Below s n a → P a) ↔ ∀ k < n, P (down s (k + 1)) := by
  constructor
  · intro h k hk
    exact h _ (below_down k.succ_pos hk)
  · rintro h _ ⟨k, hpos, hk, rfl⟩
    obtain ⟨k, rfl⟩ := Nat.exists_eq_succ_of_ne_zero (Nat.ne_of_gt hpos)
    exact h k hk

theorem below_all (h : 65536 ≤ n) (s a : UInt16) : Below s n a := by
  have hlt := (s - a).toNat_lt
  have ha : a = down s (s - a).toNat := by
    rw [down, UInt16.ofNat_toNat, eq_comm, UInt16.sub_eq_iff_eq_add, UInt16.add_comm,
      UInt16.sub_add_cancel]
  rcases Nat.eq_zero_or_pos (s - a).toNat with hz | hpos
  · exact ⟨65536, by decide, h, ha.trans (by rw [hz]; rfl)⟩
  · exact ⟨(s - a).toNat, hpos, by omega, ha⟩

end Word

-- ---------------------------------------------------------------------------
-- Buses
-- ---------------------------------------------------------------------------

namespace Bus

variable {β : Type} [Bus β] {memory memory' : UInt16 → Prop} {same : UInt16 → UInt16 → Prop}

/-- The addresses in `memory` name cells. What is written to one of them is read at
every address of the cell and nowhere else, and only writes to its cell change it. -/
structure Cells (β : Type) [Bus β] (memory : UInt16 → Prop) (same : UInt16 → UInt16 → Prop) :
    Prop where
  refl (a : UInt16) : same a a
  read? (b : β) {a : UInt16} : memory a → (Bus.read? b a).isSome = true
  writable (b : β) {a : UInt16} (v : UInt8) : memory a → Bus.writable b a v = true
  written (b : β) {a c : UInt16} (v : UInt8) :
    memory a → same a c → Bus.read? (Bus.store b a v) c = some v
  others (b : β) {a c : UInt16} (v : UInt8) :
    memory a → ¬same a c → Bus.read? (Bus.store b a v) c = Bus.read? b c
  kept (b : β) {a c : UInt16} (v : UInt8) :
    memory a → ¬same c a → Bus.read? (Bus.store b c v) a = Bus.read? b a

theorem Cells.mono (h : Cells β memory same) (hsub : ∀ a, memory' a → memory a) :
    Cells β memory' same where
  refl := h.refl
  read? b _ ha := h.read? b (hsub _ ha)
  writable b _ v ha := h.writable b v (hsub _ ha)
  written b _ _ v ha := h.written b v (hsub _ ha)
  others b _ _ v ha := h.others b v (hsub _ ha)
  kept b _ _ v ha := h.kept b v (hsub _ ha)

theorem Cells.unwritten (h : Cells β memory same) {a : UInt16} (ha : memory a) :
    Law fun (b : β) as b' =>
      (∀ c v, .write c v ∈ as → ¬same c a) → Bus.read? b' a = Bus.read? b a where
  refl _ _ := rfl
  trans h h' hs := by
    rw [h' fun c v hv => hs c v (List.mem_append_right _ hv),
      h fun c v hv => hs c v (List.mem_append_left _ hv)]
  reads _ _ := rfl
  writes _ hs := h.kept _ _ ha (hs _ _ (List.mem_singleton_self _))

/-- The `n` bytes below `s` are cells, no two of them the same one. -/
structure Room (β : Type) [Bus β] (same : UInt16 → UInt16 → Prop) (s : UInt16) (n : Nat) :
    Prop extends Cells β (Word.Below s n) same where
  distinct {j k : Nat} : 0 < j → j ≤ n → 0 < k → k ≤ n →
    same (Word.down s j) (Word.down s k) → j = k

theorem Room.flatMemory {s : UInt16} {n : Nat} (h : n ≤ 65536) : Room FlatMemory Eq s n where
  refl _ := rfl
  read? _ _ _ := rfl
  writable _ _ _ _ := rfl
  written b a c v _ hs := by rw [FlatMemory.read?_store, if_pos hs]
  others b a c v _ hs := by rw [FlatMemory.read?_store, if_neg hs]
  kept b a c v _ hs := by rw [FlatMemory.read?_store, if_neg hs]
  distinct hj hj' hk hk' hs := Word.down_inj hj (Nat.le_trans hj' h) hk (Nat.le_trans hk' h) hs

end Bus

-- ---------------------------------------------------------------------------
-- The memory map
-- ---------------------------------------------------------------------------

def Place.keeps : Place → Bool
  | .picture (.video _) | .work _ | .high _ | .interruptEnable => true
  | _ => false

namespace MemoryMap

/-- The addresses name one place: there are two of them for most of work memory. -/
def SamePlace (a b : UInt16) : Prop :=
  a = b ∨ Work a ∧ Work b ∧ a.toNat % 0x2000 = b.toNat % 0x2000

instance : DecidableRel SamePlace := fun a b => by
  unfold SamePlace
  infer_instance

inductive Area where
  | video
  | work
  | echo
  | high
  deriving DecidableEq, Repr

def Area.Contains (a : UInt16) : Area → Prop
  | .video => 0x8000 ≤ a.toNat ∧ a.toNat ≤ 0x9FFF
  | .work => 0xC000 ≤ a.toNat ∧ a.toNat ≤ 0xDFFF
  | .echo => 0xE000 ≤ a.toNat ∧ a.toNat ≤ 0xFDFF
  | .high => 0xFF80 ≤ a.toNat ∧ a.toNat ≤ 0xFFFF

instance (a : UInt16) : (area : Area) → Decidable (area.Contains a)
  | .video | .work | .echo | .high => inferInstanceAs (Decidable (_ ∧ _))

variable {a c : UInt16} {p q : Place}

theorem Area.Contains.place {area : Area} (h : area.Contains a) :
    ∃ p, Place.ofAddress? a = some p ∧ p.keeps = true := by
  cases area with
  | video =>
    simp only [Contains] at h
    refine ⟨.picture (.video ⟨a.toNat - 0x8000, by omega⟩), Place.ofAddress?_of_named ?_, rfl⟩
    simp only [Place.Named]
    omega
  | work =>
    simp only [Contains] at h
    refine ⟨.work ⟨a.toNat - 0xC000, by omega⟩, Place.ofAddress?_of_named ?_, rfl⟩
    simp only [Place.Named]
    omega
  | echo =>
    simp only [Contains] at h
    refine ⟨.work ⟨a.toNat - 0xE000, by omega⟩, Place.ofAddress?_of_named ?_, rfl⟩
    simp only [Place.Named]
    omega
  | high =>
    simp only [Contains] at h
    by_cases hlast : a.toNat = 0xFFFF
    · exact ⟨.interruptEnable, Place.ofAddress?_of_named hlast, rfl⟩
    · refine ⟨.high ⟨a.toNat - 0xFF80, by omega⟩, Place.ofAddress?_of_named ?_, rfl⟩
      simp only [Place.Named]
      omega

theorem Area.Contains.distinct {area : Area} (ha : area.Contains a) (hc : area.Contains c)
    (h : SamePlace a c) : a = c := by
  rcases h with h | ⟨-, -, h⟩
  · exact h
  · apply UInt16.toNat_inj.mp
    cases area <;> simp only [Contains] at ha hc <;> omega

theorem samePlace_iff (ha : Place.ofAddress? a = some p) :
    SamePlace a c ↔ Place.ofAddress? c = some p := by
  constructor
  · rintro (rfl | ⟨hwa, hwc, h⟩)
    · exact ha
    · -- both are addresses of the cell with their remainder as its number
      let i : Fin 0x2000 := ⟨c.toNat % 0x2000, Nat.mod_lt _ (by decide)⟩
      have hc : Place.ofAddress? c = some (.work i) := by
        apply Place.ofAddress?_of_named
        simp only [Place.Named, i]
        unfold Work at hwc
        omega
      rw [hc, (work_iff ha i).mpr ⟨hwa, h.symm⟩]
  · intro hc
    cases p with
    | work i =>
      obtain ⟨hwa, hia⟩ := (work_iff ha i).mp rfl
      obtain ⟨hwc, hic⟩ := (work_iff hc i).mp rfl
      exact .inr ⟨hwa, hwc, hia.symm.trans hic⟩
    | _ =>
      refine .inl ((address_eq_iff ha hc ?_).mpr rfl)
      intro i hi
      cases hi

theorem readPlace_write_cell (m : MemoryMap) (v : UInt8) (hp : p.keeps = true) :
    (m.writePlace p v).readPlace q = if p = q then v else m.readPlace q := by
  cases p with
  | work i => exact readPlace_write_work m v q i
  | high i | interruptEnable => exact readPlace_write_plain m v q rfl
  | picture target =>
    cases target with
    | video i => exact readPlace_write_plain m v q rfl
    | register r => cases hp
  | _ => cases hp

theorem readPlace_write_other (m : MemoryMap) (v : UInt8) (hp : p.keeps = false)
    (hq : q.keeps = true) :
    (m.writePlace p v).readPlace q = m.readPlace q := by
  have hkept : (m.writePlace p v).picture.video = m.picture.video ∧
      (m.writePlace p v).work = m.work ∧ (m.writePlace p v).high = m.high ∧
      (m.writePlace p v).interruptEnable = m.interruptEnable := by
    cases p with
    | picture target =>
      cases target with
      | video i => cases hp
      | register r => cases r <;> simp [writePlace, Picture.write, Picture.setRegister]
    | serialControl => simp only [writePlace, writeSerialControl]; split <;> simp
    | overlaySwitch => simp only [writePlace]; split <;> simp
    | work i | high i | interruptEnable => cases hp
    | _ => simp [writePlace]
  obtain ⟨hvideo, hwork, hhigh, henable⟩ := hkept
  cases q with
  | picture target =>
    cases target with
    | video i => exact congrArg (·.get i) hvideo
    | register r => cases hq
  | work i => exact congrArg (·.get i) hwork
  | high i => exact congrArg (·.get i) hhigh
  | interruptEnable => exact henable
  | _ => cases hq

theorem read?_store_cell (m : MemoryMap) (v : UInt8) (ha : Place.ofAddress? a = some p)
    (hp : p.keeps = true) :
    Bus.read? (Bus.store m a v) c = if SamePlace a c then some v else Bus.read? m c := by
  rw [store_place m ha]
  simp only [samePlace_iff ha]
  cases hc : Place.ofAddress? c with
  | none =>
    have hread (m : MemoryMap) : Bus.read? m c = none := congrArg (Option.map m.readPlace) hc
    rw [hread, hread, if_neg nofun]
  | some q =>
    rw [read?_place _ hc, read?_place m hc, readPlace_write_cell m v hp]
    simp only [Option.some.injEq, eq_comm]
    split <;> rfl

theorem read?_store_of_not_samePlace (m : MemoryMap) (v : UInt8)
    (ha : Place.ofAddress? a = some p) (hp : p.keeps = true) (h : ¬SamePlace c a) :
    Bus.read? (Bus.store m c v) a = Bus.read? m a := by
  cases hc : Place.ofAddress? c with
  | none => rw [store_hole m hc]
  | some q =>
    cases hq : q.keeps with
    | false =>
      rw [store_place m hc, read?_place _ ha, read?_place m ha, readPlace_write_other m v hq hp]
    | true => rw [read?_store_cell m v hc hq, if_neg h]

theorem cells : Bus.Cells MemoryMap (fun a => ∃ area : Area, area.Contains a) SamePlace where
  refl a := .inl rfl
  read? m a := by
    rintro ⟨area, ha⟩
    obtain ⟨p, hp, -⟩ := ha.place
    rw [read?_place m hp]
    rfl
  writable m a v := by
    rintro ⟨area, ha⟩
    obtain ⟨p, hp, -⟩ := ha.place
    exact congrArg Option.isSome hp
  written m a c v := by
    rintro ⟨area, ha⟩ hs
    obtain ⟨p, hp, hkeeps⟩ := ha.place
    rw [read?_store_cell m v hp hkeeps, if_pos hs]
  others m a c v := by
    rintro ⟨area, ha⟩ hs
    obtain ⟨p, hp, hkeeps⟩ := ha.place
    rw [read?_store_cell m v hp hkeeps, if_neg hs]
  kept m a c v := by
    rintro ⟨area, ha⟩ hs
    obtain ⟨p, hp, hkeeps⟩ := ha.place
    exact read?_store_of_not_samePlace m v hp hkeeps hs

theorem room {s : UInt16} {n : Nat} {area : Area} (h : ∀ a, Word.Below s n a → area.Contains a) :
    Bus.Room MemoryMap SamePlace s n where
  toCells := cells.mono fun a ha => ⟨area, h a ha⟩
  distinct {j k} hj hj' hk hk' hs := by
    -- no area has all the addresses
    have hn : n < 65536 := by
      refine Nat.lt_of_not_le fun hle => ?_
      have hzero := h 0 (Word.below_all hle s 0)
      cases area <;> simp [Area.Contains] at hzero
    have heq := (h _ (Word.below_down hj hj')).distinct (h _ (Word.below_down hk hk')) hs
    exact Word.down_inj hj (by omega) hk (by omega) heq

end MemoryMap

end Handheld
