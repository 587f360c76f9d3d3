import Handheld.Proofs.CopyingIn
import Handheld.Proofs.Lockstep
import Handheld.Proofs.ReadAfterWrite

/-!
# Where the memory map is plain memory

The images, video memory, work memory, high memory and the interrupt mask read
like plain memory, and but for the images they are written like it. A program that
stays within these ranges cannot tell the memory map from flat memory: on both it
does the same, for any number of steps.
-/

namespace Handheld

namespace MemoryMap

/-- The addresses that a program may read. The echo of work memory is not among
them, so that each of them names a place of its own. -/
def PlainRead (address : UInt16) : Prop :=
  address.toNat ≤ 0x9FFF ∨ 0xC000 ≤ address.toNat ∧ address.toNat ≤ 0xDFFF ∨
    0xFF80 ≤ address.toNat

instance : DecidablePred PlainRead := by
  unfold PlainRead
  infer_instance

def PlainWrite (address : UInt16) : Prop :=
  0x8000 ≤ address.toNat ∧ address.toNat ≤ 0x9FFF ∨
    0xC000 ≤ address.toNat ∧ address.toNat ≤ 0xDFFF ∨ 0xFF80 ≤ address.toNat

instance : DecidablePred PlainWrite := by
  unfold PlainWrite
  infer_instance

theorem PlainWrite.plainRead {a : UInt16} (h : PlainWrite a) : PlainRead a := by
  unfold PlainWrite at h
  unfold PlainRead
  omega

def PlainAccess : Access → Prop
  | .read address => PlainRead address
  | .write address _ => PlainWrite address

instance : DecidablePred PlainAccess := fun
  | .read address => inferInstanceAs (Decidable (PlainRead address))
  | .write address _ => inferInstanceAs (Decidable (PlainWrite address))

theorem PlainRead.named {a : UInt16} (h : PlainRead a) : ∃ p, Place.ofAddress? a = some p := by
  have hn : ¬Hole a := by
    unfold PlainRead at h
    unfold Hole
    omega
  obtain ⟨p, hp⟩ := Place.exists_named hn
  exact ⟨p, Place.ofAddress?_of_named hp⟩

theorem PlainRead.unique {a b : UInt16} {p : Place} (ha : PlainRead a) (hb : PlainRead b)
    (hna : Place.Named a.toNat p) (hnb : Place.Named b.toNat p) : a = b := by
  apply UInt16.toNat_inj.mp
  cases p with
  | work i =>
    unfold PlainRead at ha hb
    simp only [Place.Named] at hna hnb
    omega
  | _ => exact named_unique (by simp) hna hnb

/-- A place that may be written keeps what is written to it, and changes no other. -/
theorem PlainWrite.readPlace_write {a : UInt16} {p : Place} (ha : PlainWrite a)
    (hn : Place.Named a.toNat p) (m : MemoryMap) (v : UInt8) (q : Place) :
    (m.writePlace p v).readPlace q = if p = q then v else m.readPlace q := by
  unfold PlainWrite at ha
  cases p with
  | work i => exact readPlace_write_work m v q i
  | serialData | high i | interruptEnable => exact readPlace_write_plain m v q rfl
  | picture target =>
    cases target with
    | video i => exact readPlace_write_plain m v q rfl
    | register r =>
      cases r
      all_goals
        simp only [Place.Named, Picture.Register.number] at hn
        omega
  | _ =>
    simp only [Place.Named] at hn
    omega

theorem read?_store_plain (m : MemoryMap) {a b : UInt16} (ha : PlainWrite a) (hb : PlainRead b)
    (v : UInt8) :
    Bus.read? (Bus.store m a v) b = if a = b then some v else Bus.read? m b := by
  obtain ⟨p, hp⟩ := ha.plainRead.named
  obtain ⟨q, hq⟩ := hb.named
  have hnp := Place.named_of_ofAddress? hp
  have hnq := Place.named_of_ofAddress? hq
  have hiff : p = q ↔ a = b := by
    constructor
    · rintro rfl
      exact ha.plainRead.unique hb hnp hnq
    · rintro rfl
      exact Option.some.inj (hp.symm.trans hq)
  rw [store_place m hp, read?_place _ hq, read?_place m hq, ha.readPlace_write hnp]
  simp only [hiff]
  split <;> rfl

theorem read?_new (cartridge : Image) {a : UInt16} (ha : PlainRead a) :
    Bus.read? (new cartridge none) a =
      some (if a.toNat < 0x8000 then Image.byteAt cartridge a.toNat else 0) := by
  obtain ⟨p, hp⟩ := ha.named
  have hn := Place.named_of_ofAddress? hp
  refine (read?_place _ hp).trans (congrArg some ?_)
  unfold PlainRead at ha
  cases p with
  | cartridge i =>
    simp only [Place.Named] at hn
    rw [if_pos (by omega), hn]
    exact romByte_cartridge (m := new cartridge none) (.inl rfl)
  | picture target =>
    cases target with
    | video i =>
      simp only [Place.Named] at hn
      rw [if_neg (by omega)]
      exact Ram.get_zeros i
    | register r =>
      cases r
      all_goals
        simp only [Place.Named, Picture.Register.number] at hn
        omega
  | work i | high i =>
    simp only [Place.Named] at hn
    rw [if_neg (by omega)]
    exact Ram.get_zeros i
  | interruptEnable =>
    simp only [Place.Named] at hn
    rw [if_neg (by omega)]
    rfl
  | _ =>
    simp only [Place.Named] at hn
    omega

end MemoryMap

def Image.padded (bytes : Array UInt8) (size : Nat) : Image :=
  ⟨bytes ++ Array.replicate (size - bytes.size) 0⟩

theorem Image.byteAt_padded {bytes : Array UInt8} {size n : Nat} (h : n < size) :
    byteAt (padded bytes size) n = bytes.getD n 0 := by
  have hs : n < ByteArray.size (padded bytes size) := by
    simp only [padded, ByteArray.size, Array.size_append, Array.size_replicate]
    omega
  unfold byteAt
  rw [getElem?_pos (padded bytes size) n hs, Option.getD_some, ByteArray.getElem_eq_getElem_data]
  simp only [padded, Array.getElem_append, Array.getElem_replicate, Array.getD]
  rfl

namespace FlatMemory

theorem read?_store (m : FlatMemory) (a b : UInt16) (v : UInt8) :
    Bus.read? (Bus.store m a v) b = if a = b then some v else Bus.read? m b := by
  show some ((m.poke a v).peek b) = if a = b then some v else some (m.peek b)
  rw [peek_poke]
  split <;> rfl

/-- Bytes that do not overtake themselves lie where they were loaded, in order. -/
theorem peek_load (m : FlatMemory) (origin : UInt16) {vs : List UInt8} (h : vs.length ≤ 65536)
    (a : UInt16) : (m.load origin vs).peek a = vs.getD (a - origin).toNat (m.peek a) := by
  have hcomes : origin.toNat + (a - origin).toNat ≡ a.toNat [MOD 2 ^ 16] := by
    rw [← add_ofNat_eq_iff, UInt16.ofNat_toNat, UInt16.add_comm, UInt16.sub_add_cancel]
  rcases last_arrival m origin vs a with ⟨i, v, hlast, hv, hpeek⟩ | ⟨hnone, hpeek⟩
  · -- there are too few bytes for another one to come to the same address
    have hi : i ≡ (a - origin).toNat [MOD 2 ^ 16] :=
      (hlast.1.2.trans hcomes.symm).add_left_cancel'
    have hlt : i < 2 ^ 16 := Nat.lt_of_lt_of_le hlast.1.1 h
    rw [hpeek, ← hi.eq_of_lt_of_lt hlt (a - origin).toNat_lt, List.getD, hv]
    rfl
  · have hle : vs.length ≤ (a - origin).toNat :=
      Nat.not_lt.mp fun hlt => arrivals_eq_empty_iff.mp hnone _ hlt hcomes
    rw [hpeek, List.getD, List.getElem?_eq_none hle]
    rfl

end FlatMemory

open MemoryMap

/-- A processor on the memory map and one on flat memory that a program cannot tell
apart as long as it reads plain memory only. -/
structure Twins (p : Processor MemoryMap) (q : Processor FlatMemory) : Prop where
  registers : p.registers = q.registers
  ime : p.ime = q.ime
  pending : p.pending = q.pending
  cycles : p.cycles = q.cycles
  instructions : p.instructions = q.instructions
  trace : p.trace = q.trace
  bytes : ∀ a, PlainRead a → Bus.read? p.bus a = Bus.read? q.bus a

namespace Twins

theorem settle {p : Processor MemoryMap} {q : Processor FlatMemory} (h : Twins p q) :
    Twins p.settle q.settle := by
  have hp := h.pending
  unfold Processor.settle
  cases hq : q.pending with
  | none =>
    rw [hp.trans hq]
    exact h
  | some t =>
    rw [hp.trans hq]
    exact { h with ime := rfl, pending := rfl }

theorem law : Processor.StepPairLaw Twins PlainAccess where
  registers h := h.registers
  reads address h hok := h.bytes address (hok rfl)
  accepts address v _ hok := by
    obtain ⟨place, hp⟩ := (show PlainWrite address from hok rfl).plainRead.named
    exact congrArg Option.isSome hp
  stores {p q} address v h _ hok := by
    refine { h with bytes := fun b hb => ?_ }
    rw [read?_store_plain p.bus hok hb, FlatMemory.read?_store, h.bytes b hb]
  elapses n h := { h with cycles := congrArg (·.add n) h.cycles }
  updates f h := { h with registers := congrArg f h.registers }
  switches on h := { h with ime := rfl }
  schedules t h := { h with pending := rfl }
  settles h := h.settle
  records e h := { h with trace := congrArg (·.push e) h.trace }
  finishes h := { h with instructions := congrArg (· + 1) h.instructions }
  rewinds {p₀ p q₀ q} h₀ h := by
    refine { h with registers := ?_, cycles := h₀.cycles }
    show { p.registers with pc := p₀.registers.pc } = { q.registers with pc := q₀.registers.pc }
    rw [h.registers, h₀.registers]

/-- A program that reads and writes plain memory only does the same on the memory
map as on flat memory: each step ends in the same way, and leaves the same behind. -/
theorem plain_steps {p : Processor MemoryMap} {q : Processor FlatMemory} (h : Twins p q) (n : Nat)
    (hplain : ∀ a ∈ Processor.step.traffic n q, PlainAccess a) :
    (∀ k < n, (Processor.step.run (Processor.step.after k p)).result =
      (Processor.step.run (Processor.step.after k q)).result) ∧
    Processor.step.traffic n p = Processor.step.traffic n q ∧
    Twins (Processor.step.after n p) (Processor.step.after n q) :=
  law.step.after n h hplain

theorem of_program {program : List UInt8} (h : program.length ≤ 0x8000) (registers : Registers) :
    Twins { bus := .new (Image.padded program.toArray 0x8000) none, registers }
      { bus := .withProgram 0 program, registers } where
  registers := rfl
  ime := rfl
  pending := rfl
  cycles := rfl
  instructions := rfl
  trace := rfl
  bytes a ha := by
    have hflat : (FlatMemory.withProgram 0 program).peek a = program.getD a.toNat 0 := by
      rw [FlatMemory.withProgram, FlatMemory.peek_load _ _ (Nat.le_trans h (by decide)),
        UInt16.sub_zero]
      exact congrArg (program.getD a.toNat) (Ram.get_zeros _)
    refine (read?_new _ ha).trans (congrArg some ?_)
    rw [hflat]
    split
    · rename_i hlt
      rw [Image.byteAt_padded hlt]
      simp
    · rename_i hge
      rw [List.getD, List.getElem?_eq_none (by omega)]
      rfl

def counting : List UInt8 := [0x34, 0x76]

theorem plain_steps_counting :
    let p : Processor MemoryMap :=
      { bus := .new (Image.padded counting.toArray 0x8000) none, registers := { h := 0x80 } }
    let q : Processor FlatMemory :=
      { bus := .withProgram 0 counting, registers := { h := 0x80 } }
    Twins p q ∧ (∀ a ∈ Processor.step.traffic 2 q, PlainAccess a) ∧
      Twins (Processor.step.after 2 p) (Processor.step.after 2 q) := by
  intro p q
  have h : Twins p q := of_program (by decide) { h := 0x80 }
  have hplain : ∀ a ∈ Processor.step.traffic 2 q, PlainAccess a := by decide +kernel
  exact ⟨h, hplain, (plain_steps h 2 hplain).2.2⟩

end Twins

end Handheld
