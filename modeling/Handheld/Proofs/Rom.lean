import Handheld.Proofs.Commands
import Handheld.Proofs.Layout

/-!
# The cartridge under its overlay

Whatever is done to a console, its cartridge stays as it was. The boot image lies
over it until the switch is written with anything but zero; nothing puts it back.
-/

namespace Handheld

namespace MemoryMap

def switches : Access → Bool
  | .read _ => false
  | .write address v => address = 0xFF50 ∧ v ≠ 0

def switchedOff (as : List Access) : Bool := as.any switches

/-- What accesses do to the images. -/
structure RomAfter (m : MemoryMap) (as : List Access) (m' : MemoryMap) : Prop where
  cartridge : m'.cartridge = m.cartridge
  overlay : m'.overlay = if switchedOff as then none else m.overlay

theorem RomAfter.of_eq {m m' : MemoryMap} {as : List Access} (hs : switchedOff as = false)
    (hc : m'.cartridge = m.cartridge) (ho : m'.overlay = m.overlay) : RomAfter m as m' :=
  ⟨hc, by rw [hs, ho]; rfl⟩

theorem RomAfter.trans {m m' m'' : MemoryMap} {as bs : List Access} (h : RomAfter m as m')
    (h' : RomAfter m' bs m'') : RomAfter m (as ++ bs) m'' where
  cartridge := h'.cartridge.trans h.cartridge
  overlay := by
    rw [h'.overlay, h.overlay, switchedOff, switchedOff, switchedOff, List.any_append]
    cases as.any switches <;> cases bs.any switches <;> rfl

theorem romAfter_writePlace (m : MemoryMap) {address : UInt16} {p : Place}
    (h : Place.ofAddress? address = some p) (v : UInt8) :
    RomAfter m [.write address v] (m.writePlace p v) := by
  -- the serial control register is the one other place that is not a plain field
  by_cases hp : p = .overlaySwitch
  · subst hp
    obtain rfl : address = 0xFF50 := UInt16.toNat_inj.mp (Place.named_of_ofAddress? h)
    by_cases hv : v = 0
    · exact .of_eq (by simp [switchedOff, switches, hv]) (by simp [writePlace, hv])
        (by simp [writePlace, hv])
    · exact ⟨by simp [writePlace, hv], by simp [writePlace, switchedOff, switches, hv]⟩
  · have hne : address ≠ 0xFF50 := by
      rintro rfl
      exact hp (Option.some.inj (h.symm.trans rfl))
    have hs : switchedOff [.write address v] = false := by simp [switchedOff, switches, hne]
    cases p with
    | overlaySwitch => exact absurd rfl hp
    | serialControl =>
      unfold writePlace writeSerialControl
      dsimp only
      split <;> exact .of_eq hs rfl rfl
    | _ => exact .of_eq hs rfl rfl

theorem romAfter_law : Console.BusLaw RomAfter where
  refl m := .of_eq rfl rfl rfl
  trans := .trans
  read m address := .of_eq rfl rfl rfl
  store m address v := by
    cases h : Place.ofAddress? address with
    | none =>
      have hne : address ≠ 0xFF50 := by
        rintro rfl
        cases h
      rw [store_hole m h]
      exact .of_eq (by simp [switchedOff, switches, hne]) rfl rfl
    | some p =>
      rw [store_place m h]
      exact romAfter_writePlace m h v
  advance m n := .of_eq rfl rfl rfl
  takeSerial m := .of_eq rfl rfl rfl

def imageByte (cartridge : Image) (overlay : Option Image) (n : Nat) : UInt8 :=
  match overlay with
  | some boot => if n ≤ 0x00FF then Image.byteAt boot n else Image.byteAt cartridge n
  | none => Image.byteAt cartridge n

theorem romByte_eq (m : MemoryMap) (i : Fin 0x8000) :
    m.romByte i = imageByte m.cartridge m.overlay i.val := by
  unfold imageByte
  cases ho : m.overlay with
  | none => exact romByte_cartridge (.inl ho)
  | some boot =>
    dsimp only
    split
    · rename_i hi
      exact romByte_overlay ho hi
    · rename_i hi
      exact romByte_cartridge (.inr (Nat.not_le.mp hi))

theorem read?_rom (m : MemoryMap) {address : UInt16} (h : address.toNat ≤ 0x7FFF) :
    Bus.read? m address = some (imageByte m.cartridge m.overlay address.toNat) := by
  have hp : Place.ofAddress? address = some (.cartridge ⟨address.toNat, by omega⟩) :=
    Place.ofAddress?_of_named rfl
  exact (read?_place m hp).trans (congrArg some (romByte_eq m _))

end MemoryMap

namespace Console

open MemoryMap

theorem rom_perform (c : Console) (cs : List Command) :
    RomAfter c.processor.bus ((perform cs).run c).accesses
      ((perform cs).run c).state.processor.bus :=
  romAfter_law.perform cs c

theorem accesses_busWrite_switch (c : Console) (v : UInt8) :
    ((Command.busWrite 0xFF50 v).action.run c).accesses = [.write 0xFF50 v] := by
  obtain ⟨⟨registers, m, ime, pending, cycles, instructions, trace, debugging⟩, viewport⟩ := c
  have hrun : (Bus.write 0xFF50 v).run m = ⟨.ok (), Bus.store m 0xFF50 v,
    Bus.said m (.write 0xFF50 v) ++ [.access (.write 0xFF50 v)]⟩ := rfl
  show Event.accesses ((Bus.write 0xFF50 v).run m).trail = _
  rw [hrun]
  simp [Bus.said]

theorem switchedOff_of_mem {cs : List Command} {v : UInt8} (hv : v ≠ 0)
    (h : Command.busWrite 0xFF50 v ∈ cs) (c : Console) :
    switchedOff ((perform cs).run c).accesses = true := by
  induction cs generalizing c with
  | nil => cases h
  | cons cmd cs ih =>
    rw [accesses_perform_cons, switchedOff, List.any_append, Bool.or_eq_true]
    rcases List.mem_cons.mp h with rfl | h
    · left
      rw [accesses_busWrite_switch]
      simp [switches, hv]
    · exact .inr (ih h _)

/-- Below `8000` a console always reads its images as they were given, the boot
image on the first page until the switch was written with anything but zero, from
outside or by an instruction. Once it was, no further command brings the boot image
back. -/
theorem rom_after_commands (cartridge : Image) (boot : Option Image) (traceCapacity : Nat)
    (viewport : Viewport) (cs : List Command) :
    let after := (perform cs).run (.new cartridge boot traceCapacity viewport)
    (∀ address : UInt16, address.toNat ≤ 0x7FFF →
      Bus.read? after.state.processor.bus address =
        some (imageByte cartridge (if switchedOff after.accesses then none else boot)
          address.toNat)) ∧
    (∀ v : UInt8, v ≠ 0 → .busWrite 0xFF50 v ∈ cs → switchedOff after.accesses = true) ∧
    (switchedOff after.accesses = true → ∀ (more : List Command) (address : UInt16),
      address.toNat ≤ 0x7FFF →
        Bus.read? ((perform more).run after.state).state.processor.bus address =
          some (Image.byteAt cartridge address.toNat)) := by
  intro after
  have h := rom_perform (.new cartridge boot traceCapacity viewport) cs
  refine ⟨fun address ha => ?_, fun v hv hm => switchedOff_of_mem hv hm _,
    fun hoff more address ha => ?_⟩
  · rw [read?_rom _ ha, h.cartridge, h.overlay]
    rfl
  · have h' := rom_perform after.state more
    have ho : after.state.processor.bus.overlay = none := by
      rw [h.overlay]
      exact if_pos hoff
    rw [read?_rom _ ha, h'.cartridge, h'.overlay, h.cartridge, ho, ite_self]
    rfl

end Console

end Handheld
