import Handheld.Proofs.Commands
import Handheld.Proofs.Layout
import Handheld.Proofs.Masks

/-!
# What is always true of a console

Some registers have bits that do not exist, the picture unit's clock stays within
a frame, a transfer is never left pending, clock cycles come four to a machine
cycle, and the trace does not outgrow its capacity. All of this holds at power-on
and is kept by every command.
-/

namespace Handheld

-- ---------------------------------------------------------------------------
-- The units
-- ---------------------------------------------------------------------------

theorem Flags.lowNibble_toByte (f : Flags) : Byte.lowNibble f.toByte = 0 := by
  obtain ⟨z, n, h, c⟩ := f
  cases z <;> cases n <;> cases h <;> cases c <;> decide

def Cycles.Consistent (c : Cycles) : Prop := c.t = 4 * c.m

theorem Cycles.Consistent.add {c : Cycles} (h : c.Consistent) (n : Nat) :
    (c.add n).Consistent := by
  unfold Consistent at h ⊢
  rw [Cycles.add, h, UInt64.mul_add, UInt64.mul_comm (UInt64.ofNat n)]

structure Trace.Bounded (n : Nat) (t : Trace) : Prop where
  capacity : t.capacity = n
  size : t.size ≤ n

theorem Trace.Bounded.push {n : Nat} {t : Trace} (h : t.Bounded n) (e : TraceEntry) :
    (t.push e).Bounded n := by
  obtain ⟨rfl, hs⟩ := h
  unfold Trace.size at hs
  unfold Trace.push
  split
  · exact ⟨rfl, hs⟩
  · split
    · rename_i hlt
      refine ⟨rfl, ?_⟩
      simp only [Trace.size, Array.size_push]
      exact hlt
    · rename_i hpos hfull
      refine ⟨rfl, ?_⟩
      simp only [Trace.size, Array.size_push, Array.size_extract]
      omega

/-- No register holds a bit that its mask keeps out, and where there is no register
nothing is held. -/
def Sound.Masked (s : Sound) : Prop :=
  ∀ i, s.registers.get i &&& (mask? i).getD 0 = s.registers.get i

theorem Sound.Masked.write {s : Sound} (h : s.Masked) (i : Fin 48) (v : UInt8) :
    (s.write i v).Masked := by
  intro j
  unfold Sound.write
  cases hm : mask? i with
  | none => exact h j
  | some mask =>
    dsimp only
    rw [Ram.get_set]
    split
    · rename_i hij
      subst hij
      rw [hm, Option.getD_some, UInt8.and_assoc, UInt8.and_self]
    · exact h j

theorem Sound.Masked.sweep {s : Sound} (h : s.Masked) :
    s.sweepRegister ≤ 0x7F ∧ s.sweepTime ≤ 7 := by
  have hle : s.sweepRegister ≤ 0x7F := by
    rw [show s.sweepRegister = s.registers.get 0 &&& 0x7F from (h 0).symm]
    exact UInt8.and_le_right
  refine ⟨hle, ?_⟩
  rw [UInt8.le_iff_toNat_le] at hle ⊢
  show (s.sweepRegister / 16).toNat ≤ 7
  rw [UInt8.toNat_div]
  exact Nat.div_le_div_right hle

namespace Picture

/-- The clock is within a frame, and the status has no bits but 3 to 6. -/
structure WellFormed (p : Picture) : Prop where
  dots : p.dots < dotsPerFrame
  stat : p.stat &&& 0x78 = p.stat

theorem toNat_dots_lt {p : Picture} (h : p.dots < dotsPerFrame) : p.dots.toNat < 70224 :=
  UInt32.lt_iff_toNat_lt.mp h

theorem dots_lt_of_toNat_eq {p : Picture} {n : Nat} (h : p.dots.toNat = n % 70224) :
    p.dots < dotsPerFrame := by
  rw [UInt32.lt_iff_toNat_lt, h]
  exact Nat.mod_lt _ (by decide)

theorem dots_advance_lt (p : Picture) (n : UInt32) : (p.advance n).dots < dotsPerFrame :=
  UInt32.mod_lt _ (by decide)

theorem WellFormed.advance {p : Picture} (h : p.WellFormed) (n : UInt32) :
    (p.advance n).WellFormed where
  dots := p.dots_advance_lt n
  stat := h.stat

theorem WellFormed.write {p : Picture} (h : p.WellFormed) (target : Target) (v : UInt8) :
    (p.write target v).WellFormed := by
  obtain ⟨hdots, hstat⟩ := h
  cases target with
  | video i => exact ⟨hdots, hstat⟩
  | register r =>
    cases r with
    | stat => exact ⟨hdots, Byte.and_and_self v 0x78⟩
    | ly => exact ⟨(by decide : (0 : UInt32) < dotsPerFrame), hstat⟩
    | _ => exact ⟨hdots, hstat⟩

theorem toNat_dots_advance {p : Picture} (h : p.dots < dotsPerFrame) (n : UInt32) :
    (p.advance n).dots.toNat = (p.dots.toNat + n.toNat) % 70224 := by
  have hp := toNat_dots_lt h
  show (p.dots.toNat + n.toNat % 70224) % 2 ^ 32 % 70224 = _
  omega

theorem toNat_ly {p : Picture} (h : p.dots < dotsPerFrame) :
    p.ly.toNat = p.dots.toNat / 456 := by
  have hp := toNat_dots_lt h
  show (p.dots / dotsPerLine).toNat % 256 = _
  rw [UInt32.toNat_div]
  exact Nat.mod_eq_of_lt (show p.dots.toNat / 456 < 256 by omega)

theorem ly_le {p : Picture} (h : p.dots < dotsPerFrame) : p.ly ≤ 153 := by
  have hp := toNat_dots_lt h
  rw [UInt8.le_iff_toNat_le, toNat_ly h]
  show p.dots.toNat / 456 ≤ 153
  omega

end Picture

-- ---------------------------------------------------------------------------
-- The memory map
-- ---------------------------------------------------------------------------

namespace MemoryMap

structure WellFormed (m : MemoryMap) : Prop where
  picture : m.picture.WellFormed
  sound : m.sound.Masked
  request : m.interruptRequest &&& 0x1F = m.interruptRequest
  control : m.serialControl &&& 0x80 = 0

theorem WellFormed.writeSerialControl {m : MemoryMap} (h : m.WellFormed) (v : UInt8) :
    (m.writeSerialControl v).WellFormed := by
  unfold MemoryMap.writeSerialControl
  split
  · have hrequest : (m.interruptRequest ||| 0x08) &&& 0x1F = m.interruptRequest ||| 0x08 := by
      rw [Byte.or_and, h.request]
      rfl
    exact ⟨h.picture, h.sound, hrequest, Byte.and_and_of_disjoint rfl⟩
  · rename_i hv
    exact ⟨h.picture, h.sound, h.request, by simpa [startsTransfer] using hv⟩

theorem WellFormed.writePlace {m : MemoryMap} (h : m.WellFormed) (place : Place) (v : UInt8) :
    (m.writePlace place v).WellFormed := by
  obtain ⟨hpicture, hsound, hrequest, hcontrol⟩ := h
  cases place with
  | picture target => exact ⟨hpicture.write target v, hsound, hrequest, hcontrol⟩
  | sound i => exact ⟨hpicture, hsound.write i v, hrequest, hcontrol⟩
  | interruptRequest => exact ⟨hpicture, hsound, Byte.and_and_self v 0x1F, hcontrol⟩
  | serialControl => exact WellFormed.writeSerialControl ⟨hpicture, hsound, hrequest, hcontrol⟩ v
  | overlaySwitch =>
    unfold MemoryMap.writePlace
    dsimp only
    split <;> exact ⟨hpicture, hsound, hrequest, hcontrol⟩
  | _ => exact ⟨hpicture, hsound, hrequest, hcontrol⟩

theorem wellFormed_law : Console.BusLaw fun m _ m' => m.WellFormed → m'.WellFormed where
  refl _ := id
  trans h h' := h' ∘ h
  read _ _ := id
  store m address v := by
    intro h
    cases hp : Place.ofAddress? address with
    | none => rwa [store_hole m hp]
    | some place =>
      rw [store_place m hp]
      exact h.writePlace place v
  advance m n h := ⟨h.picture.advance _, h.sound, h.request, h.control⟩
  takeSerial m h := ⟨h.picture, h.sound, h.request, h.control⟩

theorem wellFormed_new (cartridge : Image) (boot : Option Image) :
    (new cartridge boot).WellFormed where
  picture := ⟨(by decide : (0 : UInt32) < Picture.dotsPerFrame),
    (by decide : (0 : UInt8) &&& 0x78 = 0)⟩
  sound := by
    intro i
    rw [show (new cartridge boot).sound.registers.get i = 0 from Ram.get_zeros i, UInt8.zero_and]
  request := (by decide : (0 : UInt8) &&& 0x1F = 0)
  control := (by decide : (0 : UInt8) &&& 0x80 = 0)

end MemoryMap

-- ---------------------------------------------------------------------------
-- The console
-- ---------------------------------------------------------------------------

namespace Console

/-- What is always true of the processor of a console with the given capacity for
its trace. -/
structure WellFormed (traceCapacity : Nat) (p : Processor MemoryMap) : Prop where
  bus : p.bus.WellFormed
  cycles : p.cycles.Consistent
  trace : p.trace.Bounded traceCapacity

theorem wellFormed_law (traceCapacity : Nat) :
    Law fun p _ q => WellFormed traceCapacity p → WellFormed traceCapacity q where
  refl _ := id
  trans h h' := h' ∘ h
  reads _ := id
  writes _ h := { h with bus := MemoryMap.wellFormed_law.store _ _ _ h.bus }
  elapses p n h := { h with cycles := h.cycles.add n }
  updates p f h := { h with }
  switches p on h := { h with }
  schedules p t h := { h with }
  settles p h := by
    unfold Processor.settle
    split
    · exact { h with }
    · exact h
  records p e h := { h with trace := h.trace.push e }
  finishes p h := { h with }
  rewinds {p q as} hq h := { hq h with cycles := h.cycles }
  advances p n h := { h with bus := MemoryMap.wellFormed_law.advance _ n h.bus }
  takes p h := { h with bus := MemoryMap.wellFormed_law.takeSerial _ h.bus }
  resets p h := { h with cycles := rfl }
  debugs p on h := { h with }

theorem wellFormed_new (cartridge : Image) (boot : Option Image) (traceCapacity : Nat)
    (viewport : Viewport) :
    WellFormed traceCapacity (new cartridge boot traceCapacity viewport).processor where
  bus := MemoryMap.wellFormed_new cartridge boot
  cycles := rfl
  trace := ⟨rfl, Nat.zero_le _⟩

theorem wellFormed_perform (cartridge : Image) (boot : Option Image) (traceCapacity : Nat)
    (viewport : Viewport) (cs : List Command) :
    WellFormed traceCapacity
      ((perform cs).run (new cartridge boot traceCapacity viewport)).state.processor :=
  (wellFormed_law traceCapacity).perform cs _ (wellFormed_new cartridge boot traceCapacity viewport)

/-- After any commands, the bits that do not exist are clear, the counters agree,
the clock is within a frame, and the trace within its capacity. -/
theorem wellFormed_after_commands (cartridge : Image) (boot : Option Image) (traceCapacity : Nat)
    (viewport : Viewport) (cs : List Command) :
    let c := ((perform cs).run (new cartridge boot traceCapacity viewport)).state
    let m := c.processor.bus
    Byte.lowNibble c.processor.registers.flags.toByte = 0 ∧
      c.processor.cycles.t = 4 * c.processor.cycles.m ∧
      c.picture.dots < Picture.dotsPerFrame ∧
      c.picture.ly.toNat = c.picture.dots.toNat / 456 ∧ c.picture.ly ≤ 153 ∧
      c.picture.stat &&& 0x78 = c.picture.stat ∧
      m.interruptRequest &&& 0x1F = m.interruptRequest ∧
      m.serialControl &&& 0x80 = 0 ∧
      (∀ i, m.sound.registers.get i &&& (Sound.mask? i).getD 0 = m.sound.registers.get i) ∧
      Bus.read? m 0xFF10 = some m.sound.sweepRegister ∧ m.sound.sweepRegister ≤ 0x7F ∧
      m.sound.sweepTime ≤ 7 ∧
      c.processor.trace.capacity = traceCapacity ∧
      c.processor.trace.toList.length ≤ traceCapacity := by
  intro c m
  have h := wellFormed_perform cartridge boot traceCapacity viewport cs
  obtain ⟨hsweep, htime⟩ := h.bus.sound.sweep
  have hdots := h.bus.picture.dots
  exact ⟨Flags.lowNibble_toByte _, h.cycles, hdots, Picture.toNat_ly hdots, Picture.ly_le hdots,
    h.bus.picture.stat, h.bus.request, h.bus.control, h.bus.sound, rfl, hsweep, htime,
    h.trace.capacity, h.trace.size⟩

end Console

end Handheld
