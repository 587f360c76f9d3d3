import Handheld.Proofs.Answers
import Handheld.Proofs.Rom
import Handheld.Proofs.Stepping

/-!
# How much of an image matters

A cartridge is mapped below `8000` and a boot image below `0100`; past its end an
image reads as `FF`. Whatever is asked of a console, these bytes are all it depends
on, and each of them can be found out by asking.
-/

namespace Handheld

namespace Image

def SameBelow (n : Nat) (a b : Image) : Prop := ∀ i < n, byteAt a i = byteAt b i

def extended (image : Image) (n : Nat) : Image := image ++ ⟨Array.replicate n 0xFF⟩

variable {image : Image} {i n : Nat}

theorem byteAt_of_lt (h : i < image.size) : byteAt image i = image[i] := by
  simp [byteAt, h]

theorem byteAt_of_le (h : image.size ≤ i) : byteAt image i = 0xFF := by
  simp [byteAt, h]

theorem byteAt_extract (h : i < n) : byteAt (image.extract 0 n) i = byteAt image i := by
  rcases Nat.lt_or_ge i image.size with hi | hi
  · have hsize : i < (image.extract 0 n).size := by
      rw [ByteArray.size_extract]
      omega
    rw [byteAt_of_lt hsize, byteAt_of_lt hi, ByteArray.getElem_extract]
    simp
  · have hsize : (image.extract 0 n).size ≤ i := by
      rw [ByteArray.size_extract]
      omega
    rw [byteAt_of_le hsize, byteAt_of_le hi]

theorem byteAt_extended (image : Image) (n i : Nat) :
    byteAt (image.extended n) i = byteAt image i := by
  rcases Nat.lt_or_ge i image.size with hi | hi
  · have hsize : i < (image.extended n).size := by
      rw [extended, ByteArray.size_append]
      omega
    rw [byteAt_of_lt hsize, byteAt_of_lt hi]
    exact ByteArray.getElem_append_left hi
  · rw [byteAt_of_le hi]
    rcases Nat.lt_or_ge i (image.extended n).size with hsize | hsize
    · rw [byteAt_of_lt hsize]
      refine (ByteArray.getElem_append_right hi).trans ?_
      exact Array.getElem_replicate _
    · exact byteAt_of_le hsize

end Image

open Image (SameBelow)

namespace MemoryMap

theorem imageByte_of_gt (cartridge : Image) (overlay : Option Image) {n : Nat} (h : 0x00FF < n) :
    imageByte cartridge overlay n = Image.byteAt cartridge n := by
  cases overlay with
  | none => rfl
  | some boot => exact if_neg (Nat.not_le.mpr h)

/-- The maps differ at most in their images, and there not in what can be read. -/
structure SameWindow (m m' : MemoryMap) : Prop where
  cartridge : SameBelow 0x8000 m.cartridge m'.cartridge
  page : ∀ i < 0x100, imageByte m.cartridge m.overlay i = imageByte m'.cartridge m'.overlay i
  rest : m' = { m with cartridge := m'.cartridge, overlay := m'.overlay }

variable {m m' : MemoryMap}

theorem SameWindow.romByte (h : SameWindow m m') (i : Fin 0x8000) :
    m.romByte i = m'.romByte i := by
  rw [romByte_eq, romByte_eq]
  rcases Nat.lt_or_ge i.val 0x100 with hi | hi
  · exact h.page i.val hi
  · rw [imageByte_of_gt _ _ hi, imageByte_of_gt _ _ hi]
    exact h.cartridge i.val i.isLt

theorem SameWindow.readPlace (h : SameWindow m m') (place : Place) :
    m.readPlace place = m'.readPlace place := by
  cases place with
  | cartridge i => exact h.romByte i
  | _ =>
    rw [h.rest]
    rfl

theorem SameWindow.read? (h : SameWindow m m') (address : UInt16) :
    Bus.read? m address = Bus.read? m' address :=
  congrArg (Option.map · (Place.ofAddress? address)) (funext h.readPlace)

theorem SameWindow.writePlace (h : SameWindow m m') (place : Place) (v : UInt8) :
    SameWindow (m.writePlace place v) (m'.writePlace place v) := by
  obtain ⟨hcartridge, hpage, hrest⟩ := h
  generalize m'.cartridge = cartridge at *
  generalize m'.overlay = overlay at *
  subst hrest
  cases place with
  | overlaySwitch =>
    unfold MemoryMap.writePlace
    dsimp only
    split
    · exact ⟨hcartridge, hpage, rfl⟩
    · -- without boot images the first page is the cartridge's own
      exact ⟨hcartridge, fun i hi => hcartridge i (by omega), rfl⟩
  | serialControl =>
    unfold MemoryMap.writePlace writeSerialControl
    dsimp only
    split <;> exact ⟨hcartridge, hpage, rfl⟩
  | _ => exact ⟨hcartridge, hpage, rfl⟩

theorem SameWindow.store (h : SameWindow m m') (address : UInt16) (v : UInt8) :
    SameWindow (Bus.store m address v) (Bus.store m' address v) := by
  cases hp : Place.ofAddress? address with
  | none => rwa [store_hole m hp, store_hole m' hp]
  | some place =>
    rw [store_place m hp, store_place m' hp]
    exact h.writePlace place v

end MemoryMap

open MemoryMap

namespace Console

structure SameButImages (p q : Processor MemoryMap) : Prop where
  bus : SameWindow p.bus q.bus
  rest : q = { p with bus := q.bus }

theorem SameButImages.settle {p q : Processor MemoryMap} (h : SameButImages p q) :
    SameButImages p.settle q.settle := by
  refine ⟨?_, ?_⟩
  · simpa using h.bus
  · calc q.settle
      _ = { p with bus := q.bus }.settle := congrArg Processor.settle h.rest
      _ = { p.settle with bus := q.bus } := by rw [Processor.settle_eq, Processor.settle_eq]; rfl
      _ = { p.settle with bus := q.settle.bus } := by rw [Processor.bus_settle]

theorem sameButImages_law : PairLaw SameButImages where
  registers h := by rw [h.rest]
  reads address h _ := h.bus.read? address
  accepts _ _ _ _ := rfl
  stores address v h _ _ := ⟨h.bus.store address v, by rw [h.rest]⟩
  elapses n h := ⟨h.bus, congrArg (·.elapse n) h.rest⟩
  updates f h := ⟨h.bus, congrArg (·.setRegisters f) h.rest⟩
  switches on h := ⟨h.bus, congrArg (fun r => { r with ime := on }) h.rest⟩
  schedules t h := ⟨h.bus, congrArg (·.schedule t) h.rest⟩
  settles h := h.settle
  records e h := ⟨h.bus, congrArg (fun r => { r with trace := r.trace.push e }) h.rest⟩
  finishes h := ⟨h.bus, congrArg (fun r => { r with instructions := r.instructions + 1 }) h.rest⟩
  rewinds {p₀ p q₀ q} h₀ h := by
    refine ⟨h.bus, ?_⟩
    rw [h.rest, h₀.rest]
    rfl
  advances n h := ⟨⟨h.bus.cartridge, h.bus.page, by rw [h.bus.rest]; rfl⟩, by rw [h.rest]⟩
  takes h := ⟨⟨h.bus.cartridge, h.bus.page, by rw [h.bus.rest]; rfl⟩, by rw [h.rest]⟩
  resets h := ⟨h.bus, congrArg (·.resetCycles) h.rest⟩
  debugs on h := ⟨h.bus, congrArg (fun r => { r with debugging := on }) h.rest⟩
  report h := by rw [h.rest]; rfl
  serial h := by rw [h.bus.rest]
  interrupts h := by rw [h.bus.rest]; rfl
  picture h := by rw [h.bus.rest]

-- ---------------------------------------------------------------------------
-- Power-on
-- ---------------------------------------------------------------------------

section
variable (traceCapacity : Nat) (viewport : Viewport)

def asked (cartridge : Image) (boot : Option Image) (rs : List Request) :
    List (Except Fault Answer) :=
  answers rs (new cartridge boot traceCapacity viewport)

variable {cartridge cartridge' : Image} {boot boot' : Option Image} {a : UInt16}

theorem asked_busRead (h : a.toNat ≤ 0x7FFF) :
    asked traceCapacity viewport cartridge boot [.command (.busRead a)] =
      [.ok (.byte (imageByte cartridge boot a.toNat))] := by
  have hread := read?_rom (.new cartridge boot) h
  simp [asked, answers, Request.ask, Command.ask, bind, onProcessor, new, Processor.new,
    Processor.onBus, Action.run, Bus.read, hread]
  rfl

theorem asked_without_overlay (h : a.toNat ≤ 0x7FFF) :
    asked traceCapacity viewport cartridge boot
        [.command (.busWrite 0xFF50 1), .command (.busRead a)] =
      [.ok .done, .ok (.byte (Image.byteAt cartridge a.toNat))] := by
  have hresult : ((Request.command (.busWrite 0xFF50 1)).ask.run
      (new cartridge boot traceCapacity viewport)).result = .ok .done := rfl
  have hstate : ((Request.command (.busWrite 0xFF50 1)).ask.run
      (new cartridge boot traceCapacity viewport)).state =
        new cartridge none traceCapacity viewport := rfl
  rw [asked, answers, hresult, hstate]
  exact congrArg (.ok .done :: ·) (asked_busRead traceCapacity viewport h)

theorem asked_eq (hcartridge : SameBelow 0x8000 cartridge cartridge')
    (hpage : ∀ i < 0x100, imageByte cartridge boot i = imageByte cartridge' boot' i)
    (rs : List Request) :
    asked traceCapacity viewport cartridge boot rs =
      asked traceCapacity viewport cartridge' boot' rs := by
  have hbus : SameWindow (.new cartridge boot) (.new cartridge' boot') :=
    ⟨hcartridge, hpage, rfl⟩
  have hconsole : Beside SameButImages (new cartridge boot traceCapacity viewport)
      (new cartridge' boot' traceCapacity viewport) := ⟨⟨hbus, rfl⟩, rfl⟩
  exact sameButImages_law.answers_eq hconsole rs

/-- Two power-ons cannot be told apart by asking exactly if the cartridges read the
same where they are mapped, and the first page does. -/
theorem asked_eq_iff :
    (∀ rs, asked traceCapacity viewport cartridge boot rs =
        asked traceCapacity viewport cartridge' boot' rs) ↔
      SameBelow 0x8000 cartridge cartridge' ∧
        ∀ i < 0x100, imageByte cartridge boot i = imageByte cartridge' boot' i := by
  constructor
  · intro h
    have hnat {i : Nat} (hi : i < 0x8000) : (UInt16.ofNat i).toNat = i := by
      rw [UInt16.toNat_ofNat']
      omega
    refine ⟨fun i hi => ?_, fun i hi => ?_⟩
    · have hle : (UInt16.ofNat i).toNat ≤ 0x7FFF := by
        rw [hnat hi]
        omega
      have hasked := h [.command (.busWrite 0xFF50 1), .command (.busRead (.ofNat i))]
      rw [asked_without_overlay _ _ hle, asked_without_overlay _ _ hle, hnat hi] at hasked
      simpa using hasked
    · have hlt : i < 0x8000 := by omega
      have hle : (UInt16.ofNat i).toNat ≤ 0x7FFF := by
        rw [hnat hlt]
        omega
      have hasked := h [.command (.busRead (.ofNat i))]
      rw [asked_busRead _ _ hle, asked_busRead _ _ hle, hnat hlt] at hasked
      simpa using hasked
  · rintro ⟨hcartridge, hpage⟩
    exact asked_eq traceCapacity viewport hcartridge hpage

theorem samePage (hcartridge : SameBelow 0x8000 cartridge cartridge')
    (hboot : Option.Rel (SameBelow 0x100) boot boot') :
    ∀ i < 0x100, imageByte cartridge boot i = imageByte cartridge' boot' i := by
  intro i hi
  cases hboot with
  | none => exact hcartridge i (by omega)
  | some h =>
    unfold imageByte
    dsimp only
    rw [if_pos (Nat.le_of_lt_succ hi), if_pos (Nat.le_of_lt_succ hi), h i hi]

end

/-- Two cartridges that read the same below `8000`, with no boot images or with two that
read the same below `0100`, give consoles that answer the same to all requests. In
particular nothing is changed by what an image has beyond these addresses, or by bytes
`FF` at its end. Nothing less will do: two power-ons that answer the same read the same
below `8000` with the boot image switched off, and on the first page with it switched
on. So an empty boot image is not the same as none, unless the cartridge has nothing but
`FF` on its first page. -/
theorem only_window_matters (traceCapacity : Nat) (viewport : Viewport) :
    let ask := asked traceCapacity viewport
    (∀ cartridge cartridge' boot boot', SameBelow 0x8000 cartridge cartridge' →
      Option.Rel (SameBelow 0x100) boot boot' → ask cartridge boot = ask cartridge' boot') ∧
    (∀ cartridge boot,
      ask (cartridge.extract 0 0x8000) (boot.map (·.extract 0 0x100)) = ask cartridge boot) ∧
    (∀ cartridge boot m n,
      ask (Image.extended cartridge m) (boot.map (Image.extended · n)) = ask cartridge boot) ∧
    (∀ cartridge cartridge' boot boot', ask cartridge boot = ask cartridge' boot' ↔
      SameBelow 0x8000 cartridge cartridge' ∧
        ∀ i < 0x100, imageByte cartridge boot i = imageByte cartridge' boot' i) ∧
    ∀ cartridge, ask cartridge (some .empty) = ask cartridge none ↔
      ∀ i < 0x100, Image.byteAt cartridge i = 0xFF := by
  intro ask
  have hiff (cartridge cartridge' : Image) (boot boot' : Option Image) :
      ask cartridge boot = ask cartridge' boot' ↔ SameBelow 0x8000 cartridge cartridge' ∧
        ∀ i < 0x100, imageByte cartridge boot i = imageByte cartridge' boot' i :=
    funext_iff.trans (asked_eq_iff traceCapacity viewport)
  refine ⟨?_, ?_, ?_, hiff, ?_⟩
  · intro cartridge cartridge' boot boot' hcartridge hboot
    exact (hiff ..).mpr ⟨hcartridge, samePage hcartridge hboot⟩
  · intro cartridge boot
    have hcartridge : SameBelow 0x8000 (cartridge.extract 0 0x8000) cartridge :=
      fun i hi => Image.byteAt_extract hi
    have hboot : Option.Rel (SameBelow 0x100) (boot.map (·.extract 0 0x100)) boot := by
      cases boot with
      | none => exact .none
      | some b => exact .some fun i hi => Image.byteAt_extract hi
    exact (hiff ..).mpr ⟨hcartridge, samePage hcartridge hboot⟩
  · intro cartridge boot m n
    have hcartridge : SameBelow 0x8000 (Image.extended cartridge m) cartridge :=
      fun i _ => Image.byteAt_extended cartridge m i
    have hboot : Option.Rel (SameBelow 0x100) (boot.map (Image.extended · n)) boot := by
      cases boot with
      | none => exact .none
      | some b => exact .some fun i _ => Image.byteAt_extended b n i
    exact (hiff ..).mpr ⟨hcartridge, samePage hcartridge hboot⟩
  · intro cartridge
    have hpage (i : Nat) (hi : i < 0x100) : imageByte cartridge (some .empty) i = 0xFF := by
      unfold imageByte
      dsimp only
      rw [if_pos (Nat.le_of_lt_succ hi)]
      exact Image.byteAt_of_le (Nat.zero_le i)
    rw [hiff]
    constructor
    · rintro ⟨-, h⟩ i hi
      rw [← hpage i hi, h i hi]
      rfl
    · intro h
      refine ⟨fun _ _ => rfl, fun i hi => ?_⟩
      rw [hpage i hi]
      exact (h i hi).symm

/-- A cartridge of three bytes, of which the last one reads as if it were missing. -/
theorem only_window_matters_atEnd :
    SameBelow 0x8000 ⟨#[0x3E, 0x12, 0xFF]⟩ ⟨#[0x3E, 0x12]⟩ ∧
      Option.Rel (SameBelow 0x100) (some ⟨#[0xFF]⟩) (some .empty) ∧
      asked 4 ⟨2, 2⟩ ⟨#[0x3E, 0x12, 0xFF]⟩ (some ⟨#[0xFF]⟩) =
        asked 4 ⟨2, 2⟩ ⟨#[0x3E, 0x12]⟩ (some .empty) := by
  have hcartridge : SameBelow 0x8000 ⟨#[0x3E, 0x12, 0xFF]⟩ ⟨#[0x3E, 0x12]⟩ :=
    fun i _ => Image.byteAt_extended ⟨#[0x3E, 0x12]⟩ 1 i
  have hboot : Option.Rel (SameBelow 0x100) (some ⟨#[0xFF]⟩) (some .empty) :=
    .some fun i _ => Image.byteAt_extended .empty 1 i
  exact ⟨hcartridge, hboot, (only_window_matters 4 ⟨2, 2⟩).1 _ _ _ _ hcartridge hboot⟩

end Console

end Handheld
