import Handheld.Proofs.Layout
import Handheld.Proofs.Masks

/-!
# What a write changes

A write to a hole faults and changes nothing. Any other write changes the byte
that is read at its own address, and besides that only a few bytes that depend on
it: `readAfter` lists them all.
-/

namespace Handheld

namespace MemoryMap

def Plain (address : UInt16) : Prop :=
  0x8000 ≤ address.toNat ∧ address.toNat ≤ 0x9FFF ∨ address.toNat = 0xFF01 ∨
    address.toNat = 0xFF40 ∨ address.toNat = 0xFF42 ∨ address.toNat = 0xFF43 ∨
    0xFF46 ≤ address.toNat ∧ address.toNat ≤ 0xFF4B ∨ 0xFF80 ≤ address.toNat

instance : DecidablePred Plain := by
  unfold Plain
  infer_instance

def Work (address : UInt16) : Prop := 0xC000 ≤ address.toNat ∧ address.toNat ≤ 0xFDFF

instance : DecidablePred Work := by
  unfold Work
  infer_instance

/-- What a register of the sound unit keeps of a byte. Where there is none, `FF`
is read. -/
def soundByte (address : UInt16) (v : UInt8) : UInt8 :=
  if address = 0xFF10 then v &&& 0x7F
  else if address = 0xFF15 ∨ address = 0xFF1F ∨
      0xFF27 ≤ address.toNat ∧ address.toNat ≤ 0xFF2F then 0xFF
  else if address = 0xFF26 then v &&& 0x8F
  else v

def withCoincidence (status : UInt8) (on : Bool) : UInt8 :=
  status &&& 0xFB ||| if on then 0x04 else 0

/-- The byte read at `b` after `v` was written to the mapped address `a`. -/
def readAfter (m : MemoryMap) (a : UInt16) (v : UInt8) (b : UInt16) : UInt8 :=
  if Plain a then
    if b = a then v else Bus.peek m b
  else if Work a then
    if Work b ∧ a.toNat % 0x2000 = b.toNat % 0x2000 then v else Bus.peek m b
  -- a transfer ends at once, and requests its interrupt
  else if a = 0xFF02 then
    if b = 0xFF02 then 0x7E ||| v &&& 0x01
    else if b = 0xFF0F ∧ v &&& 0x80 ≠ 0 then Bus.peek m b ||| 0x08
    else Bus.peek m b
  else if a = 0xFF0F then
    if b = 0xFF0F then v ||| 0xE0 else Bus.peek m b
  else if 0xFF10 ≤ a.toNat ∧ a.toNat ≤ 0xFF3F then
    if b = a then soundByte a v else Bus.peek m b
  -- the status: bit 2 is not stored
  else if a = 0xFF41 then
    if b = 0xFF41 then 0x80 ||| v &&& 0x78 ||| Bus.peek m b &&& 0x04 else Bus.peek m b
  -- the line, and the line asked for: both show in the status
  else if a = 0xFF44 then
    if b = 0xFF44 then 0
    else if b = 0xFF41 then withCoincidence (Bus.peek m b) (Bus.peek m 0xFF45 = 0)
    else Bus.peek m b
  else if a = 0xFF45 then
    if b = 0xFF45 then v
    else if b = 0xFF41 then withCoincidence (Bus.peek m b) (Bus.peek m 0xFF44 = v)
    else Bus.peek m b
  -- the switch of the boot image
  else if a = 0xFF50 then
    if b.toNat ≤ 0x00FF ∧ v ≠ 0 ∧ m.overlayOn then Image.byteAt m.cartridge b.toNat
    else Bus.peek m b
  else Bus.peek m b

-- ---------------------------------------------------------------------------
-- The units
-- ---------------------------------------------------------------------------

end MemoryMap

theorem Sound.read_write (s : Sound) (i j : Fin 48) (v : UInt8) :
    (s.write i v).read j =
      if i = j then
        match mask? i with
        | some mask => v &&& mask
        | none => 0xFF
      else s.read j := by
  unfold write read
  by_cases hij : i = j
  · subst hij
    cases mask? i <;> simp [Ram.get_set]
  · cases mask? i <;> simp [Ram.get_set, hij]

namespace Picture

theorem status_and_coincidence (p : Picture) :
    p.status &&& 0x04 = if p.ly = p.lyc then 0x04 else 0 := by
  have hstored : (0x80 ||| p.stat &&& 0x78) &&& 0x04 = 0 := by
    rw [Byte.or_and, Byte.and_and_of_disjoint rfl]
    rfl
  unfold status
  rw [Byte.or_and, hstored, UInt8.zero_or]
  split <;> rfl

theorem status_and_others (p : Picture) : p.status &&& 0xFB = 0x80 ||| p.stat &&& 0x78 := by
  have hstored : (0x80 ||| p.stat &&& 0x78) &&& 0xFB = 0x80 ||| p.stat &&& 0x78 := by
    rw [Byte.or_and, UInt8.and_assoc]
    rfl
  unfold status
  rw [Byte.or_and, hstored]
  split <;> exact UInt8.or_zero

theorem status_eq_withCoincidence {p q : Picture} (h : q.stat = p.stat) :
    q.status = MemoryMap.withCoincidence p.status (q.ly = q.lyc) := by
  rw [MemoryMap.withCoincidence, status_and_others, status, h]
  simp

theorem register_write_stat (p : Picture) (v : UInt8) (r : Register) :
    (p.setRegister .stat v).register r =
      if r = .stat then 0x80 ||| v &&& 0x78 ||| p.status &&& 0x04 else p.register r := by
  cases r with
  | stat =>
    rw [if_pos rfl, status_and_coincidence, ← Byte.and_and_self v]
    rfl
  | _ => rfl

theorem register_write_ly (p : Picture) (v : UInt8) (r : Register) :
    (p.setRegister .ly v).register r =
      if r = .ly then 0
      else if r = .stat then MemoryMap.withCoincidence p.status (p.lyc = 0)
      else p.register r := by
  have hline : (p.setRegister .ly v).ly = 0 := by
    show ((0 : UInt32) / dotsPerLine).toUInt8 = 0
    decide
  cases r with
  | ly => exact hline
  | stat =>
    refine (status_eq_withCoincidence (p := p) (q := p.setRegister .ly v) rfl).trans ?_
    rw [hline]
    simp [eq_comm, setRegister]
  | _ => rfl

theorem register_write_lyc (p : Picture) (v : UInt8) (r : Register) :
    (p.setRegister .lyc v).register r =
      if r = .lyc then v
      else if r = .stat then MemoryMap.withCoincidence p.status (p.ly = v)
      else p.register r := by
  cases r with
  | stat => exact status_eq_withCoincidence rfl
  | _ => rfl

def Target.plain : Target → Bool
  | .video _ => true
  | .register r => r ≠ .stat ∧ r ≠ .ly ∧ r ≠ .lyc

theorem read_write_plain (p : Picture) {t : Target} (ht : t.plain = true) (v : UInt8)
    (t' : Target) : (p.write t v).read t' = if t = t' then v else p.read t' := by
  cases t with
  | video i =>
    cases t' with
    | video j => simp [write, read, Ram.get_set]
    | register r => cases r <;> rfl
  | register r =>
    cases t' with
    | video j => cases r <;> rfl
    | register r' => cases r <;> first | (cases r' <;> rfl) | cases ht

end Picture

-- ---------------------------------------------------------------------------
-- Places
-- ---------------------------------------------------------------------------

def Place.plain : Place → Bool
  | .serialData | .high _ | .interruptEnable => true
  | .picture target => target.plain
  | _ => false

namespace MemoryMap

variable (m : MemoryMap) (v : UInt8) (q : Place)

theorem readPlace_write_plain {p : Place} (hp : p.plain = true) :
    (m.writePlace p v).readPlace q = if p = q then v else m.readPlace q := by
  cases p with
  | serialData | high i | interruptEnable =>
    cases q <;> simp [writePlace, readPlace, romByte, Ram.get_set]
  | picture target =>
    cases q <;> simp [writePlace, readPlace, romByte, Picture.read_write_plain _ hp]
  | _ => cases hp

theorem readPlace_write_work (i : Fin 0x2000) :
    (m.writePlace (.work i) v).readPlace q = if .work i = q then v else m.readPlace q := by
  cases q <;> simp [writePlace, readPlace, romByte, Ram.get_set]

theorem readPlace_write_serialControl :
    (m.writePlace .serialControl v).readPlace q =
      if q = .serialControl then 0x7E ||| v &&& 0x01
      else if q = .interruptRequest ∧ v &&& 0x80 ≠ 0 then m.readPlace q ||| 0x08
      else m.readPlace q := by
  have hset : v &&& 0x7F ||| 0x7E = 0x7E ||| v &&& 0x01 := by
    rw [UInt8.or_comm 0x7E]
    exact Byte.and_or_or v 0x01 0x7E
  have hrequest (r : UInt8) : r ||| 0x08 ||| 0xE0 = r ||| 0xE0 ||| 0x08 := by
    rw [UInt8.or_assoc, UInt8.or_assoc, UInt8.or_comm 0x08]
  by_cases h : v &&& 0x80 = 0
  · have hclear : v ||| 0x7E = 0x7E ||| v &&& 0x01 := by
      rw [← hset, Byte.and_of_and_eq_zero rfl h]
    cases q <;> simp [writePlace, writeSerialControl, startsTransfer, h, readPlace, romByte, hclear]
  · cases q <;> simp [writePlace, writeSerialControl, startsTransfer, h, readPlace, romByte, hset,
      Interrupts.serial, hrequest]

theorem readPlace_write_interruptRequest :
    (m.writePlace .interruptRequest v).readPlace q =
      if q = .interruptRequest then v ||| 0xE0 else m.readPlace q := by
  have hmask : v &&& 0x1F ||| 0xE0 = v ||| 0xE0 := by
    rw [← Byte.and_or_or v 0x1F 0xE0]
    exact congrArg (· ||| 0xE0) (Byte.and_all v)
  cases q <;> simp [writePlace, readPlace, romByte, hmask]

theorem readPlace_write_sound (i : Fin 48) :
    (m.writePlace (.sound i) v).readPlace q =
      if .sound i = q then
        match Sound.mask? i with
        | some mask => v &&& mask
        | none => 0xFF
      else m.readPlace q := by
  cases q <;> simp [writePlace, readPlace, romByte, Sound.read_write]

theorem readPlace_write_stat :
    (m.writePlace (.picture (.register .stat)) v).readPlace q =
      if q = .picture (.register .stat) then 0x80 ||| v &&& 0x78 ||| m.readPlace q &&& 0x04
      else m.readPlace q := by
  cases q with
  | picture target =>
    cases target with
    | video i => rfl
    | register r =>
      refine (Picture.register_write_stat m.picture v r).trans ?_
      cases r <;> rfl
  | _ => rfl

theorem readPlace_write_ly :
    (m.writePlace (.picture (.register .ly)) v).readPlace q =
      if q = .picture (.register .ly) then 0
      else if q = .picture (.register .stat) then
        withCoincidence (m.readPlace q) (m.picture.lyc = 0)
      else m.readPlace q := by
  cases q with
  | picture target =>
    cases target with
    | video i => rfl
    | register r =>
      refine (Picture.register_write_ly m.picture v r).trans ?_
      cases r <;> rfl
  | _ => rfl

theorem readPlace_write_lyc :
    (m.writePlace (.picture (.register .lyc)) v).readPlace q =
      if q = .picture (.register .lyc) then v
      else if q = .picture (.register .stat) then
        withCoincidence (m.readPlace q) (m.picture.ly = v)
      else m.readPlace q := by
  cases q with
  | picture target =>
    cases target with
    | video i => rfl
    | register r =>
      refine (Picture.register_write_lyc m.picture v r).trans ?_
      cases r <;> rfl
  | _ => rfl

theorem readPlace_write_overlaySwitch :
    (m.writePlace .overlaySwitch v).readPlace q =
      match q with
      | .cartridge i =>
        if i.val ≤ 0x00FF ∧ v ≠ 0 ∧ m.overlayOn then Image.byteAt m.cartridge i.val
        else m.readPlace q
      | _ => m.readPlace q := by
  by_cases hv : v = 0
  · cases q <;> simp [writePlace, hv]
  · have hoff : m.writePlace .overlaySwitch v = { m with overlay := none } := if_neg hv
    rw [hoff]
    cases q with
    | cartridge i =>
      refine (romByte_cartridge (m := { m with overlay := none }) (.inl rfl)).trans ?_
      dsimp only
      split
      · rfl
      · rename_i h
        refine (romByte_cartridge (m := m) ?_).symm
        by_cases hi : i.val ≤ 0x00FF
        · exact .inl (Option.not_isSome_iff_eq_none.mp fun ho => h ⟨hi, hv, ho⟩)
        · exact .inr (Nat.not_le.mp hi)
    | _ => rfl

-- ---------------------------------------------------------------------------
-- Addresses
-- ---------------------------------------------------------------------------

theorem peek_eq {m : MemoryMap} {b : UInt16} {q : Place} (hb : Place.ofAddress? b = some q) :
    Bus.peek m b = m.readPlace q :=
  Bus.peek_of_read? (by rw [← Option.map_some, ← hb]; rfl)

theorem named_unique {n n' : Nat} {p : Place} (hp : ∀ i, p ≠ .work i) (h : Place.Named n p)
    (h' : Place.Named n' p) : n = n' := by
  cases p with
  | work i => exact absurd rfl (hp i)
  | picture target => cases target <;> exact h.trans h'.symm
  | _ => exact h.trans h'.symm

theorem address_eq_iff {b k : UInt16} {q s : Place} (hb : Place.ofAddress? b = some q)
    (hk : Place.ofAddress? k = some s) (hs : ∀ i, s ≠ .work i) : b = k ↔ q = s := by
  constructor
  · rintro rfl
    exact Option.some.inj (hb.symm.trans hk)
  · rintro rfl
    exact UInt16.toNat_inj.mp
      (named_unique hs (Place.named_of_ofAddress? hb) (Place.named_of_ofAddress? hk))

theorem soundByte_named {a : UInt16} {i : Fin 48} (h : Place.Named a.toNat (.sound i)) :
    (match Sound.mask? i with
      | some mask => v &&& mask
      | none => 0xFF) = soundByte a v := by
  have h10 : a = 0xFF10 ↔ i.val = 0 := by
    rw [← UInt16.toNat_inj, h]
    exact Nat.add_eq_left
  have h26 : a = 0xFF26 ↔ i.val = 0x16 := by
    rw [← UInt16.toNat_inj, h]
    exact Nat.add_left_cancel_iff (n := 0xFF10) (m := i.val) (k := 0x16)
  have hnone : (a = 0xFF15 ∨ a = 0xFF1F ∨ 0xFF27 ≤ a.toNat ∧ a.toNat ≤ 0xFF2F) ↔
      i.val = 0x05 ∨ i.val = 0x0F ∨ 0x17 ≤ i.val ∧ i.val ≤ 0x1F := by
    rw [← UInt16.toNat_inj, ← UInt16.toNat_inj, h]
    show 0xFF10 + i.val = 0xFF15 ∨ 0xFF10 + i.val = 0xFF1F ∨ _ ↔ _
    omega
  unfold Sound.mask? soundByte
  simp only [h10, h26, hnone]
  by_cases h₁ : i.val = 0
  · simp only [h₁, ↓reduceIte]
  by_cases h₂ : i.val = 0x05 ∨ i.val = 0x0F ∨ 0x17 ≤ i.val ∧ i.val ≤ 0x1F
  · simp only [h₁, h₂, ↓reduceIte]
  by_cases h₃ : i.val = 0x16
  · simp [h₃]
  · simp only [h₁, h₂, h₃, Byte.and_all, ↓reduceIte]

theorem plain_named {a : UInt16} {p : Place} (hp : p.plain = true)
    (hn : Place.Named a.toNat p) : Plain a := by
  unfold Plain
  cases p with
  | picture target =>
    cases target with
    | video i =>
      simp only [Place.Named] at hn
      omega
    | register r =>
      cases r with
      | stat | ly | lyc => cases hp
      | _ => simp only [Place.Named, Picture.Register.number] at hn; omega
  | serialData | high i | interruptEnable =>
    simp only [Place.Named] at hn
    omega
  | _ => cases hp

theorem work_iff {b : UInt16} {q : Place} (hb : Place.ofAddress? b = some q) (i : Fin 0x2000) :
    .work i = q ↔ Work b ∧ i.val = b.toNat % 0x2000 := by
  constructor
  · rintro rfl
    have hn := Place.named_of_ofAddress? hb
    simp only [Place.Named] at hn
    unfold Work
    omega
  · rintro ⟨hw, hi⟩
    have hn : Place.Named b.toNat (.work i) := by
      unfold Work at hw
      simp only [Place.Named]
      omega
    exact Option.some.inj ((Place.ofAddress?_of_named hn).symm.trans hb)

theorem cartridge_named {b : UInt16} {q : Place} (hb : Place.ofAddress? b = some q)
    (h : b.toNat < 0x8000) : q = .cartridge ⟨b.toNat, h⟩ :=
  Option.some.inj (hb.symm.trans (Place.ofAddress?_of_named rfl))

section
variable {a b : UInt16} {p : Place} {q : Place} (hb : Place.ofAddress? b = some q)

include hb

theorem readAfter_plain (ha : Place.ofAddress? a = some p) (hp : p.plain = true) :
    m.readAfter a v b = (m.writePlace p v).readPlace q := by
  have hw : ∀ i, p ≠ .work i := by
    rintro i rfl
    cases hp
  unfold readAfter
  rw [if_pos (plain_named hp (Place.named_of_ofAddress? ha)), readPlace_write_plain m v q hp,
    peek_eq hb]
  simp only [address_eq_iff hb ha hw, eq_comm]

theorem readAfter_cartridge (ha : a.toNat < 0x8000) : m.readAfter a v b = m.readPlace q := by
  have hne : ∀ k : UInt16, 0x8000 ≤ k.toNat → a ≠ k := by
    rintro k hk rfl
    omega
  unfold readAfter
  rw [if_neg (by unfold Plain; omega), if_neg (by unfold Work; omega), if_neg (hne _ (by decide)),
    if_neg (hne _ (by decide)), if_neg (by omega), if_neg (hne _ (by decide)),
    if_neg (hne _ (by decide)), if_neg (hne _ (by decide)), if_neg (hne _ (by decide)), peek_eq hb]

theorem readAfter_work {i : Fin 0x2000} (hn : Place.Named a.toNat (.work i)) :
    m.readAfter a v b = (m.writePlace (.work i) v).readPlace q := by
  simp only [Place.Named] at hn
  have hi : a.toNat % 0x2000 = i.val := by omega
  unfold readAfter
  rw [if_neg (by unfold Plain; omega), if_pos (by unfold Work; omega), readPlace_write_work, hi,
    peek_eq hb]
  simp only [work_iff hb i]

theorem readAfter_sound {i : Fin 48} (ha : Place.ofAddress? a = some (.sound i)) :
    m.readAfter a v b = (m.writePlace (.sound i) v).readPlace q := by
  have hn := Place.named_of_ofAddress? ha
  have hs := soundByte_named v hn
  simp only [Place.Named] at hn
  have hne : ∀ k : UInt16, k.toNat < 0xFF10 → a ≠ k := by
    rintro k hk rfl
    omega
  have hw : ∀ j, Place.sound i ≠ .work j := by simp
  unfold readAfter
  rw [if_neg (by unfold Plain; omega), if_neg (by unfold Work; omega), if_neg (hne _ (by decide)),
    if_neg (hne _ (by decide)), if_pos (by omega), readPlace_write_sound, hs, peek_eq hb]
  simp only [address_eq_iff hb ha hw, eq_comm]

theorem readAfter_serialControl :
    m.readAfter 0xFF02 v b = (m.writePlace .serialControl v).readPlace q := by
  unfold readAfter
  rw [if_neg (by decide), if_neg (by decide), if_pos rfl, readPlace_write_serialControl, peek_eq hb]
  simp only [address_eq_iff hb (k := 0xFF02) (s := .serialControl) rfl nofun,
    address_eq_iff hb (k := 0xFF0F) (s := .interruptRequest) rfl nofun]

theorem readAfter_interruptRequest :
    m.readAfter 0xFF0F v b = (m.writePlace .interruptRequest v).readPlace q := by
  unfold readAfter
  rw [if_neg (by decide), if_neg (by decide), if_neg (by decide), if_pos rfl,
    readPlace_write_interruptRequest, peek_eq hb]
  simp only [address_eq_iff hb (k := 0xFF0F) (s := .interruptRequest) rfl nofun]

theorem readAfter_stat :
    m.readAfter 0xFF41 v b = (m.writePlace (.picture (.register .stat)) v).readPlace q := by
  unfold readAfter
  rw [if_neg (by decide), if_neg (by decide), if_neg (by decide), if_neg (by decide),
    if_neg (by decide), if_pos rfl, readPlace_write_stat, peek_eq hb]
  simp only [address_eq_iff hb (k := 0xFF41) (s := .picture (.register .stat)) rfl nofun]

theorem readAfter_ly :
    m.readAfter 0xFF44 v b = (m.writePlace (.picture (.register .ly)) v).readPlace q := by
  unfold readAfter
  rw [if_neg (by decide), if_neg (by decide), if_neg (by decide), if_neg (by decide),
    if_neg (by decide), if_neg (by decide), if_pos rfl, readPlace_write_ly, peek_eq hb]
  simp only [address_eq_iff hb (k := 0xFF44) (s := .picture (.register .ly)) rfl nofun,
    address_eq_iff hb (k := 0xFF41) (s := .picture (.register .stat)) rfl nofun]
  rfl

theorem readAfter_lyc :
    m.readAfter 0xFF45 v b = (m.writePlace (.picture (.register .lyc)) v).readPlace q := by
  unfold readAfter
  rw [if_neg (by decide), if_neg (by decide), if_neg (by decide), if_neg (by decide),
    if_neg (by decide), if_neg (by decide), if_neg (by decide), if_pos rfl,
    readPlace_write_lyc, peek_eq hb]
  simp only [address_eq_iff hb (k := 0xFF45) (s := .picture (.register .lyc)) rfl nofun,
    address_eq_iff hb (k := 0xFF41) (s := .picture (.register .stat)) rfl nofun]
  rfl

theorem readAfter_overlaySwitch :
    m.readAfter 0xFF50 v b = (m.writePlace .overlaySwitch v).readPlace q := by
  unfold readAfter
  rw [if_neg (by decide), if_neg (by decide), if_neg (by decide), if_neg (by decide),
    if_neg (by decide), if_neg (by decide), if_neg (by decide), if_neg (by decide), if_pos rfl,
    readPlace_write_overlaySwitch, peek_eq hb]
  cases q with
  | cartridge i => rw [Place.named_of_ofAddress? hb]
  | _ =>
    refine if_neg fun h => ?_
    cases cartridge_named hb (by omega)

/-- What is said of addresses agrees with what happens to the places they name. -/
theorem readAfter_eq (ha : Place.ofAddress? a = some p) :
    m.readAfter a v b = (m.writePlace p v).readPlace q := by
  have hn := Place.named_of_ofAddress? ha
  by_cases hp : p.plain = true
  · exact readAfter_plain m v hb ha hp
  cases p with
  | serialData | high i | interruptEnable => exact absurd rfl hp
  | cartridge i => exact readAfter_cartridge m v hb (hn ▸ i.isLt)
  | work i => exact readAfter_work m v hb hn
  | sound i => exact readAfter_sound m v hb ha
  | picture target =>
    cases target with
    | video i => exact absurd rfl hp
    | register r =>
      cases r with
      | stat =>
        obtain rfl : a = 0xFF41 := UInt16.toNat_inj.mp hn
        exact readAfter_stat m v hb
      | ly =>
        obtain rfl : a = 0xFF44 := UInt16.toNat_inj.mp hn
        exact readAfter_ly m v hb
      | lyc =>
        obtain rfl : a = 0xFF45 := UInt16.toNat_inj.mp hn
        exact readAfter_lyc m v hb
      | _ => exact absurd rfl hp
  | serialControl =>
    obtain rfl : a = 0xFF02 := UInt16.toNat_inj.mp hn
    exact readAfter_serialControl m v hb
  | interruptRequest =>
    obtain rfl : a = 0xFF0F := UInt16.toNat_inj.mp hn
    exact readAfter_interruptRequest m v hb
  | overlaySwitch =>
    obtain rfl : a = 0xFF50 := UInt16.toNat_inj.mp hn
    exact readAfter_overlaySwitch m v hb

end

-- ---------------------------------------------------------------------------
-- Writes
-- ---------------------------------------------------------------------------

theorem read?_eq (b : UInt16) :
    Bus.read? m b = if Hole b then none else some (Bus.peek m b) := by
  cases hb : Place.ofAddress? b with
  | none =>
    rw [if_pos (Place.ofAddress?_eq_none_iff.mp hb)]
    exact congrArg (Option.map m.readPlace) hb
  | some q =>
    rw [if_neg (Place.not_hole_of_named (Place.named_of_ofAddress? hb)), peek_eq hb]
    exact congrArg (Option.map m.readPlace) hb

theorem write_run_hole {a : UInt16} (ha : Hole a) :
    ∃ t, (Bus.write a v).run m = ⟨.error (.unmapped a .write), m, t⟩ := by
  have hw : Bus.writable m a v = false :=
    congrArg Option.isSome (Place.ofAddress?_eq_none_iff.mpr ha)
  exact ⟨_, by simp only [Action.run, Bus.write, hw]; rfl⟩

theorem write_run_named {a : UInt16} {p : Place} (ha : Place.ofAddress? a = some p) :
    ∃ t, (Bus.write a v).run m = ⟨.ok (), m.writePlace p v, t⟩ := by
  have hw : Bus.writable m a v = true := congrArg Option.isSome ha
  have hs : Bus.store m a v = m.writePlace p v := by
    simp only [Bus.store, ha]
  exact ⟨_, by simp only [Action.run, Bus.write, hw, hs]; rfl⟩

/-- A write to a hole faults and leaves all as it was. After any other write each
read gives what `readAfter` says. Nothing is ever written below `8000`. -/
theorem read_after_write (m : MemoryMap) (a : UInt16) (v : UInt8) :
    ((Bus.write a v).run m).result =
        (if Hole a then .error (.unmapped a .write) else .ok ()) ∧
      (Hole a → ((Bus.write a v).run m).state = m) ∧
      (¬Hole a → ∀ b, Bus.read? ((Bus.write a v).run m).state b =
        if Hole b then none else some (m.readAfter a v b)) ∧
      (a.toNat ≤ 0x7FFF → ∀ b,
        Bus.read? ((Bus.write a v).run m).state b = Bus.read? m b) := by
  cases ha : Place.ofAddress? a with
  | none =>
    have hh := Place.ofAddress?_eq_none_iff.mp ha
    obtain ⟨t, hrun⟩ := write_run_hole m v hh
    rw [hrun, if_pos hh]
    exact ⟨rfl, fun _ => rfl, fun hn => absurd hh hn, fun _ _ => rfl⟩
  | some p =>
    have hn := Place.named_of_ofAddress? ha
    have hh := Place.not_hole_of_named hn
    obtain ⟨t, hrun⟩ := write_run_named m v ha
    rw [hrun, if_neg hh]
    refine ⟨rfl, fun h => absurd h hh, fun _ b => ?_, fun hlt b => ?_⟩
    · rw [read?_eq]
      cases hb : Place.ofAddress? b with
      | none => rw [if_pos (Place.ofAddress?_eq_none_iff.mp hb),
          if_pos (Place.ofAddress?_eq_none_iff.mp hb)]
      | some q => rw [peek_eq hb, readAfter_eq m v hb ha]
    · rw [cartridge_named ha (by omega)]
      rfl

end MemoryMap

end Handheld
