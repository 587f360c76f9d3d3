import Handheld.Proofs.SerialCapture
import Handheld.Proofs.Stack

/-!
# The order of two writes

Each write changes what its own place holds, so two writes to different places can change
their order. The only place that reaches beyond itself is the control register of the
serial line: a transfer sends the byte that lies ready and requests an interrupt. A word
is pushed high byte first and stored low byte first, and both come to the same.
-/

namespace Handheld

-- ---------------------------------------------------------------------------
-- The units
-- ---------------------------------------------------------------------------

theorem Ram.set_comm {size : Nat} (r : Ram size) {i j : Fin size} (h : i ≠ j) (v w : UInt8) :
    (r.set i v).set j w = (r.set j w).set i v :=
  congrArg Ram.mk (Vector.set_comm v w fun hij => h (Fin.ext hij))

theorem Sound.write_comm (s : Sound) {i j : Fin 48} (h : i ≠ j) (v w : UInt8) :
    (s.write i v).write j w = (s.write j w).write i v := by
  unfold write
  cases mask? i with
  | none => rfl
  | some mask =>
    cases mask? j with
    | none => rfl
    | some mask' => exact congrArg Sound.mk (Ram.set_comm _ h _ _)

theorem Picture.write_comm (p : Picture) {t t' : Target} (h : t ≠ t') (v w : UInt8) :
    (p.write t v).write t' w = (p.write t' w).write t v := by
  cases t with
  | video i =>
    cases t' with
    | video j =>
      have hij : i ≠ j := fun hij => h (congrArg Target.video hij)
      simp only [write, Ram.set_comm _ hij]
    | register r => cases r <;> rfl
  | register r =>
    cases t' with
    | video j => cases r <;> rfl
    | register r' => cases r <;> cases r' <;> first | rfl | exact absurd rfl h

-- ---------------------------------------------------------------------------
-- Places
-- ---------------------------------------------------------------------------

/-- What a write changes in the map is one of its parts, and depends on that part alone. -/
def Place.isolated : Place → Bool
  | .serialControl | .overlaySwitch => false
  | _ => true

theorem Place.isolated_of_ne {p : Place} (hc : p ≠ .serialControl) (hs : p ≠ .overlaySwitch) :
    p.isolated = true := by
  cases p with
  | serialControl => exact absurd rfl hc
  | overlaySwitch => exact absurd rfl hs
  | _ => rfl

namespace MemoryMap

theorem isolated_comm (m : MemoryMap) {p q : Place} (hp : p.isolated = true)
    (hq : q.isolated = true) (hpq : p ≠ q) (v w : UInt8) :
    (m.writePlace p v).writePlace q w = (m.writePlace q w).writePlace p v := by
  cases p with
  | serialControl | overlaySwitch => cases hp
  | picture t =>
    cases q with
    | picture t' =>
      have ht : t ≠ t' := fun ht => hpq (congrArg Place.picture ht)
      simp only [writePlace, Picture.write_comm _ ht]
    | _ => first | rfl | cases hq
  | work i =>
    cases q with
    | work j =>
      have hij : i ≠ j := fun hij => hpq (congrArg Place.work hij)
      simp only [writePlace, Ram.set_comm _ hij]
    | _ => first | rfl | cases hq
  | sound i =>
    cases q with
    | sound j =>
      have hij : i ≠ j := fun hij => hpq (congrArg Place.sound hij)
      simp only [writePlace, Sound.write_comm _ hij]
    | _ => first | rfl | cases hq
  | high i =>
    cases q with
    | high j =>
      have hij : i ≠ j := fun hij => hpq (congrArg Place.high hij)
      simp only [writePlace, Ram.set_comm _ hij]
    | _ => first | rfl | cases hq
  | cartridge i => rfl
  | serialData | interruptRequest | interruptEnable =>
    cases q <;> first | rfl | exact absurd rfl hpq | cases hq

theorem overlaySwitch_comm (m : MemoryMap) (q : Place) (v w : UInt8) :
    (m.writePlace .overlaySwitch v).writePlace q w =
      (m.writePlace q w).writePlace .overlaySwitch v := by
  by_cases hv : v = 0
  · have hkept (m : MemoryMap) : m.writePlace .overlaySwitch v = m := if_pos hv
    rw [hkept, hkept]
  · have hoff (m : MemoryMap) : m.writePlace .overlaySwitch v = { m with overlay := none } :=
      if_neg hv
    rw [hoff, hoff]
    cases q with
    | serialControl | overlaySwitch =>
      simp only [writePlace, writeSerialControl]
      split <;> rfl
    | _ => rfl

theorem serialControl_comm (m : MemoryMap) {q : Place} {v : UInt8} (hq : q.isolated = true)
    (h : Byte.bit v 7 = true → q ≠ .serialData ∧ q ≠ .interruptRequest) (w : UInt8) :
    (m.writePlace .serialControl v).writePlace q w =
      (m.writePlace q w).writePlace .serialControl v := by
  cases hv : Byte.bit v 7 with
  | false =>
    have hidle (m : MemoryMap) : m.writePlace .serialControl v = { m with serialControl := v } :=
      m.writeSerialControl_idle hv
    rw [hidle, hidle]
    cases q <;> first | rfl | cases hq
  | true =>
    obtain ⟨hdata, hrequest⟩ := h hv
    have htransfer (m : MemoryMap) : m.writePlace .serialControl v = _ :=
      m.writeSerialControl_transfer hv
    rw [htransfer, htransfer]
    cases q with
    | serialData => exact absurd rfl hdata
    | interruptRequest => exact absurd rfl hrequest
    | _ => first | rfl | cases hq

theorem writePlace_comm (m : MemoryMap) {p q : Place} {v w : UInt8} (hpq : p ≠ q)
    (hp : p = .serialControl → Byte.bit v 7 = true → q ≠ .serialData ∧ q ≠ .interruptRequest)
    (hq : q = .serialControl → Byte.bit w 7 = true → p ≠ .serialData ∧ p ≠ .interruptRequest) :
    (m.writePlace p v).writePlace q w = (m.writePlace q w).writePlace p v := by
  by_cases hps : p = .overlaySwitch
  · subst hps
    exact overlaySwitch_comm m q v w
  by_cases hqs : q = .overlaySwitch
  · subst hqs
    exact (overlaySwitch_comm m p w v).symm
  by_cases hpc : p = .serialControl
  · subst hpc
    exact serialControl_comm m (Place.isolated_of_ne hpq.symm hqs) (hp rfl) w
  by_cases hqc : q = .serialControl
  · subst hqc
    exact (serialControl_comm m (Place.isolated_of_ne hpq hps) (hq rfl) v).symm
  · exact isolated_comm m (Place.isolated_of_ne hpc hps) (Place.isolated_of_ne hqc hqs) hpq v w

-- ---------------------------------------------------------------------------
-- Addresses
-- ---------------------------------------------------------------------------

/-- A write of `v` to `a` starts a transfer, and `b` is the byte that it sends or the
requests that it adds to. -/
def Involves (a : UInt16) (v : UInt8) (b : UInt16) : Prop :=
  a = 0xFF02 ∧ v &&& 0x80 ≠ 0 ∧ (b = 0xFF01 ∨ b = 0xFF0F)

/-- The two writes are to one place, or a transfer that one of them starts involves the
place of the other. -/
def Entangled (a : UInt16) (v : UInt8) (b : UInt16) (w : UInt8) : Prop :=
  SamePlace a b ∨ Involves a v b ∨ Involves b w a

instance (a : UInt16) (v : UInt8) (b : UInt16) (w : UInt8) : Decidable (Entangled a v b w) := by
  unfold Entangled Involves
  infer_instance

variable {a b : UInt16} {v w : UInt8}

theorem not_involved {p q : Place} (ha : Place.ofAddress? a = some p)
    (hb : Place.ofAddress? b = some q) (h : ¬Involves a v b) (hp : p = .serialControl)
    (hv : Byte.bit v 7 = true) : q ≠ .serialData ∧ q ≠ .interruptRequest := by
  subst hp
  have hcontrol : a = 0xFF02 := UInt16.toNat_inj.mp (Place.named_of_ofAddress? ha)
  have hbit : v &&& 0x80 ≠ 0 := bne_iff_ne.mp hv
  constructor
  · rintro rfl
    exact h ⟨hcontrol, hbit, .inl (UInt16.toNat_inj.mp (Place.named_of_ofAddress? hb))⟩
  · rintro rfl
    exact h ⟨hcontrol, hbit, .inr (UInt16.toNat_inj.mp (Place.named_of_ofAddress? hb))⟩

theorem store_comm (m : MemoryMap) (h : ¬Entangled a v b w) :
    Bus.store (Bus.store m a v) b w = Bus.store (Bus.store m b w) a v := by
  obtain ⟨hplace, hvb, hwa⟩ : ¬SamePlace a b ∧ ¬Involves a v b ∧ ¬Involves b w a := by
    simpa only [Entangled, not_or] using h
  cases ha : Place.ofAddress? a with
  | none => rw [store_hole _ ha, store_hole _ ha]
  | some p =>
    cases hb : Place.ofAddress? b with
    | none => rw [store_hole _ hb, store_hole _ hb]
    | some q =>
      have hpq : p ≠ q := by
        rintro rfl
        exact hplace ((samePlace_iff ha).mpr hb)
      rw [store_place _ ha, store_place _ hb, store_place _ hb, store_place _ ha]
      exact writePlace_comm m hpq (not_involved ha hb hvb) (not_involved hb ha hwa)

theorem write_outcome (m : MemoryMap) (a : UInt16) (v : UInt8) :
    ((Bus.write a v).run m).result =
        (if Hole a then .error (.unmapped a .write) else .ok ()) ∧
      ((Bus.write a v).run m).state = Bus.store m a v := by
  cases ha : Place.ofAddress? a with
  | none =>
    have hh := Place.ofAddress?_eq_none_iff.mp ha
    obtain ⟨t, hrun⟩ := write_run_hole m v hh
    rw [hrun, if_pos hh, store_hole m ha]
    exact ⟨rfl, rfl⟩
  | some p =>
    obtain ⟨t, hrun⟩ := write_run_named m v ha
    rw [hrun, if_neg (Place.not_hole_of_named (Place.named_of_ofAddress? ha)), store_place m ha]
    exact ⟨rfl, rfl⟩

-- ---------------------------------------------------------------------------
-- Transfers
-- ---------------------------------------------------------------------------

theorem text_singleton_inj {x y : UInt8} :
    text [x] = text [y] ↔ serialChar? x = serialChar? y := by
  rw [text_singleton, text_singleton]
  cases serialChar? x <;> cases serialChar? y <;> simp

theorem transfer_data_comm_iff (m : MemoryMap) (hv : v &&& 0x80 ≠ 0) :
    Bus.store (Bus.store m 0xFF02 v) 0xFF01 w = Bus.store (Bus.store m 0xFF01 w) 0xFF02 v ↔
      serialChar? m.serialData = serialChar? w := by
  have hv : Byte.bit v 7 = true := bne_iff_ne.mpr hv
  have htransfer (m : MemoryMap) : Bus.store m 0xFF02 v = _ := m.writeSerialControl_transfer hv
  have hdata (m : MemoryMap) : Bus.store m 0xFF01 w = { m with serialData := w } := rfl
  rw [htransfer, htransfer, hdata, hdata, ← text_singleton_inj]
  simp

/-- A request that is withdrawn after the transfer is lost, and one that is withdrawn
before it is made again. -/
theorem transfer_request_comm_iff (m : MemoryMap) (hv : v &&& 0x80 ≠ 0) :
    Bus.store (Bus.store m 0xFF02 v) 0xFF0F w = Bus.store (Bus.store m 0xFF0F w) 0xFF02 v ↔
      w &&& 0x08 ≠ 0 := by
  have hv : Byte.bit v 7 = true := bne_iff_ne.mpr hv
  have htransfer (m : MemoryMap) : Bus.store m 0xFF02 v = _ := m.writeSerialControl_transfer hv
  have hrequest (m : MemoryMap) :
      Bus.store m 0xFF0F w = { m with interruptRequest := w &&& 0x1F } := rfl
  have hbit : ∀ w : UInt8, w &&& 0x1F = w &&& 0x1F ||| Interrupts.serial ↔ w &&& 0x08 ≠ 0 := by
    decide +kernel
  rw [htransfer, htransfer, hrequest, hrequest, ← hbit]
  simp

-- ---------------------------------------------------------------------------
-- Words
-- ---------------------------------------------------------------------------

theorem not_samePlace_succ (a : UInt16) : ¬SamePlace (a + 1) a := by
  have hlt := a.toNat_lt
  have hnext : (a + 1).toNat = (a.toNat + 1) % 65536 := UInt16.toNat_add a 1
  rintro (h | ⟨hw, hw', h⟩)
  · rw [h] at hnext
    omega
  · unfold Work at hw hw'
    omega

/-- The bytes of a word meet only where the high one starts a transfer of the low one. -/
theorem not_entangled_word {a w : UInt16} (h : ¬(a = 0xFF01 ∧ Word.high w &&& 0x80 ≠ 0)) :
    ¬Entangled (a + 1) (Word.high w) a (Word.low w) := by
  rintro (hs | ⟨hcontrol, hbit, -⟩ | ⟨rfl, -, hnext⟩)
  · exact not_samePlace_succ a hs
  · exact h ⟨(UInt16.add_left_inj 1).mp (hcontrol : a + 1 = 0xFF01 + 1), hbit⟩
  · revert hnext
    decide

end MemoryMap

namespace Bus

variable {β : Type} [Bus β] {b : β} {a w : UInt16}

theorem write_gives {v : UInt8} (h : writable b a v = true) :
    (write a v).Gives b () (store b a v) :=
  ⟨_, by simp only [Action.run, write, h]; rfl⟩

theorem writeWord_gives (hlow : writable b a (Word.low w) = true)
    (hhigh : writable (store b a (Word.low w)) (a + 1) (Word.high w) = true) :
    (writeWord a w).Gives b () (store (store b a (Word.low w)) (a + 1) (Word.high w)) :=
  (write_gives hlow).bind (write_gives hhigh)

end Bus

namespace MemoryMap

theorem writable_of_not_hole {a : UInt16} (h : ¬Hole a) (m : MemoryMap) (v : UInt8) :
    Bus.writable m a v = true :=
  Option.isSome_iff_ne_none.mpr fun hnone => h (Place.ofAddress?_eq_none_iff.mp hnone)

theorem push_comm_writeWord (p : Processor MemoryMap) (w : UInt16)
    (hhigh : ¬Hole (p.registers.sp - 1)) (hlow : ¬Hole (p.registers.sp - 2))
    (h : ¬(p.registers.sp - 2 = 0xFF01 ∧ Word.high w &&& 0x80 ≠ 0)) :
    ∃ q m, (Processor.push w).Gives p () q ∧
      (Bus.writeWord (p.registers.sp - 2) w).Gives p.bus () m ∧ q.bus = m := by
  have hnext : p.registers.sp - 2 + 1 = p.registers.sp - 1 :=
    Word.down_add_one (a := p.registers.sp) (n := 1)
  have hpush := Processor.push_gives (p := p) (w := w) (writable_of_not_hole hhigh _ _)
    (writable_of_not_hole hlow _ _)
  have hwrite := Bus.writeWord_gives (b := p.bus) (w := w) (writable_of_not_hole hlow _ _)
    (hnext ▸ writable_of_not_hole hhigh _ _)
  refine ⟨_, _, hpush, hwrite, ?_⟩
  have hcomm := store_comm p.bus (not_entangled_word h)
  rwa [hnext] at hcomm ⊢

/-- Two writes give the same results and leave the same map in either order, unless they
are to one place or one of them starts a transfer that involves the place of the other.
Then the order shows: the byte written first is sent, and a request is withdrawn only by
the later write. So a word can be pushed or stored, except for a transfer of its own low
byte. -/
theorem writes_commute :
    (∀ (m : MemoryMap) (a b : UInt16) (v w : UInt8), ¬Entangled a v b w →
      let first := (Bus.write a v).run m
      let second := (Bus.write b w).run first.state
      let second' := (Bus.write b w).run m
      let first' := (Bus.write a v).run second'.state
      first.result = first'.result ∧ second.result = second'.result ∧
        second.state = first'.state) ∧
    (∀ (m : MemoryMap) (v w : UInt8), v &&& 0x80 ≠ 0 →
      let transfer (m : MemoryMap) := ((Bus.write 0xFF02 v).run m).state
      let put (address : UInt16) (m : MemoryMap) := ((Bus.write address w).run m).state
      (put 0xFF01 (transfer m) = transfer (put 0xFF01 m) ↔
          serialChar? m.serialData = serialChar? w) ∧
        (put 0xFF0F (transfer m) = transfer (put 0xFF0F m) ↔ w &&& 0x08 ≠ 0)) ∧
    ∀ (p : Processor MemoryMap) (w : UInt16),
      let s := p.registers.sp
      ¬Hole (s - 1) → ¬Hole (s - 2) → ¬(s - 2 = 0xFF01 ∧ Word.high w &&& 0x80 ≠ 0) →
      let pushed := (Processor.push w).run p
      let stored := (Bus.writeWord (s - 2) w).run p.bus
      pushed.result = .ok () ∧ stored.result = .ok () ∧ pushed.state.bus = stored.state := by
  refine ⟨?_, ?_, ?_⟩
  · intro m a b v w h first second second' first'
    have hresult (m m' : MemoryMap) (a : UInt16) (v : UInt8) :
        ((Bus.write a v).run m).result = ((Bus.write a v).run m').result := by
      rw [(write_outcome m a v).1, (write_outcome m' a v).1]
    refine ⟨hresult _ _ a v, hresult _ _ b w, ?_⟩
    simp only [second, first', first, second', (write_outcome _ _ _).2]
    exact store_comm m h
  · intro m v w hv transfer put
    simp only [transfer, put, (write_outcome _ _ _).2]
    exact ⟨transfer_data_comm_iff m hv, transfer_request_comm_iff m hv⟩
  · intro p w s hhigh hlow h pushed stored
    obtain ⟨q, m, ⟨t, hpush⟩, ⟨u, hwrite⟩, hbus⟩ := push_comm_writeWord p w hhigh hlow h
    simp only [pushed, stored, s, hpush, hwrite]
    exact ⟨trivial, trivial, hbus⟩

def onSerialLine : Processor MemoryMap :=
  { bus := .new .empty none, registers := { sp := 0xFF03 } }

theorem writes_commute_onSerialLine :
    let m := onSerialLine.bus
    let pushed := (Processor.push 0x7F41).run onSerialLine
    let stored := (Bus.writeWord 0xFF01 0x7F41).run m
    let sent := ((Bus.write 0xFF02 0x81).run m).state
    ¬Entangled 0xFF02 0x81 0xFF44 0x07 ∧
      ((Bus.write 0xFF44 0x07).run sent).state =
        ((Bus.write 0xFF02 0x81).run ((Bus.write 0xFF44 0x07).run m).state).state ∧
      ((Bus.write 0xFF01 0x41).run sent).state ≠
        ((Bus.write 0xFF02 0x81).run ((Bus.write 0xFF01 0x41).run m).state).state ∧
      ¬Hole 0xFF02 ∧ ¬Hole 0xFF01 ∧ ¬(Word.high 0x7F41 &&& 0x80 ≠ 0) ∧
      pushed.state.bus = stored.state := by
  have h : ¬Entangled 0xFF02 0x81 0xFF44 0x07 := by decide
  have hhigh : ¬Hole 0xFF02 := by decide
  have hlow : ¬Hole 0xFF01 := by decide
  have hbit : ¬(Word.high 0x7F41 &&& 0x80 ≠ 0) := by decide
  have hdiffer : serialChar? 0x00 ≠ serialChar? 0x41 := by decide
  obtain ⟨hcommute, hshows, hwords⟩ := writes_commute
  refine ⟨h, (hcommute _ _ _ _ _ h).2.2, ?_, hhigh, hlow, hbit, ?_⟩
  · exact fun heq => hdiffer ((hshows _ 0x81 0x41 (by decide)).1.mp heq)
  · exact (hwords onSerialLine 0x7F41 hhigh hlow fun h => hbit h.2).2.2

end MemoryMap

end Handheld
