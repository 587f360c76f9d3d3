import Handheld.Proofs.ReadAfterWrite

/-!
# What the serial line captures

Each use of a memory map keeps the account between the bytes it sends and the text
that it hands out or leaves waiting. So does every sequence of uses: no character is
lost, repeated or moved, however often and whenever the text is taken.
-/

namespace Handheld

namespace MemoryMap

inductive Use where
  | read (address : UInt16)
  | write (address : UInt16) (v : UInt8)
  | take

namespace Use

def perform (m : MemoryMap) : Use → MemoryMap
  | .read address => ((Bus.read address).run m).state
  | .write address v => ((Bus.write address v).run m).state
  | .take => m.takeSerialOutput.2

def handsOut (m : MemoryMap) : Use → List String
  | .take => [m.takeSerialOutput.1]
  | _ => []

def transfers : Use → Bool
  | .write address v => address == 0xFF02 && v &&& 0x80 != 0
  | _ => false

/-- The use writes the requests of interrupts, and that of the serial line is not
among them. -/
def withdraws : Use → Bool
  | .write address v => address == 0xFF0F && v &&& 0x08 == 0
  | _ => false

/-- The data register after the use, from what it held before. -/
def latch (b : UInt8) : Use → UInt8
  | .write address v => if address = 0xFF01 then v else b
  | _ => b

def Aside : Use → Prop
  | .read _ => True
  | .write address _ => address ≠ 0xFF01 ∧ address ≠ 0xFF02 ∧ address ≠ 0xFF0F
  | .take => False

/-- The byte the use sends: what the data register reads at that moment. -/
def sends (m : MemoryMap) (u : Use) : List UInt8 :=
  if u.transfers then [Bus.peek m 0xFF01] else []

theorem transfers_control (v : UInt8) : transfers (.write 0xFF02 v) = Byte.bit v 7 := rfl

theorem withdraws_request (v : UInt8) : withdraws (.write 0xFF0F v) = !Byte.bit v 3 :=
  (Bool.not_not _).symm

end Use

def after (m : MemoryMap) (us : List Use) : MemoryMap := us.foldl Use.perform m

def handedOut (m : MemoryMap) : List Use → List String
  | [] => []
  | u :: us => u.handsOut m ++ handedOut (u.perform m) us

def sent (m : MemoryMap) : List Use → List UInt8
  | [] => []
  | u :: us => u.sends m ++ sent (u.perform m) us

def shown (b : UInt8) : Bool := 0x20 ≤ b.toNat ∧ b.toNat ≤ 0x7E ∨ b.toNat = 0x0A

def text (bs : List UInt8) : String :=
  String.ofList ((bs.filter shown).map fun b => Char.ofNat b.toNat)

theorem after_append (m : MemoryMap) (us vs : List Use) :
    m.after (us ++ vs) = (m.after us).after vs := List.foldl_append

-- ---------------------------------------------------------------------------
-- The text of bytes
-- ---------------------------------------------------------------------------

@[simp] theorem text_nil : text [] = "" := rfl

@[simp] theorem text_append (bs bs' : List UInt8) : text (bs ++ bs') = text bs ++ text bs' := by
  simp [text, String.ofList_append]

theorem serialChar?_eq (b : UInt8) :
    serialChar? b = if shown b then some (Char.ofNat b.toNat) else none := by
  have h : (0x20 ≤ b ∧ b < 0x7F) ∨ b = 0x0A ↔ shown b = true := by
    simp only [shown, decide_eq_true_eq, UInt8.le_iff_toNat_le, UInt8.lt_iff_toNat_lt,
      ← UInt8.toNat_inj]
    exact or_congr_left (and_congr_right' Nat.lt_succ_iff)
  simp only [serialChar?, h]

theorem text_singleton (b : UInt8) : text [b] = (serialChar? b).elim "" String.singleton := by
  rw [serialChar?_eq, text, List.filter_cons]
  cases shown b <;> rfl

-- ---------------------------------------------------------------------------
-- One use
-- ---------------------------------------------------------------------------

structure SameLine (m m' : MemoryMap) : Prop where
  data : m'.serialData = m.serialData
  control : m'.serialControl = m.serialControl
  request : m'.interruptRequest = m.interruptRequest
  output : m'.serialOutput = m.serialOutput

theorem sameLine_writePlace (m : MemoryMap) {p : Place} (v : UInt8) (hd : p ≠ .serialData)
    (hc : p ≠ .serialControl) (hr : p ≠ .interruptRequest) : SameLine m (m.writePlace p v) := by
  cases p with
  | serialData => exact absurd rfl hd
  | serialControl => exact absurd rfl hc
  | interruptRequest => exact absurd rfl hr
  | overlaySwitch =>
    rw [writePlace]
    split <;> exact ⟨rfl, rfl, rfl, rfl⟩
  | _ => exact ⟨rfl, rfl, rfl, rfl⟩

theorem sameLine_write (m : MemoryMap) {address : UInt16} (v : UInt8) (hd : address ≠ 0xFF01)
    (hc : address ≠ 0xFF02) (hr : address ≠ 0xFF0F) :
    SameLine m ((Bus.write address v).run m).state := by
  cases ha : Place.ofAddress? address with
  | none =>
    obtain ⟨t, h⟩ := write_run_hole m v (Place.ofAddress?_eq_none_iff.mp ha)
    rw [h]
    exact ⟨rfl, rfl, rfl, rfl⟩
  | some p =>
    obtain ⟨t, h⟩ := write_run_named m v ha
    have hn := Place.named_of_ofAddress? ha
    rw [h]
    apply sameLine_writePlace
    · rintro rfl
      exact hd (UInt16.toNat_inj.mp hn)
    · rintro rfl
      exact hc (UInt16.toNat_inj.mp hn)
    · rintro rfl
      exact hr (UInt16.toNat_inj.mp hn)

theorem writeSerialControl_transfer (m : MemoryMap) {v : UInt8} (hv : Byte.bit v 7 = true) :
    m.writeSerialControl v =
      { m with
        serialControl := v &&& 0x7F
        interruptRequest := m.interruptRequest ||| Interrupts.serial
        serialOutput := m.serialOutput ++ text [m.serialData] } := by
  have hs : startsTransfer v = true := hv
  rw [writeSerialControl, if_pos hs, text_singleton]
  cases serialChar? m.serialData <;> simp

theorem writeSerialControl_idle (m : MemoryMap) {v : UInt8} (hv : Byte.bit v 7 = false) :
    m.writeSerialControl v = { m with serialControl := v } :=
  if_neg (Bool.eq_false_iff.mp hv)

theorem state_read (m : MemoryMap) (address : UInt16) : ((Bus.read address).run m).state = m := by
  unfold Action.run Bus.read
  dsimp only
  split <;> rfl

/-- What a use can do to the serial line. -/
inductive Happens (m : MemoryMap) : Use → MemoryMap → Prop
  | data (v : UInt8) : Happens m (.write 0xFF01 v) { m with serialData := v }
  | transfer (v : UInt8) (hv : Byte.bit v 7 = true) : Happens m (.write 0xFF02 v)
      { m with
        serialControl := v &&& 0x7F
        interruptRequest := m.interruptRequest ||| Interrupts.serial
        serialOutput := m.serialOutput ++ text [m.serialData] }
  | control (v : UInt8) (hv : Byte.bit v 7 = false) :
      Happens m (.write 0xFF02 v) { m with serialControl := v }
  | request (v : UInt8) : Happens m (.write 0xFF0F v) { m with interruptRequest := v &&& 0x1F }
  | take : Happens m .take { m with serialOutput := "" }
  | aside {u : Use} {m' : MemoryMap} (hu : u.Aside) (h : SameLine m m') : Happens m u m'

theorem happens (m : MemoryMap) (u : Use) : Happens m u (u.perform m) := by
  cases u with
  | read address =>
    refine .aside trivial ?_
    rw [Use.perform, state_read]
    exact ⟨rfl, rfl, rfl, rfl⟩
  | take => exact .take
  | write address v =>
    by_cases hd : address = 0xFF01
    · subst hd
      exact .data v
    by_cases hc : address = 0xFF02
    · subst hc
      show Happens m _ (m.writeSerialControl v)
      cases hv : Byte.bit v 7 with
      | true => exact m.writeSerialControl_transfer hv ▸ .transfer v hv
      | false => exact m.writeSerialControl_idle hv ▸ .control v hv
    by_cases hr : address = 0xFF0F
    · subst hr
      exact .request v
    · exact .aside ⟨hd, hc, hr⟩ (sameLine_write m v hd hc hr)

namespace Use.Aside

variable {u : Use} (h : u.Aside)

include h

theorem transfers : u.transfers = false := by
  cases u with
  | write address v => simp [Use.transfers, h.2.1]
  | _ => rfl

theorem withdraws : u.withdraws = false := by
  cases u with
  | write address v => simp [Use.withdraws, h.2.2]
  | _ => rfl

theorem latch (b : UInt8) : u.latch b = b := by
  cases u with
  | write address v => exact if_neg h.1
  | _ => rfl

theorem handsOut (m : MemoryMap) : u.handsOut m = [] := by
  cases u with
  | take => exact h.elim
  | _ => rfl

end Use.Aside

namespace Happens

variable {m m' : MemoryMap} {u : Use} (h : Happens m u m')

include h

/-- What waited before and what is sent is handed out or waits afterwards. -/
theorem conserves :
    m.serialOutput ++ text (u.sends m) = String.join (u.handsOut m) ++ m'.serialOutput := by
  cases h with
  | transfer v hv =>
    simp [Use.sends, Use.transfers_control, Use.handsOut, hv]
    rfl
  | control v hv => simp [Use.sends, Use.transfers_control, Use.handsOut, hv]
  | aside hu h => simp [Use.sends, hu.transfers, hu.handsOut, h.output]
  | _ => simp [Use.sends, Use.transfers, Use.handsOut, takeSerialOutput]

theorem serialData_eq : m'.serialData = u.latch m.serialData := by
  cases h with
  | aside hu h => rw [hu.latch, h.data]
  | _ => rfl

theorem idle (hm : Byte.bit m.serialControl 7 = false) : Byte.bit m'.serialControl 7 = false := by
  cases h with
  | transfer v hv => exact (Byte.bit_and v 0x7F 7).trans (Bool.and_false _)
  | control v hv => exact hv
  | aside hu h => rw [h.control, hm]
  | _ => exact hm

theorem requests (hu : u.transfers = true) : Byte.bit m'.interruptRequest 3 = true := by
  cases h with
  | transfer v hv => exact (Byte.bit_or _ Interrupts.serial 3).trans (Bool.or_true _)
  | control v hv => simp [Use.transfers_control, hv] at hu
  | take => cases hu
  | aside hu' h => simp [hu'.transfers] at hu
  | _ => simp [Use.transfers] at hu

theorem keeps_request (hm : Byte.bit m.interruptRequest 3 = true) (hu : u.withdraws = false) :
    Byte.bit m'.interruptRequest 3 = true := by
  cases h with
  | transfer v hv => simp [Byte.bit_or, hm]
  | request v =>
    have hv : Byte.bit v 3 = true := by simpa [Use.withdraws_request] using hu
    exact (Byte.bit_and v 0x1F 3).trans (by rw [hv]; rfl)
  | aside hu h => rw [h.request, hm]
  | _ => exact hm

theorem withdrawn (hu : u.withdraws = true) : Byte.bit m'.interruptRequest 3 = false := by
  cases h with
  | request v =>
    have hv : Byte.bit v 3 = false := by simpa [Use.withdraws_request] using hu
    exact (Byte.bit_and v 0x1F 3).trans (by rw [hv]; rfl)
  | take => cases hu
  | aside hu' h => simp [hu'.withdraws] at hu
  | _ => simp [Use.withdraws] at hu

theorem serialOutput_eq (ht : u ≠ .take) (hu : u.transfers = false) :
    m'.serialOutput = m.serialOutput := by
  cases h with
  | transfer v hv => simp [Use.transfers_control, hv] at hu
  | take => exact absurd rfl ht
  | aside hu h => exact h.output
  | _ => rfl

end Happens

-- ---------------------------------------------------------------------------
-- Any number of uses
-- ---------------------------------------------------------------------------

theorem conserved (m : MemoryMap) (us : List Use) :
    m.serialOutput ++ text (sent m us) =
      String.join (handedOut m us) ++ (m.after us).serialOutput := by
  induction us generalizing m with
  | nil => simp [sent, handedOut, after]
  | cons u us ih =>
    have hjoin : String.join (handedOut m (u :: us)) =
        String.join (u.handsOut m) ++ String.join (handedOut (u.perform m) us) := by
      rw [handedOut, ← String.toList_inj]
      simp
    calc m.serialOutput ++ text (sent m (u :: us))
      _ = m.serialOutput ++ text (u.sends m) ++ text (sent (u.perform m) us) := by
        rw [sent, text_append, String.append_assoc]
      _ = String.join (u.handsOut m) ++
          ((u.perform m).serialOutput ++ text (sent (u.perform m) us)) := by
        rw [(happens m u).conserves, String.append_assoc]
      _ = String.join (handedOut m (u :: us)) ++ (m.after (u :: us)).serialOutput := by
        rw [ih, ← String.append_assoc, hjoin]
        rfl

theorem serialData_after (m : MemoryMap) (us : List Use) :
    (m.after us).serialData = us.foldl Use.latch m.serialData := by
  induction us generalizing m with
  | nil => rfl
  | cons u us ih => exact (ih (u.perform m)).trans (by rw [(happens m u).serialData_eq]; rfl)

theorem idle_after {m : MemoryMap} (hm : Byte.bit m.serialControl 7 = false) (us : List Use) :
    Byte.bit (m.after us).serialControl 7 = false := by
  induction us generalizing m with
  | nil => exact hm
  | cons u us ih => exact ih ((happens m u).idle hm)

theorem request_after {m : MemoryMap} (hm : Byte.bit m.interruptRequest 3 = true) {us : List Use}
    (hus : ∀ u ∈ us, u.withdraws = false) : Byte.bit (m.after us).interruptRequest 3 = true := by
  induction us generalizing m with
  | nil => exact hm
  | cons u us ih =>
    have hu := List.forall_mem_cons.mp hus
    exact ih ((happens m u).keeps_request hm hu.1) hu.2

/-- From a new map on, the texts handed out and the one that waits are the shown
bytes among those sent. What is sent is the last byte written to the data register,
and no transfer stays under way. The interrupt of a transfer stays requested until
its request is withdrawn. Nothing else touches the text. -/
theorem serial_capture (cartridge : Image) (boot : Option Image) (us : List Use) :
    let m := (new cartridge boot).after us
    String.join (handedOut (new cartridge boot) us) ++ m.serialOutput =
        text (sent (new cartridge boot) us) ∧
      Bus.read? m 0xFF01 = some (us.foldl Use.latch 0) ∧
      Byte.bit (Bus.peek m 0xFF02) 7 = false ∧
      (∀ (u : Use) later, u.transfers = true → (∀ w ∈ later, w.withdraws = false) →
        Byte.bit (Bus.peek (m.after (u :: later)) 0xFF0F) 3 = true) ∧
      (∀ u : Use, u.withdraws = true → Byte.bit (Bus.peek (u.perform m) 0xFF0F) 3 = false) ∧
      (∀ u : Use, u ≠ .take → u.transfers = false →
        (u.perform m).serialOutput = m.serialOutput) := by
  intro m
  have hzero : Byte.bit 0 7 = false := by decide
  have hcontrol : Byte.bit m.serialControl 7 = false := idle_after hzero us
  refine ⟨?_, ?_, ?_, ?_, ?_, ?_⟩
  · simpa [m, new] using (conserved (new cartridge boot) us).symm
  · exact congrArg some (serialData_after (new cartridge boot) us)
  · show Byte.bit (m.serialControl ||| 0x7E) 7 = false
    rw [Byte.bit_or, hcontrol]
    rfl
  · intro u later hu hlater
    have hrequest := request_after ((happens m u).requests hu) hlater
    show Byte.bit (((u.perform m).after later).interruptRequest ||| 0xE0) 3 = true
    rw [Byte.bit_or, hrequest, Bool.true_or]
  · intro u hu
    show Byte.bit ((u.perform m).interruptRequest ||| 0xE0) 3 = false
    rw [Byte.bit_or, (happens m u).withdrawn hu]
    rfl
  · exact fun u => (happens m u).serialOutput_eq

/-- One byte is sent twice, and taken in between; a bell is sent and not shown. The
request outlives the read of it and goes with the write of zero. -/
theorem serial_capture_between_takes :
    let m := new .empty none
    let us : List Use := [.write 0xFF01 0x41, .write 0xFF02 0x81, .take, .write 0xFF02 0x80,
      .write 0xFF01 0x07, .write 0xFF02 0xFF]
    handedOut m us = ["A"] ∧ sent m us = [0x41, 0x41, 0x07] ∧ (m.after us).serialOutput = "A" ∧
      Byte.bit (Bus.peek (m.after us) 0xFF0F) 3 = true ∧
      Byte.bit (Bus.peek (m.after (us ++ [.write 0xFF0F 0])) 0xFF0F) 3 = false := by
  intro m us
  obtain ⟨htext, -, -, -, hwithdrawn, -⟩ := serial_capture .empty none us
  obtain ⟨-, -, -, hrequest, -⟩ := serial_capture .empty none (us.take 5)
  have htaken : handedOut m us = ["A"] := by decide +kernel
  have hsent : sent m us = [0x41, 0x41, 0x07] := by decide +kernel
  refine ⟨htaken, hsent, ?_, ?_, ?_⟩
  · have hshown : text [0x41, 0x41, 0x07] = "A" ++ "A" := by decide +kernel
    rw [htaken, hsent, hshown] at htext
    exact (String.append_right_inj "A").mp htext
  · exact hrequest (.write 0xFF02 0xFF) [] (by decide) (by simp)
  · rw [after_append]
    exact hwithdrawn (.write 0xFF0F 0) (by decide)

end MemoryMap

end Handheld
