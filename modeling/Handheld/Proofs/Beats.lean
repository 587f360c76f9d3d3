import Handheld.Bus
import Handheld.Instruction.Table

/-!
# The beats of an instruction

A beat is one machine cycle: an access to the bus, or a cycle without one. The
beats of an instruction follow from its bytes and from the registers alone,
before anything is executed, since no operand decides where a later access goes.
First come the fetches, then the delay of the operation, then what the operation
does itself.
-/

namespace Handheld

inductive Beat where
  | wait
  | read (address : UInt16)
  | write (address : UInt16)
  deriving DecidableEq, Repr

namespace Beat

def access? : Beat → Option (Direction × UInt16)
  | .wait => none
  | .read address => some (.read, address)
  | .write address => some (.write, address)

def waits (n : Nat) : List Beat := List.replicate n .wait

def fetches : UInt16 → Nat → List Beat
  | _, 0 => []
  | address, n + 1 => .read address :: fetches (address + 1) n

@[simp] theorem length_waits (n : Nat) : (waits n).length = n := by simp [waits]

@[simp] theorem length_fetches (address : UInt16) (n : Nat) : (fetches address n).length = n := by
  induction n generalizing address with
  | zero => rfl
  | succ n ih => simp [fetches, ih]

theorem fetches_add (address : UInt16) (m n : Nat) :
    fetches address (m + n) = fetches address m ++ fetches (address + UInt16.ofNat m) n := by
  induction m generalizing address with
  | zero => simp [fetches]
  | succ m ih =>
    rw [Nat.add_right_comm, fetches, fetches, ih, List.cons_append, UInt16.ofNat_add,
      UInt16.add_assoc, UInt16.add_comm 1]
    rfl

@[simp] theorem filterMap_access_waits (n : Nat) : (waits n).filterMap access? = [] := by
  simp [waits, access?]

end Beat

def Access.place : Access → Direction × UInt16
  | .read address => (.read, address)
  | .write address _ => (.write, address)

-- ---------------------------------------------------------------------------
-- Operations
-- ---------------------------------------------------------------------------

def Operand.beats (kind : UInt16 → Beat) (r : Registers) : Operand → List Beat
  | .register _ => []
  | .memory => [kind r.hl]

/-- The address a pointer holds before it moves. -/
def Pointer.address (r : Registers) : Pointer → UInt16
  | .bc => r.bc
  | .de => r.de
  | .hlIncrement | .hlDecrement => r.hl

namespace Beat

/-- The high byte goes first, to the higher address. -/
def push (r : Registers) : List Beat := [.write (r.sp - 1), .write (r.sp - 2)]

def pop (r : Registers) : List Beat := [.read r.sp, .read (r.sp + 1)]

end Beat

namespace Operation

/-- The beats of an operation once its literal was fetched and its delay is over. -/
def beats (l : Literal) (r : Registers) : Operation → List Beat
  | .load target source => source.beats .read r ++ target.beats .write r
  | .loadLiteral target => target.beats .write r
  | .storeThrough p => [.write (p.address r)]
  | .loadThrough p => [.read (p.address r)]
  | .storeAt => [.write l.toWord]
  | .loadFrom => [.read l.toWord]
  | .storeLastPage => [.write (Word.lastPage l.toByte)]
  | .loadLastPage => [.read (Word.lastPage l.toByte)]
  | .storeLastPageC => [.write (Word.lastPage r.c)]
  | .loadLastPageC => [.read (Word.lastPage r.c)]
  | .storeStackPointer => [.write l.toWord, .write (l.toWord + 1)]
  | .push _ | .restart _ => Beat.push r
  | .pop _ => Beat.pop r
  | .alu _ source | .bit _ source => source.beats .read r
  | .increment target | .decrement target | .shift _ target | .reset _ target | .set _ target =>
    target.beats .read r ++ target.beats .write r
  | .jump c | .jumpRelative c => if Condition.met r.flags c then [.wait] else []
  | .call c => if Condition.met r.flags c then .wait :: Beat.push r else []
  | .ret c => if Condition.met r.flags c then Beat.pop r ++ [.wait] else []
  | .retEnable => Beat.pop r ++ [.wait]
  | _ => []

example (r : Registers) :
    storeStackPointer.beats (.word 0xFFFF) r = [.write 0xFFFF, .write 0] := rfl

end Operation

-- ---------------------------------------------------------------------------
-- Instructions
-- ---------------------------------------------------------------------------

def LiteralKind.size : LiteralKind → Nat
  | .none => 0
  | .byte => 1
  | .word => 2

namespace Decoded

def opcodeSize (d : Decoded) : Nat := if d.prefixed then 2 else 1

def size (d : Decoded) : Nat := d.opcodeSize + d.operation.literal.size

def beats (d : Decoded) (r : Registers) : List Beat :=
  Beat.fetches d.address d.size ++ Beat.waits d.operation.delay ++ d.operation.beats d.literal r

end Decoded

namespace Bus

variable {β : Type} [Bus β]

def Readable (b : β) : UInt16 → Nat → Prop
  | _, 0 => True
  | address, n + 1 => (read? b address).isSome ∧ Readable b (address + 1) n

theorem readable_add {b : β} {address : UInt16} {m n : Nat} :
    Readable b address (m + n) ↔
      Readable b address m ∧ Readable b (address + UInt16.ofNat m) n := by
  induction m generalizing address with
  | zero => simp [Readable]
  | succ m ih =>
    rw [Nat.add_right_comm, Readable, Readable, ih, and_assoc, UInt16.ofNat_add,
      UInt16.add_assoc, UInt16.add_comm 1]
    rfl

def literalAt (b : β) (address : UInt16) : LiteralKind → Literal
  | .none => .none
  | .byte => .byte (peek b address)
  | .word => .word (Word.ofBytes (peek b address) (peek b (address + 1)))

def instructionAt (b : β) (address : UInt16) : Decoded :=
  let first := peek b address
  if first = Opcode.extension then
    let opcode := peek b (address + 1)
    { address, prefixed := true, opcode, operation := .extended opcode, literal := .none }
  else
    let operation := Operation.primary first
    { address, prefixed := false, opcode := first, operation
      literal := literalAt b (address + 1) operation.literal }

theorem instructionAt_of_extension {b : β} {address : UInt16}
    (h : peek b address = Opcode.extension) :
    instructionAt b address = ⟨address, true, peek b (address + 1),
      .extended (peek b (address + 1)), .none⟩ := by
  simp [instructionAt, h]

theorem instructionAt_of_ne {b : β} {address : UInt16} (h : peek b address ≠ Opcode.extension) :
    instructionAt b address = ⟨address, false, peek b address, .primary (peek b address),
      literalAt b (address + 1) (Operation.primary (peek b address)).literal⟩ := by
  simp [instructionAt, h]

/-- What cannot be read counts as `FF`, a restart, so the byte of any other instruction
was read. -/
theorem isSome_of_ne_restart {b : β} {address : UInt16}
    (h : (instructionAt b address).operation ≠ .restart 0x38) :
    (read? b address).isSome = true := by
  cases hread : read? b address with
  | some v => rfl
  | none =>
    have hpeek : peek b address = 0xFF := by simp [peek, hread]
    rw [instructionAt_of_ne (by rw [hpeek]; decide), hpeek] at h
    exact absurd rfl h

theorem instructionAt_cases {P : Decoded → Prop} (b : β) (address : UInt16)
    (hextended : ∀ opcode, P ⟨address, true, opcode, .extended opcode, .none⟩)
    (hprimary : ∀ opcode literal, opcode ≠ Opcode.extension →
      P ⟨address, false, opcode, .primary opcode, literal⟩) : P (instructionAt b address) := by
  by_cases h : peek b address = Opcode.extension
  · rw [instructionAt_of_extension h]
    exact hextended _
  · rw [instructionAt_of_ne h]
    exact hprimary _ _ h

theorem instructionAt_address (b : β) (address : UInt16) :
    (instructionAt b address).address = address :=
  instructionAt_cases (P := fun d => d.address = address) b address (fun _ => rfl)
    fun _ _ _ => rfl

end Bus

end Handheld
