import Handheld.Flags
import Handheld.Word

/-!
# The register file

Seven byte registers, the flags, the stack pointer and the program counter.
Pairs of byte registers are read and written as words, the first register
being the high byte.
-/

namespace Handheld

inductive ByteRegister where
  | b
  | c
  | d
  | e
  | h
  | l
  | a
  deriving DecidableEq, Repr

inductive WordRegister where
  | bc
  | de
  | hl
  | sp
  deriving DecidableEq, Repr

inductive StackPair where
  | bc
  | de
  | hl
  | af
  deriving DecidableEq, Repr

namespace ByteRegister

def name : ByteRegister → String
  | .b => "B"
  | .c => "C"
  | .d => "D"
  | .e => "E"
  | .h => "H"
  | .l => "L"
  | .a => "A"

end ByteRegister

namespace WordRegister

def ofBits : Fin 4 → WordRegister
  | 0 => .bc
  | 1 => .de
  | 2 => .hl
  | 3 => .sp

def name : WordRegister → String
  | .bc => "BC"
  | .de => "DE"
  | .hl => "HL"
  | .sp => "SP"

end WordRegister

namespace StackPair

def ofBits : Fin 4 → StackPair
  | 0 => .bc
  | 1 => .de
  | 2 => .hl
  | 3 => .af

def name : StackPair → String
  | .bc => "BC"
  | .de => "DE"
  | .hl => "HL"
  | .af => "AF"

end StackPair

/-- At power-on everything is zero. -/
structure Registers where
  a : UInt8 := 0
  flags : Flags := {}
  b : UInt8 := 0
  c : UInt8 := 0
  d : UInt8 := 0
  e : UInt8 := 0
  h : UInt8 := 0
  l : UInt8 := 0
  sp : UInt16 := 0
  pc : UInt16 := 0
  deriving DecidableEq, Repr, Inhabited

namespace Registers

def byte (r : Registers) : ByteRegister → UInt8
  | .b => r.b
  | .c => r.c
  | .d => r.d
  | .e => r.e
  | .h => r.h
  | .l => r.l
  | .a => r.a

def setByte (r : Registers) (x : ByteRegister) (v : UInt8) : Registers :=
  match x with
  | .b => { r with b := v }
  | .c => { r with c := v }
  | .d => { r with d := v }
  | .e => { r with e := v }
  | .h => { r with h := v }
  | .l => { r with l := v }
  | .a => { r with a := v }

@[simp] theorem pc_setByte (r : Registers) (x : ByteRegister) (v : UInt8) :
    (r.setByte x v).pc = r.pc := by
  cases x <;> rfl

@[simp] theorem sp_setByte (r : Registers) (x : ByteRegister) (v : UInt8) :
    (r.setByte x v).sp = r.sp := by
  cases x <;> rfl

@[simp] theorem flags_setByte (r : Registers) (x : ByteRegister) (v : UInt8) :
    (r.setByte x v).flags = r.flags := by
  cases x <;> rfl

theorem byte_setByte (r : Registers) (x y : ByteRegister) (v : UInt8) :
    (r.setByte x v).byte y = if y = x then v else r.byte y := by
  cases x <;> cases y <;> simp [byte, setByte]

-- ---------------------------------------------------------------------------
-- Pairs
-- ---------------------------------------------------------------------------

def bc (r : Registers) : UInt16 := Word.ofBytes r.b r.c

def de (r : Registers) : UInt16 := Word.ofBytes r.d r.e

def hl (r : Registers) : UInt16 := Word.ofBytes r.h r.l

def af (r : Registers) : UInt16 := Word.ofBytes r.a r.flags.toByte

def setBC (r : Registers) (w : UInt16) : Registers := { r with b := Word.high w, c := Word.low w }

def setDE (r : Registers) (w : UInt16) : Registers := { r with d := Word.high w, e := Word.low w }

def setHL (r : Registers) (w : UInt16) : Registers := { r with h := Word.high w, l := Word.low w }

def setAF (r : Registers) (w : UInt16) : Registers :=
  { r with a := Word.high w, flags := Flags.ofByte (Word.low w) }

@[simp] theorem bc_setBC (r : Registers) (w : UInt16) : (r.setBC w).bc = w := by simp [bc, setBC]

@[simp] theorem de_setDE (r : Registers) (w : UInt16) : (r.setDE w).de = w := by simp [de, setDE]

@[simp] theorem hl_setHL (r : Registers) (w : UInt16) : (r.setHL w).hl = w := by simp [hl, setHL]

def word (r : Registers) : WordRegister → UInt16
  | .bc => r.bc
  | .de => r.de
  | .hl => r.hl
  | .sp => r.sp

def setWord (r : Registers) (x : WordRegister) (w : UInt16) : Registers :=
  match x with
  | .bc => r.setBC w
  | .de => r.setDE w
  | .hl => r.setHL w
  | .sp => { r with sp := w }

@[simp] theorem pc_setWord (r : Registers) (x : WordRegister) (w : UInt16) :
    (r.setWord x w).pc = r.pc := by
  cases x <;> rfl

@[simp] theorem flags_setWord (r : Registers) (x : WordRegister) (w : UInt16) :
    (r.setWord x w).flags = r.flags := by
  cases x <;> rfl

theorem word_setWord (r : Registers) (x y : WordRegister) (w : UInt16) :
    (r.setWord x w).word y = if y = x then w else r.word y := by
  cases x <;> cases y <;>
    simp [word, setWord, bc, de, hl, setBC, setDE, setHL]

def pair (r : Registers) : StackPair → UInt16
  | .bc => r.bc
  | .de => r.de
  | .hl => r.hl
  | .af => r.af

def setPair (r : Registers) (x : StackPair) (w : UInt16) : Registers :=
  match x with
  | .bc => r.setBC w
  | .de => r.setDE w
  | .hl => r.setHL w
  | .af => r.setAF w

@[simp] theorem pc_setPair (r : Registers) (x : StackPair) (w : UInt16) :
    (r.setPair x w).pc = r.pc := by
  cases x <;> rfl

-- ---------------------------------------------------------------------------
-- Text
-- ---------------------------------------------------------------------------

def tailText (r : Registers) : String :=
  s!"B={Text.hexByte r.b} C={Text.hexByte r.c} D={Text.hexByte r.d} E={Text.hexByte r.e} " ++
    s!"H={Text.hexByte r.h} L={Text.hexByte r.l} SP={Text.hexWord r.sp} PC={Text.hexWord r.pc}"

def text (r : Registers) : String :=
  s!"A={Text.hexByte r.a} F={Text.hexByte r.flags.toByte} (ZNHC={r.flags.digits}) {r.tailText}"

def brief (r : Registers) : String :=
  s!"A={Text.hexByte r.a} F={Text.hexByte r.flags.toByte} {r.tailText}"

end Registers

end Handheld
