import Handheld.Instruction.Table

/-!
# Listings

The text of an instruction. A literal that is known is written as a number, in
hexadecimal or, for offsets, signed; one that is not known is written as the
name of its kind.
-/

namespace Handheld

namespace Literal

/-- The value that the literal has, written by `known`, or the name of its kind. -/
def textOr (name : String) (known : Literal → String) (l : Literal) : String :=
  match l with
  | .none => name
  | l => known l

def byteText : Literal → String := textOr "d8" fun l => "$" ++ Text.hexByte l.toByte

def wordText : Literal → String := textOr "d16" fun l => "$" ++ Text.hexWord l.toWord

def targetText : Literal → String := textOr "a16" fun l => "$" ++ Text.hexWord l.toWord

def cellText : Literal → String := textOr "(a16)" fun l => "($" ++ Text.hexWord l.toWord ++ ")"

def lastPageText : Literal → String := textOr "(a8)" fun l => "($FF" ++ Text.hexByte l.toByte ++ ")"

def offsetText : Literal → String := textOr "e8" fun l => Text.signed (Byte.signed l.toByte)

def addedOffsetText : Literal → String := textOr "+e8" fun l => Text.signed (Byte.signed l.toByte)

end Literal

namespace Condition

def leadText : Option Condition → String
  | none => ""
  | some c => c.name ++ ", "

end Condition

namespace Operation

def listing (l : Literal) : Operation → String
  | .unimplemented => "???"
  | .extend => "PREFIX CB"
  | .nop => "NOP"
  | .load target source => "LD " ++ target.name ++ ", " ++ source.name
  | .loadLiteral target => "LD " ++ target.name ++ ", " ++ l.byteText
  | .loadWord target => "LD " ++ target.name ++ ", " ++ l.wordText
  | .storeThrough p => "LD " ++ p.name ++ ", A"
  | .loadThrough p => "LD A, " ++ p.name
  | .storeAt => "LD " ++ l.cellText ++ ", A"
  | .loadFrom => "LD A, " ++ l.cellText
  | .storeLastPage => "LDH " ++ l.lastPageText ++ ", A"
  | .loadLastPage => "LDH A, " ++ l.lastPageText
  | .storeLastPageC => "LD (C), A"
  | .loadLastPageC => "LD A, (C)"
  | .storeStackPointer => "LD " ++ l.cellText ++ ", SP"
  | .stackPointerFromHL => "LD SP, HL"
  | .hlFromStackPointer => "LD HL, SP" ++ l.addedOffsetText
  | .push p => "PUSH " ++ p.name
  | .pop p => "POP " ++ p.name
  | .alu op source => op.name ++ " " ++ source.name
  | .aluLiteral op => op.name ++ " " ++ l.byteText
  | .addHL source => "ADD HL, " ++ source.name
  | .addStackPointer => "ADD SP, " ++ l.offsetText
  | .increment target => "INC " ++ target.name
  | .decrement target => "DEC " ++ target.name
  | .incrementWord target => "INC " ++ target.name
  | .decrementWord target => "DEC " ++ target.name
  | .rotateAccumulator op => op.name ++ "A"
  | .decimalAdjust => "DAA"
  | .complement => "CPL"
  | .setCarry => "SCF"
  | .complementCarry => "CCF"
  | .jump c => "JP " ++ Condition.leadText c ++ l.targetText
  | .jumpHL => "JP HL"
  | .jumpRelative c => "JR " ++ Condition.leadText c ++ l.offsetText
  | .call c => "CALL " ++ Condition.leadText c ++ l.targetText
  | .ret (some c) => "RET " ++ c.name
  | .ret none => "RET"
  | .retEnable => "RETI"
  | .restart vector => "RST $" ++ Text.hexByte vector
  | .disableInterrupts => "DI"
  | .enableInterrupts => "EI"
  | .shift op target => op.name ++ " " ++ target.name
  | .bit i source => "BIT " ++ toString i.val ++ ", " ++ source.name
  | .reset i target => "RES " ++ toString i.val ++ ", " ++ target.name
  | .set i target => "SET " ++ toString i.val ++ ", " ++ target.name

end Operation

def Decoded.listing (d : Decoded) : String := d.operation.listing d.literal

end Handheld
