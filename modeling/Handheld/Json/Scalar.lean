import Handheld.Json.Number
import Handheld.Json.Text

/-!
# Scalars

Values without parts, and the readers of each kind of them. Where a reader
finds a sound scalar of another kind, or the beginning of a list or an object,
the value is mismatched; where it finds no value at all, the text is malformed.
-/

namespace Handheld.Json

inductive Scalar where
  | null
  | bool (b : Bool)
  /-- A number; nothing more is known of it unless it is a natural number. -/
  | number (n : Option Nat)
  | text (s : String)
  deriving DecidableEq, Repr

def readNumber : Reader Scalar := fun cs => do
  let (n, cs) ← readNumeral cs
  if n.tooLarge then .error .malformed else pure (.number n.natural?, cs)

def readScalar : Reader Scalar := fun cs =>
  match dropBlanks cs with
  | [] => .error .truncated
  | 'n' :: rest => do pure (.null, ← readWord ['u', 'l', 'l'] rest)
  | 't' :: rest => do pure (.bool true, ← readWord ['r', 'u', 'e'] rest)
  | 'f' :: rest => do pure (.bool false, ← readWord ['a', 'l', 's', 'e'] rest)
  | '"' :: rest => do
    let (s, rest) ← readText none [] rest
    pure (.text s, rest)
  | '[' :: _ => .error .mismatched
  | '\x7b' :: _ => .error .mismatched
  | c :: rest => if c = '-' || c.isDigit then readNumber (c :: rest) else .error .malformed

def Scalar.bool? : Scalar → Option Bool
  | .bool b => some b
  | _ => none

def Scalar.natural? : Scalar → Option Nat
  | .number n => n
  | _ => none

def Scalar.text? : Scalar → Option String
  | .text s => some s
  | _ => none

def Scalar.orNull {α : Type} (f : Scalar → Option α) : Scalar → Option (Option α)
  | .null => some none
  | s => (f s).map some

def readKind {α : Type} (kind : Scalar → Option α) : Reader α := fun cs => do
  let (s, cs) ← readScalar cs
  match kind s with
  | some a => pure (a, cs)
  | none => .error .mismatched

end Handheld.Json
