import Handheld.Json.Number
import Handheld.Json.Text

/-!
# Passing over values

A value that nobody asked for is read only to find its end. Its brackets are
kept on a stack, so that it may be nested as deep as it likes.
-/

namespace Handheld.Json

inductive Bracket where
  | list
  | object
  deriving DecidableEq, Repr

def Bracket.closing : Bracket → Char
  | .list => ']'
  | .object => '\x7d'

/-- Passes over a scalar. A number that ends too early is malformed here. -/
def skipScalar : List Char → Except Problem (List Char)
  | [] => .error .truncated
  | 'n' :: rest => readWord ['u', 'l', 'l'] rest
  | 't' :: rest => readWord ['r', 'u', 'e'] rest
  | 'f' :: rest => readWord ['a', 'l', 's', 'e'] rest
  | '"' :: rest => skipText rest
  | c :: rest =>
    if c = '-' || c.isDigit then
      match readNumeral (c :: rest) with
      | .ok (_, rest) => .ok rest
      | .error _ => .error .malformed
    else .error .malformed

def skipColon (cs : List Char) : Except Problem (List Char) :=
  match dropBlanks cs with
  | [] => .error .truncated
  | ':' :: rest => .ok rest
  | _ => .error .malformed

def skipKey (b : Bracket) (cs : List Char) : Except Problem (List Char) :=
  match b with
  | .list => .ok cs
  | .object =>
    match dropBlanks cs with
    | [] => .error .truncated
    | '"' :: rest => do skipColon (← skipText rest)
    | _ => .error .malformed

inductive Phase where
  | before
  | inside
  | after
  deriving DecidableEq, Repr

/-- Passes over the rest of a value with open brackets, the innermost first. The
number bounds how many more values and brackets are looked at. -/
def skipFrom : Nat → Phase → List Bracket → List Char → Except Problem (List Char)
  | 0, _, _, _ => .error .truncated
  | n + 1, .before, opened, cs =>
    match dropBlanks cs with
    | '[' :: rest => skipFrom n .inside (.list :: opened) rest
    | '\x7b' :: rest => skipFrom n .inside (.object :: opened) rest
    | rest =>
      match skipScalar rest with
      | .ok rest => skipFrom n .after opened rest
      | .error e => .error e
  | _ + 1, _, [], cs => .ok cs
  | n + 1, phase, b :: opened, cs =>
    match dropBlanks cs with
    | [] => .error .truncated
    | c :: rest =>
      if c = b.closing then skipFrom n .after opened rest
      else if phase = .inside then
        match skipKey b (c :: rest) with
        | .ok rest => skipFrom n .before (b :: opened) rest
        | .error e => .error e
      else if c = ',' then
        match skipKey b rest with
        | .ok rest => skipFrom n .before (b :: opened) rest
        | .error e => .error e
      else .error .malformed

def skipValue (cs : List Char) : Except Problem (List Char) :=
  skipFrom (2 * cs.length + 2) .before [] cs

end Handheld.Json
