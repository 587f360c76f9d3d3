import Handheld.Json.Problem

/-!
# Numbers

A number is digits, perhaps with a sign, a fraction and an exponent. Only plain
digits that fit into 64 bits are a natural number; every other number is good
for nothing here, but one that is too large for a double is no number at all.
-/

namespace Handheld.Json

structure Numeral where
  negative : Bool
  whole : List Char
  fraction : Option (List Char) := none
  exponent : Option (Bool × List Char) := none
  deriving DecidableEq, Repr

-- ---------------------------------------------------------------------------
-- Magnitude
-- ---------------------------------------------------------------------------

def naturalLimit : Nat := 0xFFFFFFFFFFFFFFFF

def digitValue (c : Char) : Nat := c.toNat - '0'.toNat

def digitsValue (cs : List Char) : Nat := cs.foldl (fun n c => n * 10 + digitValue c) 0

/-- Appends digits to a number until one makes it too large. Gives the digits
that were left over, too. -/
def gather (n : Nat) : List Char → Nat × List Char
  | [] => (n, [])
  | c :: cs =>
    if n * 10 + digitValue c > naturalLimit then (n, c :: cs)
    else gather (n * 10 + digitValue c) cs

/-- The nearest number of 53 significant bits; of two, the even one. -/
def nearestDouble (n : Nat) : Nat :=
  let unit := Nat.pow 2 (n.log2 + 1 - 53)
  let q := n / unit
  let r := n % unit
  if 2 * r > unit ∨ (2 * r = unit ∧ q % 2 = 1) then (q + 1) * unit else q * unit

def maxExponent : Int := 308

/-- The product of a number and a power of ten rounds to no double. -/
def overflows (n : Nat) (exponent : Int) : Bool :=
  if n = 0 ∨ exponent < 0 then false
  else if exponent > maxExponent then true
  else
    let scaled := nearestDouble n * nearestDouble (Nat.pow 10 exponent.toNat)
    decide (Nat.pow 2 1024 ≤ nearestDouble scaled)

namespace Numeral

/-- The significant digits as a number, and the exponent of ten that goes with
it. Digits that do not fit any more count as zeros. -/
def parts (n : Numeral) : Nat × Int :=
  let (whole, left) := gather 0 n.whole
  let fraction := n.fraction.getD []
  let (significand, dropped) := gather whole fraction
  let scale : Int := match n.exponent with
    | none => 0
    | some (true, digits) => - (digitsValue digits : Int)
    | some (false, digits) => digitsValue digits
  (significand, left.length - (fraction.length - dropped.length) + scale)

def tooLarge (n : Numeral) : Bool := overflows n.parts.1 n.parts.2

def natural? (n : Numeral) : Option Nat :=
  if n.negative || n.fraction.isSome || n.exponent.isSome then none
  else if digitsValue n.whole ≤ naturalLimit then some (digitsValue n.whole)
  else none

end Numeral

-- ---------------------------------------------------------------------------
-- Reading
-- ---------------------------------------------------------------------------

def readDigits : Reader (List Char)
  | [] => .error .truncated
  | c :: cs =>
    if c.isDigit then .ok (c :: cs.takeWhile Char.isDigit, cs.dropWhile Char.isDigit)
    else .error .malformed

def readWhole : Reader (List Char)
  | '0' :: c :: cs => if c.isDigit then .error .malformed else .ok (['0'], c :: cs)
  | cs => readDigits cs

def readFraction : Reader (Option (List Char))
  | '.' :: cs => do
    let (digits, cs) ← readDigits cs
    pure (some digits, cs)
  | cs => .ok (none, cs)

def readSign : List Char → Bool × List Char
  | '-' :: cs => (true, cs)
  | '+' :: cs => (false, cs)
  | cs => (false, cs)

def readExponent : Reader (Option (Bool × List Char))
  | 'e' :: cs | 'E' :: cs => do
    let (negative, cs) := readSign cs
    let (digits, cs) ← readDigits cs
    pure (some (negative, digits), cs)
  | cs => .ok (none, cs)

def readUnsigned (negative : Bool) : Reader Numeral := fun cs => do
  let (whole, cs) ← readWhole cs
  let (fraction, cs) ← readFraction cs
  let (exponent, cs) ← readExponent cs
  pure ({ negative, whole, fraction, exponent }, cs)

def readNumeral : Reader Numeral
  | '-' :: cs => readUnsigned true cs
  | cs => readUnsigned false cs

end Handheld.Json
