import Handheld.Json.Problem

/-!
# Quoted texts

A text stands between quotes. A backslash begins an escape; `\u` is followed by
the four digits of a code unit, and a character beyond the first 65536 takes
two of them. Control characters must be escaped.
-/

namespace Handheld.Json

def escaped? : Char → Option Char
  | '"' => some '"'
  | '\\' => some '\\'
  | '/' => some '/'
  | 'b' => some '\x08'
  | 'f' => some '\x0c'
  | 'n' => some '\n'
  | 'r' => some '\r'
  | 't' => some '\t'
  | _ => none

def hexDigit? (c : Char) : Option Nat :=
  if '0' ≤ c ∧ c ≤ '9' then some (c.toNat - '0'.toNat)
  else if 'a' ≤ c ∧ c ≤ 'f' then some (c.toNat - 'a'.toNat + 10)
  else if 'A' ≤ c ∧ c ≤ 'F' then some (c.toNat - 'A'.toNat + 10)
  else none

def unit? (a b c d : Char) : Option Nat := do
  pure ((((← hexDigit? a) * 16 + (← hexDigit? b)) * 16 + (← hexDigit? c)) * 16 + (← hexDigit? d))

def isLeading (u : Nat) : Bool := decide (0xD800 ≤ u) && decide (u ≤ 0xDBFF)

def isTrailing (u : Nat) : Bool := decide (0xDC00 ≤ u) && decide (u ≤ 0xDFFF)

def paired (leading trailing : Nat) : Char :=
  Char.ofNat (0x10000 + (leading - 0xD800) * 0x400 + (trailing - 0xDC00))

def byteCount (cs : List Char) : Nat := cs.foldl (fun n c => n + c.utf8Size) 0

/-- The problem of a `\u` with fewer than four characters after it. The text
ends too early only if there are fewer than four bytes, too. -/
def shortUnit (cs : List Char) : Problem := if byteCount cs < 4 then .truncated else .malformed

def isControl (c : Char) : Bool := decide (c.toNat < 0x20)

/-- Reads the rest of a text whose opening quote is behind. `half` is a leading
half that waits for its trailing half, `done` what was read, reversed. -/
def readText (half : Option Nat) (done : List Char) : Reader String
  | [] => .error .truncated
  | '"' :: rest =>
    if half.isSome then .error .malformed else .ok (String.ofList done.reverse, rest)
  | '\\' :: 'u' :: a :: b :: c :: d :: rest =>
    match unit? a b c d, half with
    | none, _ => .error .malformed
    | some u, some leading =>
      if isTrailing u then readText none (paired leading u :: done) rest else .error .malformed
    | some u, none =>
      if isTrailing u then .error .malformed
      else if isLeading u then readText (some u) done rest
      else readText none (Char.ofNat u :: done) rest
  | '\\' :: 'u' :: rest => .error (shortUnit rest)
  | ['\\'] => .error .truncated
  | '\\' :: c :: rest =>
    match escaped? c, half with
    | some c, none => readText none (c :: done) rest
    | _, _ => .error .malformed
  | c :: rest =>
    if half.isSome || isControl c then .error .malformed else readText none (c :: done) rest

/-- Passes over the rest of a text whose opening quote is behind. The digits of
code units are checked, but not what they stand for. -/
def skipText : List Char → Except Problem (List Char)
  | [] => .error .truncated
  | '"' :: rest => .ok rest
  | '\\' :: 'u' :: a :: b :: c :: d :: rest =>
    if (unit? a b c d).isSome then skipText rest else .error .malformed
  | '\\' :: 'u' :: rest => .error (shortUnit rest)
  | ['\\'] => .error .truncated
  | '\\' :: c :: rest => if (escaped? c).isSome then skipText rest else .error .malformed
  | c :: rest => if isControl c then .error .malformed else skipText rest

end Handheld.Json
