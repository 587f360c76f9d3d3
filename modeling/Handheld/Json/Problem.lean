/-!
# Reading JSON

A text is read from left to right and the first problem ends it. A reader takes
what is left of the text and gives a value and what is left after it.
-/

namespace Handheld.Json

/-- Why a text cannot be read: it is no JSON, or it ends too early, or it is
sound so far but holds the wrong kind of value. -/
inductive Problem where
  | malformed
  | truncated
  | mismatched
  deriving DecidableEq, Repr

def Problem.message : Problem → String
  | .malformed => "malformed text"
  | .truncated => "the text ends too early"
  | .mismatched => "unexpected value"

abbrev Reader (α : Type) := List Char → Except Problem (α × List Char)

def isBlank (c : Char) : Bool := c = ' ' || c = '\n' || c = '\t' || c = '\r'

def dropBlanks (cs : List Char) : List Char := cs.dropWhile isBlank

def readWord : List Char → List Char → Except Problem (List Char)
  | [], cs => .ok cs
  | _ :: _, [] => .error .truncated
  | w :: ws, c :: cs => if c = w then readWord ws cs else .error .malformed

end Handheld.Json
