/-!
# Numbers, quotes and lines in text

Bytes and words are written in upper-case hexadecimal with a fixed number of
digits, offsets with a sign that is always there, and captured text between
double quotes. Text that was written line by line can be taken apart again.
-/

namespace Handheld.Text

def hexDigit (n : Nat) : Char :=
  if n < 10 then Char.ofNat ('0'.toNat + n) else Char.ofNat ('A'.toNat + (n - 10))

/-- The last `width` hexadecimal digits of `n`, most significant first. -/
def hexDigits : Nat → Nat → List Char
  | 0, _ => []
  | width + 1, n => hexDigits width (n / 16) ++ [hexDigit (n % 16)]

@[simp] theorem hexDigits_length (width n : Nat) : (hexDigits width n).length = width := by
  induction width generalizing n with
  | zero => rfl
  | succ width ih => simp [hexDigits, ih]

def hexByte (b : UInt8) : String := String.ofList (hexDigits 2 b.toNat)

def hexWord (w : UInt16) : String := String.ofList (hexDigits 4 w.toNat)

def bits : Nat → Nat → List Char
  | 0, _ => []
  | width + 1, n => bits width (n / 2) ++ [if n % 2 = 1 then '1' else '0']

def signed (i : Int) : String := if i < 0 then toString i else "+" ++ toString i

def quoteChar (c : Char) : List Char :=
  match c with
  | '"' => ['\\', '"']
  | '\\' => ['\\', '\\']
  | '\n' => ['\\', 'n']
  | '\r' => ['\\', 'r']
  | '\t' => ['\\', 't']
  | c => [c]

def quoted (s : String) : String :=
  String.ofList ('"' :: (s.toList.flatMap quoteChar ++ ['"']))

def joined (separator : String) (words : List String) : String := separator.intercalate words

def withoutReturn (line : String) : String :=
  match line.toList.reverse with
  | '\r' :: cs => String.ofList cs.reverse
  | _ => line

/-- The lines of pieces that line feeds divide. The last piece has no line feed
after it, and is a line only if it is not empty. -/
def linesOf : List String → List String
  | [] => []
  | [last] => if last = "" then [] else [last]
  | piece :: pieces => withoutReturn piece :: linesOf pieces

def lines (text : String) : List String := linesOf (text.splitOn "\n")

end Handheld.Text
