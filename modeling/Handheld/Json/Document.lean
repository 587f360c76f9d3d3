/-!
# Documents

Values as a JSON text shows them, written over several lines with two spaces
for each level. The members of an object keep their order.
-/

namespace Handheld.Json

inductive Document where
  | null
  | bool (b : Bool)
  | number (n : Nat)
  | text (s : String)
  | list (items : List Document)
  | object (members : List (String × Document))

namespace Document

def escapeDigit (n : Nat) : Char :=
  if n < 10 then Char.ofNat ('0'.toNat + n) else Char.ofNat ('a'.toNat + (n - 10))

def escape (c : Char) : List Char :=
  match c with
  | '"' => ['\\', '"']
  | '\\' => ['\\', '\\']
  | '\x08' => ['\\', 'b']
  | '\x0c' => ['\\', 'f']
  | '\n' => ['\\', 'n']
  | '\r' => ['\\', 'r']
  | '\t' => ['\\', 't']
  | c =>
    if c.toNat < 0x20 then
      ['\\', 'u', '0', '0', escapeDigit (c.toNat / 16), escapeDigit (c.toNat % 16)]
    else [c]

def quote (s : String) : String :=
  String.ofList ('"' :: (s.toList.flatMap escape ++ ['"']))

def lineBreak (level : Nat) : String := String.ofList ('\n' :: List.replicate (2 * level) ' ')

/-- Items between brackets, each on a line of its own; nothing between them if
there are none. -/
def bracket (opening closing : String) (level : Nat) (items : List String) : String :=
  match items with
  | [] => opening ++ closing
  | items =>
    opening ++ lineBreak (level + 1) ++ ("," ++ lineBreak (level + 1)).intercalate items ++
      lineBreak level ++ closing

mutual

def render (level : Nat) : Document → String
  | .null => "null"
  | .bool b => if b then "true" else "false"
  | .number n => toString n
  | .text s => quote s
  | .list items => bracket "[" "]" level (renderItems (level + 1) items)
  | .object members => bracket "\x7b" "\x7d" level (renderMembers (level + 1) members)

def renderItems (level : Nat) : List Document → List String
  | [] => []
  | d :: ds => render level d :: renderItems level ds

def renderMembers (level : Nat) : List (String × Document) → List String
  | [] => []
  | (key, d) :: ds => (quote key ++ ": " ++ render level d) :: renderMembers level ds

end

def pretty (d : Document) : String := d.render 0

end Document

end Handheld.Json
