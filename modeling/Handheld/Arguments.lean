import Handheld.Settings

/-!
# Arguments

The words of the command line. An option takes a value, either attached to it
or as the next word, unless that looks like an option itself; a switch takes
none. Nothing may be given twice, and no word may be left over.

A value that is a word of its own is looked at late: only when the next option
or switch is accepted, or at the end. So a word that cannot be accepted at all
is reported before it.
-/

namespace Handheld

structure Arguments where
  cartridge : Option String := none
  boot : Option String := none
  debugging : Bool := false
  settings : Option String := none
  maxSteps : Option Nat := none
  headless : Bool := false
  deriving DecidableEq, Repr

inductive UsageError where
  | unknown (word : String)
  | noValue (name : String)
  | notNumber (name : String) (value : String)
  | unwantedValue (name : String)
  | repeated (name : String)
  | help
  deriving DecidableEq, Repr

inductive Argument where
  | cartridge
  | boot
  | settings
  | maxSteps
  deriving DecidableEq, Repr

inductive Switch where
  | debugging
  | headless
  | help
  deriving DecidableEq, Repr

inductive Named where
  | argument (a : Argument)
  | switch (s : Switch)
  deriving DecidableEq, Repr

def Named.ofLong? : String → Option Named
  | "rom" => some (.argument .cartridge)
  | "boot" => some (.argument .boot)
  | "config" => some (.argument .settings)
  | "max-steps" => some (.argument .maxSteps)
  | "debug" => some (.switch .debugging)
  | "headless" => some (.switch .headless)
  | "help" => some (.switch .help)
  | _ => none

def Named.ofShort? : Char → Option Named
  | 'f' => some (.argument .cartridge)
  | 'b' => some (.argument .boot)
  | 'h' => some (.switch .help)
  | _ => none

def Argument.name : Argument → String
  | .cartridge => "--rom"
  | .boot => "--boot"
  | .settings => "--config"
  | .maxSteps => "--max-steps"

def Switch.name : Switch → String
  | .debugging => "--debug"
  | .headless => "--headless"
  | .help => "--help"

namespace UsageError

def message : UsageError → String
  | .unknown word => s!"unexpected argument '{word}' found"
  | .noValue name => s!"a value is required for '{name}' but none was supplied"
  | .notNumber name value => s!"invalid value '{value}' for '{name}'"
  | .unwantedValue name => s!"unexpected value for '{name}' found; no more were expected"
  | .repeated name => s!"the argument '{name}' cannot be used multiple times"
  | .help => ""

end UsageError

namespace Arguments

-- ---------------------------------------------------------------------------
-- Values
-- ---------------------------------------------------------------------------

/-- The number of a list of digits, at least one, that fits into 64 bits. -/
def number? (digits : List Char) : Option Nat :=
  if digits.isEmpty || !digits.all Char.isDigit then none
  else if Json.digitsValue digits ≤ Json.naturalLimit then some (Json.digitsValue digits)
  else none

def count? (value : String) : Option Nat :=
  match value.toList with
  | '+' :: digits => number? digits
  | digits => number? digits

def has (a : Arguments) : Argument → Bool
  | .cartridge => a.cartridge.isSome
  | .boot => a.boot.isSome
  | .settings => a.settings.isSome
  | .maxSteps => a.maxSteps.isSome

def path (x : Argument) (value : String) : Except UsageError String :=
  if value = "" then .error (.noValue x.name) else .ok value

def accept (a : Arguments) (x : Argument) (value : Option String) :
    Except UsageError Arguments :=
  match value with
  | none => .error (.noValue x.name)
  | some value =>
    if a.has x then .error (.repeated x.name)
    else
      match x with
      | .cartridge => do pure { a with cartridge := some (← path x value) }
      | .boot => do pure { a with boot := some (← path x value) }
      | .settings => do pure { a with settings := some (← path x value) }
      | .maxSteps =>
        match count? value with
        | some n => .ok { a with maxSteps := some n }
        | none => .error (.notNumber x.name value)

def turnOn (a : Arguments) : Switch → Except UsageError Arguments
  | .debugging =>
    if a.debugging then .error (.repeated Switch.debugging.name)
    else .ok { a with debugging := true }
  | .headless =>
    if a.headless then .error (.repeated Switch.headless.name)
    else .ok { a with headless := true }
  | .help => .error .help

-- ---------------------------------------------------------------------------
-- Words
-- ---------------------------------------------------------------------------

/-- The arguments accepted so far, and one that is still to be looked at, with
the word after it if that is its value. -/
structure Progress where
  accepted : Arguments := {}
  waiting : Option (Argument × Option String) := none
  deriving DecidableEq, Repr

def Progress.settle (p : Progress) : Except UsageError Arguments :=
  match p.waiting with
  | none => .ok p.accepted
  | some (x, value) => p.accepted.accept x value

def Progress.take (p : Progress) (named : Named) (value : Option String) :
    Except UsageError Progress :=
  match named, value with
  | .argument x, some value => do pure ⟨← (← p.settle).accept x (some value), none⟩
  | .argument x, none => do pure ⟨← p.settle, some (x, none)⟩
  | .switch s, none => do pure ⟨← (← p.settle).turnOn s, none⟩
  | .switch s, some _ => .error (.unwantedValue s.name)

def Progress.takeLong (p : Progress) (word : List Char) : Except UsageError Progress :=
  let name := String.ofList (word.takeWhile (· ≠ '='))
  let value := match word.dropWhile (· ≠ '=') with
    | [] => none
    | _ :: value => some (String.ofList value)
  match Named.ofLong? name with
  | some named => p.take named value
  | none => .error (.unknown ("--" ++ name))

/-- The value attached to a name of one letter: the rest of the word, without an
equals sign before it. -/
def attached : List Char → Option String
  | [] => none
  | '=' :: value => some (String.ofList value)
  | value => some (String.ofList value)

def Progress.takeShort (p : Progress) : List Char → Except UsageError Progress
  | [] => .ok p
  | c :: rest =>
    match Named.ofShort? c with
    | none => .error (.unknown (String.ofList ['-', c]))
    | some (.argument x) => p.take (.argument x) (attached rest)
    | some (.switch s) => do takeShort (← p.take (.switch s) none) rest

def Progress.takeValue (p : Progress) (word : String) : Except UsageError Progress :=
  match p.waiting with
  | some (x, none) => .ok { p with waiting := some (x, some word) }
  | _ => .error (.unknown word)

def Progress.takeWord (p : Progress) (word : String) : Except UsageError Progress :=
  match word.toList with
  | '-' :: '-' :: name => p.takeLong name
  | '-' :: c :: rest => p.takeShort (c :: rest)
  | _ => p.takeValue word

/-- Takes all words. After two dashes on their own nothing may follow. -/
def Progress.takeAll (p : Progress) : List String → Except UsageError Arguments
  | [] => p.settle
  | "--" :: [] => p.settle
  | "--" :: word :: _ => .error (.unknown word)
  | word :: words => do takeAll (← p.takeWord word) words

def ofWords (words : List String) : Except UsageError Arguments := Progress.takeAll {} words

def help : String :=
  "DMG CPU/MMU/PPU core with an optional SDL3 window\n" ++
  "\n" ++
  "Usage: rust_gb [OPTIONS]\n" ++
  "\n" ++
  "Options:\n" ++
  "  -f, --rom <ROM>              Path to the cartridge ROM\n" ++
  "  -b, --boot <BOOT>            Path to a 256-byte boot ROM mapped over 0x0000-0x00FF\n" ++
  "      --debug                  Log every decoded instruction\n" ++
  "      --config <CONFIG>        JSON config file; flags given on the command line win\n" ++
  "      --max-steps <MAX_STEPS>  Stop after this many instructions\n" ++
  "      --headless               Run without a window even when the display feature is built in\n" ++
  "  -h, --help                   Print help\n"

end Arguments

-- ---------------------------------------------------------------------------
-- Settings
-- ---------------------------------------------------------------------------

namespace Settings

def withArguments (s : Settings) (a : Arguments) : Settings :=
  { s with
    cartridge := a.cartridge <|> s.cartridge
    boot := a.boot <|> s.boot
    maxSteps := a.maxSteps <|> s.maxSteps
    debugging := s.debugging || a.debugging
    headless := s.headless || a.headless }

def base (parse : Parse) (disk : Disk) (a : Arguments) : Except SetupError Settings :=
  match a.settings with
  | some path => load parse disk path
  | none => .ok {}

def ofArguments (parse : Parse) (disk : Disk) (a : Arguments) : Except SetupError Settings := do
  let s := (← base parse disk a).withArguments a
  let _ ← s.requireCartridge
  pure s

end Settings

end Handheld
