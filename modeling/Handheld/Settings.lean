import Handheld.Disk
import Handheld.Json.Record
import Handheld.Picture.Frame
import Handheld.Trace

/-!
# Settings

How the program is to run. A settings file is a JSON record of them; what it
does not give keeps its default. The flags of the command line are laid over
the file, and in the end a cartridge must be named.
-/

namespace Handheld

structure Settings where
  cartridge : Option String := none
  boot : Option String := none
  debugging : Bool := false
  traceCapacity : Nat := Trace.defaultCapacity
  /-- The pause after each instruction, in microseconds. -/
  pause : Nat := 0
  viewport : Viewport := .screen
  maxSteps : Option Nat := none
  headless : Bool := false
  deriving DecidableEq, Repr

inductive SetupError where
  | unreadable (reason : ReadError)
  | notText
  | malformed (path : String) (problem : Json.Problem)
  | viewport (path : String) (v : Viewport)
  | noCartridge
  | image (path : String) (reason : ReadError)
  /-- There cannot be room for the trace. This is never reported as the others
  are: the program breaks off. -/
  | noRoom
  deriving DecidableEq, Repr

def SetupError.message : SetupError → String
  | .unreadable reason => reason.message
  | .notText => "stream did not contain valid UTF-8"
  | .malformed path problem => s!"invalid config file {path}: {problem.message}"
  | .viewport path v =>
    s!"invalid viewport {v.width}x{v.height} in {path} (each axis must be 1..=256)"
  | .noCartridge => "no ROM given (use --rom or set rom_path in the config file)"
  | .image path reason => s!"failed to load ROM {path}: {reason.message}"
  | .noRoom => "capacity overflow"

-- ---------------------------------------------------------------------------
-- Files
-- ---------------------------------------------------------------------------

def Viewport.fields : List (Json.Field Viewport) :=
  [.ofKind "width" (·.natural?) fun v width => { v with width },
    .ofKind "height" (·.natural?) fun v height => { v with height }]

namespace Settings

def fields : List (Json.Field Settings) :=
  [.ofKind "rom_path" (Json.Scalar.orNull (·.text?)) fun s cartridge => { s with cartridge },
    .ofKind "boot_rom_path" (Json.Scalar.orNull (·.text?)) fun s boot => { s with boot },
    .ofKind "debug" (·.bool?) fun s debugging => { s with debugging },
    .ofKind "trace_capacity" (·.natural?) fun s traceCapacity => { s with traceCapacity },
    .ofKind "step_delay_us" (·.natural?) fun s pause => { s with pause },
    .ofReader "viewport" (Json.readComplete Viewport.fields ⟨0, 0⟩) fun s viewport =>
      { s with viewport },
    .ofKind "max_steps" (Json.Scalar.orNull (·.natural?)) fun s maxSteps => { s with maxSteps },
    .ofKind "headless" (·.bool?) fun s headless => { s with headless }]

def reader : Json.Reader Settings := fun cs => do
  let (given, cs) ← Json.readRecord fields {} cs
  pure (given.record, cs)

def ofText (text : String) : Except Json.Problem Settings := Json.readAll reader text

/-- What takes the text of a settings file for settings. Whatever does, no more of it
is used than what it gives. -/
abbrev Parse := String → Except Json.Problem Settings

def ofBytes (parse : Parse) (path : String) (content : ByteArray) : Except SetupError Settings :=
  match String.fromUTF8? content with
  | none => .error .notText
  | some text =>
    match parse text with
    | .ok s => .ok s
    | .error problem => .error (.malformed path problem)

def load (parse : Parse) (disk : Disk) (path : String) : Except SetupError Settings :=
  match disk path with
  | .error reason => .error (.unreadable reason)
  | .ok content =>
    match ofBytes parse path content with
    | .error e => .error e
    | .ok s => if s.viewport.valid then .ok s else .error (.viewport path s.viewport)

def requireCartridge (s : Settings) : Except SetupError String :=
  match s.cartridge with
  | some path => .ok path
  | none => .error .noCartridge

def pauseParts (s : Settings) : Nat × Nat := (s.pause / 1000000, s.pause % 1000000 * 1000)

end Settings

end Handheld
