/-!
# The journal

What the machine and the program around it have to say while they run: lines
with a severity and the part that speaks. A threshold decides which are kept;
the severe ones are also shown at once.
-/

namespace Handheld.Journal

inductive Level where
  | error
  | warn
  | info
  | debug
  | trace
  deriving DecidableEq, Repr

namespace Level

def rank : Level → Nat
  | .error => 1
  | .warn => 2
  | .info => 3
  | .debug => 4
  | .trace => 5

def name : Level → String
  | .error => "ERROR"
  | .warn => "WARN"
  | .info => "INFO"
  | .debug => "DEBUG"
  | .trace => "TRACE"

def keptAt (level limit : Level) : Bool := decide (level.rank ≤ limit.rank)

def threshold (debugging : Bool) : Level := if debugging then .trace else .info

/-- Lines that are shown at once as well as kept. -/
def shown (level : Level) : Bool := level.keptAt .warn

end Level

/-- The parts that speak, under the names their lines carry. -/
inductive Speaker where
  | program
  | console
  | processor
  | memory
  | sound
  | worker
  | other (name : String)
  deriving DecidableEq, Repr

def Speaker.name : Speaker → String
  | .program => "rust_gb"
  | .console => "rust_gb_core::gameboy"
  | .processor => "rust_gb_core::cpu"
  | .memory => "rust_gb_core::mmu"
  | .sound => "rust_gb_core::apu"
  | .worker => "rust_gb_core::runner"
  | .other name => name

structure Record where
  level : Level
  speaker : Speaker
  message : String
  deriving DecidableEq, Repr

namespace Record

def line (r : Record) : String := s!"[{r.level.name}] {r.speaker.name}: {r.message}"

def keptAt (r : Record) (limit : Level) : Bool := r.level.keptAt limit

end Record

def directory : String := "logs"

def fileName : String := "emulator.log"

def path : String := directory ++ "/" ++ fileName

def lines (limit : Level) (records : List Record) : List String :=
  (records.filter (·.keptAt limit)).map (·.line)

def shownLines (limit : Level) (records : List Record) : List String :=
  (records.filter fun r => r.keptAt limit && r.level.shown).map (·.line)

def fileText (lines : List String) : String := lines.foldl (fun text l => text ++ l ++ "\n") ""

end Handheld.Journal
