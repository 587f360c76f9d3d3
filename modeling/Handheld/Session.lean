import Handheld.Arguments
import Handheld.Console.Load
import Handheld.Worker

/-!
# Sessions

One run of the program: from the words of the command line to an exit code, the
two outputs and the lines of the journal. The journal is opened once the
settings are known; before that only the outputs tell what is wrong. From then
on it is one of the files on the disk, and images can be read from it.
-/

namespace Handheld.Session

structure Transcript where
  code : Nat
  output : String := ""
  errors : String := ""
  journal : Option (List String) := none

/-- What a session can read: the disk as it is at first, and as it is while the
journal holds the given lines. -/
structure Files where
  before : Disk
  during : List String → Disk

inductive Refusal where
  | usage (e : UsageError)
  | setup (e : SetupError)

def settings (disk : Disk) (words : List String) : Except Refusal Settings :=
  match Arguments.ofWords words with
  | .error e => .error (.usage e)
  | .ok a =>
    match Settings.ofArguments Settings.ofText disk a with
    | .error e => .error (.setup e)
    | .ok s => .ok s

def errorLine (message : String) : String := "Error: " ++ message ++ "\n"

/-- Asking for help is answered; other words that are not understood are not. -/
def Refusal.transcript : Refusal → Transcript
  | .usage .help => { code := 0, output := Arguments.help }
  | .usage e => { code := 2, errors := "error: " ++ e.message ++ "\n" }
  | .setup e => { code := 1, errors := errorLine e.message }

def greeting : Journal.Record := ⟨.info, .program, "=== 啟動 Game Boy 模擬器 ==="⟩

/-- Said last before the worker starts, or instead of starting it. A session that
breaks off says no more. -/
def outcomeRemarks : Except SetupError Console → List Journal.Record
  | .ok _ => [Worker.started]
  | .error .noRoom => []
  | .error e => [⟨.error, .program, e.message⟩]

def givenUp : SetupError → Nat × String
  | .noRoom => (101, SetupError.noRoom.message ++ "\n")
  | e => (1, errorLine e.message)

def worker (s : Settings) (c : Console) : Worker := { console := c, limit := s.maxSteps }

def closing (e : Worker.Ending) : String × String :=
  match e.report? with
  | some report => (report.text ++ "\n", report.json ++ "\n")
  | none => ("", "")

def threshold (s : Settings) : Journal.Level := .threshold s.debugging

def load (files : Files) (s : Settings) : Except SetupError Console × List Journal.Record :=
  let disk (said : List Journal.Record) := files.during (Journal.lines (threshold s) said)
  let (console, said) := (Console.loading s).run disk [greeting]
  (console, said ++ outcomeRemarks console)

def transcript (s : Settings) (said : List Journal.Record) (code : Nat) (errors output : String) :
    Transcript where
  code := code
  output := output
  errors := Journal.fileText (Journal.shownLines (threshold s) said) ++ errors
  journal := some (Journal.lines (threshold s) said)

/-- The session for settings, if its worker ends within the given number of turns. -/
def runSettings (turns : Nat) (files : Files) (s : Settings) : Option Transcript :=
  match load files s with
  | (.error e, said) => some (transcript s said (givenUp e).1 (givenUp e).2 "")
  | (.ok c, said) =>
    match (worker s c).run turns with
    | ⟨none, _, _⟩ => none
    | ⟨some e, _, remarks⟩ =>
      let (errors, output) := closing e
      some (transcript s (said ++ remarks ++ [e.remark]) e.exitCode errors output)

def run (turns : Nat) (files : Files) (words : List String) : Option Transcript :=
  match settings files.before words with
  | .error e => some e.transcript
  | .ok s => runSettings turns files s

end Handheld.Session
