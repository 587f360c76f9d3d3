import Handheld.Session

/-!
# The program

Reads files as the session comes to need them, and writes what it has to say as
it goes on. The journal is appended to a file; if that cannot be opened, the
session goes on without it.
-/

namespace Handheld.Program

/-- The code of an error, which may be negated. -/
def isCode (n code : UInt32) : Bool := code = n || code = 0 - n

def otherError (code : UInt32) (text : String) : ReadError :=
  .other s!"{text} (os error {(min code (0 - code)).toNat})"

def readError : IO.Error → ReadError
  | .noFileOrDirectory .. => .missing
  | .inappropriateType _ code text =>
    if isCode 20 code then .notDirectory
    else if isCode 21 code then .isDirectory
    else otherError code text
  | .invalidArgument _ code text =>
    if isCode 36 code then .nameTooLong else otherError code text
  | .permissionDenied _ code text => otherError code text
  | e => .other (toString e)

def readPath (path : String) : IO (Except ReadError ByteArray) := do
  match Disk.refusal? path with
  | some e => pure (.error e)
  | none =>
    match ← (IO.FS.readBinFile path).toBaseIO with
    | .ok content => pure (.ok content)
    | .error e => pure (.error (readError e))

def readDisk (paths : List String) : IO Disk := do
  let files ← paths.mapM fun (path : String) => do pure (path, ← readPath path)
  pure (Disk.ofList files)

def openJournal : IO (Option IO.FS.Handle) := do
  let opened ← (do
    IO.FS.createDirAll Journal.directory
    IO.FS.Handle.mk Journal.path .append : IO IO.FS.Handle).toBaseIO
  pure opened.toOption

def say (s : Settings) (journal : Option IO.FS.Handle) (said : List Journal.Record) : IO Unit := do
  IO.eprint (Journal.fileText (Journal.shownLines (Session.threshold s) said))
  match journal with
  | some h =>
    h.putStr (Journal.fileText (Journal.lines (Session.threshold s) said))
    h.flush
  | none => pure ()

def batch (s : Settings) : Nat := if s.pause = 0 then 10000 else 1

def load (s : Settings) (journal : Option IO.FS.Handle) :
    Console.Loading → IO (Except SetupError Console)
  | .say r rest => do
    say s journal [r]
    load s journal rest
  | .read path rest => do
    match ← readPath path with
    | .ok image => load s journal (rest image)
    | .error reason => pure (.error (.image path reason))
  | .done c => pure (.ok c)
  | .refused e => pure (.error e)

partial def work (s : Settings) (journal : Option IO.FS.Handle) (w : Worker) :
    IO Worker.Ending := do
  match w.run (batch s) with
  | ⟨some e, _, remarks⟩ =>
    say s journal (remarks ++ [e.remark])
    pure e
  | ⟨none, w, remarks⟩ =>
    say s journal remarks
    IO.sleep (s.pause / 1000).toUInt32
    work s journal w

def finish (t : Session.Transcript) : IO UInt32 := do
  IO.eprint t.errors
  IO.print t.output
  pure t.code.toUInt32

def runSettings (s : Settings) : IO UInt32 := do
  let journal ← openJournal
  say s journal [Session.greeting]
  let console ← load s journal (Console.loading s)
  say s journal (Session.outcomeRemarks console)
  match console with
  | .error e =>
    let (code, errors) := Session.givenUp e
    finish { code, errors }
  | .ok c =>
    let e ← work s journal (Session.worker s c)
    let (errors, output) := Session.closing e
    finish { code := e.exitCode, errors, output }

def settingsPaths (words : List String) : List String :=
  match Arguments.ofWords words with
  | .ok a => a.settings.toList
  | .error _ => []

end Handheld.Program

def main (words : List String) : IO UInt32 := do
  let disk ← Handheld.Program.readDisk (Handheld.Program.settingsPaths words)
  match Handheld.Session.settings disk words with
  | .error e => Handheld.Program.finish e.transcript
  | .ok s => Handheld.Program.runSettings s
