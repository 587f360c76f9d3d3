import Handheld.Worker

/-!
# The runner

A worker in a thread of its own. It takes the lock on its console for one turn at a
time; between turns others look at the console, and at any moment the worker can be
asked to stop. What is only the worker's own, such as its count of steps, nobody else
can see, so a turn is one move. Looking whether it was asked to stop is another, and
so is sending its ending.
-/

namespace Handheld

inductive View where
  | report (r : Report)
  | frame (f : Frame)

inductive Runner.Phase where
  | polling
  /-- A turn, the worker having seen whether it was asked to stop. -/
  | acting (stop : Bool)
  | sending (e : Worker.Ending)
  | ended

structure Runner where
  worker : Worker
  phase : Runner.Phase := .polling
  stopAsked : Bool := false
  /-- What others saw, oldest first. -/
  views : List View := []
  sent : List Worker.Ending := []

namespace Runner

inductive Move where
  | work
  | snapshot
  | render
  | stop
  deriving DecidableEq, Repr

def work (r : Runner) : Runner :=
  match r.phase with
  | .polling => { r with phase := .acting r.stopAsked }
  | .acting stop =>
    match r.worker.turn stop with
    | ⟨none, w, _⟩ => { r with worker := w, phase := .polling }
    | ⟨some e, w, _⟩ => { r with worker := w, phase := .sending e }
  | .sending e => { r with phase := .ended, sent := r.sent ++ [e] }
  | .ended => r

def move (r : Runner) : Move → Runner
  | .work => r.work
  | .snapshot => { r with views := r.views ++ [.report r.worker.console.report] }
  | .render => { r with views := r.views ++ [.frame r.worker.console.frame] }
  | .stop => { r with stopAsked := true }

def after (moves : List Move) (r : Runner) : Runner := moves.foldl move r

def spawn (c : Console) (limit : Option Nat) : Runner := { worker := { console := c, limit } }

def exitCode? (r : Runner) : Option Nat := r.sent.head?.map (·.exitCode)

end Runner

end Handheld
