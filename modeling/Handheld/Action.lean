import Handheld.Fault
import Handheld.Journal

/-!
# Actions

An action reads and changes a state, and may fault. A fault does not undo what
was done before it: every outcome has a state, and the trail of what the action
did that others can see. The trail is only written, never read, so it cannot
influence what happens.
-/

namespace Handheld

inductive Access where
  | read (address : UInt16)
  | write (address : UInt16) (value : UInt8)
  deriving DecidableEq, Repr

/-- An access to the bus that was completed, or a remark for the journal. -/
inductive Event where
  | access (a : Access)
  | remark (r : Journal.Record)
  deriving DecidableEq, Repr

namespace Event

def remarks (trail : List Event) : List Journal.Record :=
  trail.filterMap fun
    | .access _ => none
    | .remark r => some r

def accesses (trail : List Event) : List Access :=
  trail.filterMap fun
    | .access a => some a
    | .remark _ => none

end Event

structure Outcome (σ α : Type) where
  result : Except Fault α
  state : σ
  trail : List Event

namespace Outcome

def accesses {σ α : Type} (o : Outcome σ α) : List Access := Event.accesses o.trail

def remarks {σ α : Type} (o : Outcome σ α) : List Journal.Record := Event.remarks o.trail

end Outcome

def Action (σ α : Type) := σ → Outcome σ α

namespace Action

variable {σ τ α β : Type}

def run (x : Action σ α) (s : σ) : Outcome σ α := x s

instance : Monad (Action σ) where
  pure a := fun s => ⟨.ok a, s, []⟩
  bind x f := fun s =>
    match x s with
    | ⟨.ok a, s', t⟩ =>
      match f a s' with
      | ⟨r, s'', t'⟩ => ⟨r, s'', t ++ t'⟩
    | ⟨.error e, s', t⟩ => ⟨.error e, s', t⟩

theorem run_pure (a : α) (s : σ) : (pure a : Action σ α).run s = ⟨.ok a, s, []⟩ := rfl

theorem run_bind_ok {x : Action σ α} {f : α → Action σ β} {s s' : σ} {a : α} {t : List Event}
    (h : x.run s = ⟨.ok a, s', t⟩) :
    (x >>= f).run s =
      ⟨((f a).run s').result, ((f a).run s').state, t ++ ((f a).run s').trail⟩ := by
  simp only [run] at h ⊢
  simp [bind, h]

theorem run_bind_error {x : Action σ α} {f : α → Action σ β} {s s' : σ} {e : Fault}
    {t : List Event} (h : x.run s = ⟨.error e, s', t⟩) :
    (x >>= f).run s = ⟨.error e, s', t⟩ := by
  simp only [run] at h ⊢
  simp [bind, h]

def gets (f : σ → α) : Action σ α := fun s =>
  let a := f s
  ⟨.ok a, s, []⟩

def modify (f : σ → σ) : Action σ Unit := fun s => ⟨.ok (), f s, []⟩

def fault (e : Fault) : Action σ α := fun s => ⟨.error e, s, []⟩

def note (r : Journal.Record) : Action σ Unit := fun s => ⟨.ok (), s, [.remark r]⟩

/-- The action, with its fault turned into a result. -/
def attempt (x : Action σ α) : Action σ (Except Fault α) := fun s =>
  match x s with
  | ⟨r, s', t⟩ => ⟨.ok r, s', t⟩

/-- Repeats an action, at most the given number of times and only while the
total of its results is acceptable, from a total and a reversed trail on. -/
def accumulateFrom (x : Action σ UInt64) (goOn : UInt64 → Bool) :
    Nat → UInt64 → List Event → Action σ UInt64
  | 0, total, trail => fun s => ⟨.ok total, s, trail.reverse⟩
  | n + 1, total, trail => fun s =>
    if goOn total then
      match x s with
      | ⟨.ok a, s', t⟩ => accumulateFrom x goOn n (total + a) (t.reverseAux trail) s'
      | ⟨.error e, s', t⟩ => ⟨.error e, s', (t.reverseAux trail).reverse⟩
    else ⟨.ok total, s, trail.reverse⟩

def accumulate (x : Action σ UInt64) (goOn : UInt64 → Bool) (limit : Nat) : Action σ UInt64 :=
  accumulateFrom x goOn limit 0 []

end Action

end Handheld
