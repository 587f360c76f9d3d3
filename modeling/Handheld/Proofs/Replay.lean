import Handheld.Proofs.Laws

/-!
# The accesses tell all that happens to the bus

Replaying the completed accesses of an action on the bus it started from gives
the bus it ended with, whether it succeeded or faulted. `step_replays` says so
of a step of the processor: nothing an instruction does reaches the bus in any
other way.
-/

namespace Handheld

namespace Bus

variable {β : Type} [Bus β]

def replay (b : β) : List Access → Option β
  | [] => some b
  | .read address :: as => if (read? b address).isSome then replay b as else none
  | .write address v :: as => (write? b address v).bind fun b' => replay b' as

@[simp] theorem replay_nil (b : β) : replay b [] = some b := rfl

theorem replay_append (b : β) (as bs : List Access) :
    replay b (as ++ bs) = (replay b as).bind fun b' => replay b' bs := by
  induction as generalizing b with
  | nil => rfl
  | cons a as ih =>
    cases a with
    | read address =>
      simp only [List.cons_append, replay, ih]
      split <;> rfl
    | write address v =>
      simp only [List.cons_append, replay, ih]
      cases write? b address v <;> rfl

/-- Replaying is the strictest law there is: it entails every other one. -/
theorem replay_law {R : β → List Access → β → Prop} (hR : Law R) {b b' : β} {as : List Access}
    (h : replay b as = some b') : R b as b' := by
  induction as generalizing b with
  | nil => exact Option.some.inj h ▸ hR.refl b
  | cons a as ih =>
    cases a with
    | read address =>
      simp only [replay] at h
      split at h
      · rename_i hr
        exact hR.trans (hR.reads hr) (ih h)
      · cases h
    | write address v =>
      simp only [replay, write?] at h
      split at h
      · rename_i hw
        exact hR.trans (hR.writes hw) (ih h)
      · cases h

theorem replayed : Law fun (b : β) as b' => replay b as = some b' where
  refl _ := rfl
  trans h h' := by rw [replay_append, h, Option.bind_some, h']
  reads h := by simp [replay, h]
  writes h := by simp [replay, write?, h]

end Bus

namespace Processor

variable {α β : Type} [Bus β]

/-- The accesses of an action, replayed, give the bus it leaves. -/
def Replays (x : Action (Processor β) α) : Prop :=
  x.Obeys fun p as q => Bus.replay p.bus as = some q.bus

theorem step_replays : Replays (step : Action (Processor β) Unit) :=
  (busLaw Bus.replayed).step

end Processor

end Handheld
