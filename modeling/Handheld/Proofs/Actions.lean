import Handheld.Action

/-!
# Laws of actions

`Triple` says what an action does from a state on: how it succeeds, and how it
faults. `Obeys` says what holds of an action whatever its outcome, as a relation
between the state before, the accesses it completed and the state after. Both
follow the binds of an action, so a fact about a long action is put together
from facts about its parts.
-/

namespace Handheld

namespace Event

@[simp] theorem accesses_nil : accesses [] = [] := rfl

@[simp] theorem accesses_append (t u : List Event) :
    accesses (t ++ u) = accesses t ++ accesses u := by
  simp [accesses]

@[simp] theorem accesses_access (a : Access) (t : List Event) :
    accesses (.access a :: t) = a :: accesses t := rfl

@[simp] theorem accesses_remark (r : Journal.Record) (t : List Event) :
    accesses (.remark r :: t) = accesses t := rfl

@[simp] theorem accesses_map_remark (rs : List Journal.Record) :
    accesses (rs.map .remark) = [] := by
  simp [accesses]

end Event

namespace Action

variable {σ α β γ : Type}

theorem run_attempt {x : Action σ α} {s s' : σ} {r : Except Fault α} {t : List Event}
    (h : x.run s = ⟨r, s', t⟩) : (attempt x).run s = ⟨.ok r, s', t⟩ := by
  simp only [run] at h ⊢
  simp [attempt, h]

theorem run_bind_gets (f : σ → α) (g : α → Action σ β) (s : σ) :
    (gets f >>= g).run s = (g (f s)).run s := rfl

theorem run_bind_modify (f : σ → σ) (g : Unit → Action σ β) (s : σ) :
    (modify f >>= g).run s = (g ()).run (f s) := rfl

protected theorem pure_bind (a : α) (f : α → Action σ β) : pure a >>= f = f a := by
  funext s
  show (pure a >>= f).run s = (f a).run s
  rw [run_bind_ok (run_pure a s), List.nil_append]

protected theorem bind_pure (x : Action σ α) : x >>= pure = x := by
  funext s
  show (x >>= pure).run s = x.run s
  rcases h : x.run s with ⟨e | a, s', t⟩
  · rw [run_bind_error h]
  · rw [run_bind_ok h, run_pure, List.append_nil]

protected theorem bind_assoc (x : Action σ α) (f : α → Action σ β) (g : β → Action σ γ) :
    x >>= f >>= g = x >>= fun a => f a >>= g := by
  funext s
  show (x >>= f >>= g).run s = (x >>= fun a => f a >>= g).run s
  rcases h : x.run s with ⟨e | a, s', t⟩
  · rw [run_bind_error h, run_bind_error (run_bind_error h)]
  · have hxf := run_bind_ok (f := f) h
    rw [run_bind_ok h]
    rcases hf : (f a).run s' with ⟨e | b, s'', u⟩
    · rw [hf] at hxf
      rw [run_bind_error hf, run_bind_error hxf]
    · rw [hf] at hxf
      rw [run_bind_ok hf, run_bind_ok hxf, List.append_assoc]

instance : LawfulMonad (Action σ) :=
  .mk' (Action σ) Action.bind_pure Action.pure_bind Action.bind_assoc

theorem result_bind_eq_ok {x : Action σ α} {f : α → Action σ β} {s : σ} {b : β}
    (h : ((x >>= f).run s).result = .ok b) :
    ∃ a, (x.run s).result = .ok a ∧ ((f a).run (x.run s).state).result = .ok b := by
  rcases hx : x.run s with ⟨e | a, s', t⟩
  · rw [run_bind_error hx] at h
    cases h
  · rw [run_bind_ok hx] at h
    exact ⟨a, rfl, h⟩

-- ---------------------------------------------------------------------------
-- Triples
-- ---------------------------------------------------------------------------

/-- From `s` on, the action succeeds as `Q` says or faults as `E` says. -/
def Triple (x : Action σ α) (s : σ) (Q : α → σ → List Event → Prop)
    (E : Fault → σ → List Event → Prop) : Prop :=
  match x.run s with
  | ⟨.ok a, s', t⟩ => Q a s' t
  | ⟨.error e, s', t⟩ => E e s' t

section
variable {x : Action σ α} {f : α → Action σ β} {s s' : σ} {t : List Event}
  {P : α → σ → List Event → Prop} {Q : β → σ → List Event → Prop}
  {F E : Fault → σ → List Event → Prop}

theorem Triple.of_run {a : α} (h : x.run s = ⟨.ok a, s', t⟩) (hP : P a s' t) :
    Triple x s P F := by
  unfold Triple
  rw [h]
  exact hP

theorem Triple.of_run_error {e : Fault} (h : x.run s = ⟨.error e, s', t⟩) (hF : F e s' t) :
    Triple x s P F := by
  unfold Triple
  rw [h]
  exact hF

theorem Triple.ok {a : α} (hx : Triple x s P F) (h : x.run s = ⟨.ok a, s', t⟩) : P a s' t := by
  unfold Triple at hx
  rwa [h] at hx

theorem Triple.error {e : Fault} (hx : Triple x s P F) (h : x.run s = ⟨.error e, s', t⟩) :
    F e s' t := by
  unfold Triple at hx
  rwa [h] at hx

theorem Triple.of_result {a : α} (hx : Triple x s P F) (h : (x.run s).result = .ok a) :
    P a (x.run s).state (x.run s).trail :=
  hx.ok (by rw [← h])

theorem Triple.of_result_error {e : Fault} (hx : Triple x s P F)
    (h : (x.run s).result = .error e) : F e (x.run s).state (x.run s).trail :=
  hx.error (by rw [← h])

theorem Triple.mono {P' : α → σ → List Event → Prop} {F' : Fault → σ → List Event → Prop}
    (hx : Triple x s P F) (hP : ∀ a s' t, P a s' t → P' a s' t)
    (hF : ∀ e s' t, F e s' t → F' e s' t) : Triple x s P' F' := by
  unfold Triple at hx ⊢
  split at hx
  · exact hP _ _ _ hx
  · exact hF _ _ _ hx

theorem Triple.bind_of_run {a : α} (h : x.run s = ⟨.ok a, s', t⟩)
    (hf : Triple (f a) s' (fun b s'' u => Q b s'' (t ++ u)) fun e s'' u => E e s'' (t ++ u)) :
    Triple (x >>= f) s Q E := by
  have hrun := run_bind_ok (f := f) h
  rcases hfr : (f a).run s' with ⟨e | b, s'', u⟩
  · rw [hfr] at hrun
    exact Triple.of_run_error hrun (hf.error hfr)
  · rw [hfr] at hrun
    exact Triple.of_run hrun (hf.ok hfr)

theorem Triple.bind (hx : Triple x s P F)
    (hf : ∀ a s' t, P a s' t →
      Triple (f a) s' (fun b s'' u => Q b s'' (t ++ u)) fun e s'' u => E e s'' (t ++ u))
    (hF : ∀ e s' t, F e s' t → E e s' t) : Triple (x >>= f) s Q E := by
  rcases h : x.run s with ⟨e | a, s', t⟩
  · exact Triple.of_run_error (run_bind_error h) (hF _ _ _ (hx.error h))
  · exact Triple.bind_of_run h (hf a s' t (hx.ok h))

/-- What an action promises of its faults is kept if a change of the state follows. -/
theorem Triple.bind_modify (hx : Triple x s (fun _ _ _ => True) F) (g : σ → σ) :
    Triple (x >>= fun _ => .modify g) s (fun _ _ _ => True) F :=
  Triple.bind hx (fun _ _ _ _ => Triple.of_run rfl trivial) fun _ _ _ h => h

end

-- ---------------------------------------------------------------------------
-- Laws
-- ---------------------------------------------------------------------------

/-- A relation between two states and the accesses on the way from the one to
the other that allows doing nothing, and doing one thing after another. -/
structure Chain (R : σ → List Access → σ → Prop) : Prop where
  refl (s : σ) : R s [] s
  trans {s s' s'' : σ} {as bs : List Access} : R s as s' → R s' bs s'' → R s (as ++ bs) s''

/-- The relation holds of the action, whether it succeeds or faults. -/
def Obeys (R : σ → List Access → σ → Prop) (x : Action σ α) : Prop :=
  ∀ s, R s (x.run s).accesses (x.run s).state

namespace Obeys

variable {R : σ → List Access → σ → Prop} (hR : Chain R)

include hR

theorem pure (a : α) : Obeys R (Pure.pure a : Action σ α) := fun s => hR.refl s

theorem gets (f : σ → α) : Obeys R (Action.gets f) := fun s => hR.refl s

theorem fault (e : Fault) : Obeys R (Action.fault e : Action σ α) := fun s => hR.refl s

theorem bind {x : Action σ α} {f : α → Action σ β} (hx : Obeys R x) (hf : ∀ a, Obeys R (f a)) :
    Obeys R (x >>= f) := by
  intro s
  have h₁ := hx s
  rcases h : x.run s with ⟨e | a, s', t⟩
  · rw [h] at h₁
    rw [run_bind_error h]
    exact h₁
  · rw [h] at h₁
    rw [run_bind_ok h]
    simp only [Outcome.accesses, Event.accesses_append] at h₁ ⊢
    exact hR.trans h₁ (hf a s')

omit hR in
theorem attempt {x : Action σ α} (hx : Obeys R x) : Obeys R (Action.attempt x) := hx

end Obeys

end Action

end Handheld
