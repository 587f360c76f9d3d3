import Handheld.Proofs.Actions

/-!
# Actions performed again and again

`after` is the state an action leaves when it is performed a number of times,
whether it faults or not, and `traffic` is what it did on the bus meanwhile. The
loops that stop at a fault or at a total go through these very states.
-/

namespace Handheld.Action

variable {σ α : Type}

/-- The state after the action was performed a number of times. A fault does not
keep it from being performed again. -/
def after (x : Action σ α) : Nat → σ → σ
  | 0, s => s
  | n + 1, s => x.after n (x.run s).state

def traffic (x : Action σ α) : Nat → σ → List Access
  | 0, _ => []
  | n + 1, s => (x.run s).accesses ++ x.traffic n (x.run s).state

theorem after_add (x : Action σ α) (m n : Nat) (s : σ) :
    x.after (m + n) s = x.after n (x.after m s) := by
  induction m generalizing s with
  | zero => rw [Nat.zero_add, after]
  | succ m ih => rw [Nat.add_right_comm, after, ih, after]

theorem traffic_add (x : Action σ α) (m n : Nat) (s : σ) :
    x.traffic (m + n) s = x.traffic m s ++ x.traffic n (x.after m s) := by
  induction m generalizing s with
  | zero => rw [Nat.zero_add, traffic, after, List.nil_append]
  | succ m ih => rw [Nat.add_right_comm, traffic, ih, traffic, after, List.append_assoc]

theorem after_succ (x : Action σ α) (n : Nat) (s : σ) :
    x.after (n + 1) s = (x.run (x.after n s)).state := after_add x n 1 s

theorem traffic_succ (x : Action σ α) (n : Nat) (s : σ) :
    x.traffic (n + 1) s = x.traffic n s ++ (x.run (x.after n s)).accesses := by
  rw [traffic_add, traffic, traffic, List.append_nil]

def Smooth (x : Action σ α) (n : Nat) (s : σ) : Prop :=
  ∀ k < n, ∃ a, (x.run (x.after k s)).result = .ok a

theorem Smooth.zero (x : Action σ α) (s : σ) : x.Smooth 0 s := nofun

theorem Smooth.succ {x : Action σ α} {n : Nat} {s : σ} {a : α} (h : x.Smooth n s)
    (hx : (x.run (x.after n s)).result = .ok a) : x.Smooth (n + 1) s := by
  intro k hk
  rcases Nat.lt_succ_iff_lt_or_eq.mp hk with hlt | rfl
  · exact h k hlt
  · exact ⟨a, hx⟩

theorem Smooth.tail {x : Action σ α} {n : Nat} {s : σ} (h : x.Smooth (n + 1) s) :
    x.Smooth n (x.run s).state :=
  fun k hk => h (k + 1) (Nat.succ_lt_succ hk)

/-- The action faults, and the state is one that it leaves as it is. -/
def Stuck (x : Action σ α) (e : Fault) (s : σ) : Prop :=
  (x.run s).result = .error e ∧ (x.run s).state = s

theorem Stuck.after {x : Action σ α} {e : Fault} {s : σ} (h : x.Stuck e s) (n : Nat) :
    x.after n s = s := by
  induction n with
  | zero => rfl
  | succ n ih => rw [Action.after, h.2, ih]

theorem Obeys.after {R : σ → List Access → σ → Prop} (hR : Chain R) {x : Action σ α}
    (hx : Obeys R x) (n : Nat) (s : σ) : R s (x.traffic n s) (x.after n s) := by
  induction n generalizing s with
  | zero => exact hR.refl s
  | succ n ih => exact hR.trans (hx s) (ih (x.run s).state)

-- ---------------------------------------------------------------------------
-- Loops
-- ---------------------------------------------------------------------------

section
variable {x : Action σ UInt64} {goOn : UInt64 → Bool} {total a : UInt64} {trail t : List Event}
  {s s' : σ} {n : Nat}

theorem accumulateFrom_run_ok (hgo : goOn total = true) (h : x.run s = ⟨.ok a, s', t⟩) :
    (accumulateFrom x goOn (n + 1) total trail).run s =
      (accumulateFrom x goOn n (total + a) (t.reverseAux trail)).run s' := by
  simp only [run] at h ⊢
  simp [accumulateFrom, hgo, h]

theorem accumulateFrom_run_error {e : Fault} (hgo : goOn total = true)
    (h : x.run s = ⟨.error e, s', t⟩) :
    (accumulateFrom x goOn (n + 1) total trail).run s =
      ⟨.error e, s', (t.reverseAux trail).reverse⟩ := by
  simp only [run] at h ⊢
  simp [accumulateFrom, hgo, h]

theorem accumulateFrom_run_stop (hgo : ¬goOn total = true) :
    (accumulateFrom x goOn (n + 1) total trail).run s = ⟨.ok total, s, trail.reverse⟩ := by
  simp [run, accumulateFrom, hgo]

end

variable {x : Action σ UInt64} {goOn : UInt64 → Bool}

theorem accumulateFrom_after (n : Nat) (total : UInt64) (trail : List Event) (s : σ) :
    ∃ k, ((accumulateFrom x goOn n total trail).run s).state = x.after k s ∧
      ((accumulateFrom x goOn n total trail).run s).accesses =
        Event.accesses trail.reverse ++ x.traffic k s := by
  -- the trail that is carried along is reversed, so the induction is over all trails
  induction n generalizing total trail s with
  | zero => exact ⟨0, rfl, (List.append_nil _).symm⟩
  | succ n ih =>
    by_cases hgo : goOn total = true
    · rcases hrun : x.run s with ⟨e | a, s', t⟩
      · rw [accumulateFrom_run_error hgo hrun]
        refine ⟨1, ?_, ?_⟩
        · rw [Action.after, hrun, Action.after]
        · simp [traffic, hrun, List.reverseAux_eq, Outcome.accesses]
      · rw [accumulateFrom_run_ok hgo hrun]
        obtain ⟨k, hs, ht⟩ := ih (total + a) (t.reverseAux trail) s'
        refine ⟨k + 1, ?_, ?_⟩
        · rw [Action.after, hrun, hs]
        · rw [traffic, hrun, ht]
          simp [List.reverseAux_eq, Outcome.accesses]
    · rw [accumulateFrom_run_stop hgo]
      exact ⟨0, rfl, (List.append_nil _).symm⟩

/-- A loop performs its action a number of times and does nothing else. -/
theorem accumulate_after (limit : Nat) (s : σ) :
    ∃ k, ((accumulate x goOn limit).run s).state = x.after k s ∧
      ((accumulate x goOn limit).run s).accesses = x.traffic k s :=
  accumulateFrom_after limit 0 [] s

theorem Obeys.accumulate {R : σ → List Access → σ → Prop} (hR : Chain R) (hx : Obeys R x)
    (goOn : UInt64 → Bool) (limit : Nat) : Obeys R (Action.accumulate x goOn limit) := by
  intro s
  obtain ⟨k, hs, ht⟩ : ∃ k, ((Action.accumulate x goOn limit).run s).state = x.after k s ∧ _ :=
    accumulate_after limit s
  rw [hs, ht]
  exact hx.after hR k s

theorem Stuck.accumulate {s : σ} {e : Fault} (h : x.Stuck e s) (hgo : goOn 0 = true)
    {limit : Nat} (hlimit : 0 < limit) : (Action.accumulate x goOn limit).Stuck e s := by
  obtain ⟨limit, rfl⟩ := Nat.exists_eq_succ_of_ne_zero (Nat.ne_of_gt hlimit)
  rcases hrun : x.run s with ⟨r, s', t⟩
  obtain ⟨rfl, rfl⟩ : r = .error e ∧ s' = s := by simpa only [Stuck, hrun] using h
  unfold Stuck
  rw [Action.accumulate, accumulateFrom_run_error hgo hrun]
  exact ⟨rfl, rfl⟩

/-- Nothing but its limit ends a loop that always goes on and whose action succeeds. -/
theorem accumulateFrom_smooth {n : Nat} {s : σ} (h : x.Smooth n s) (total : UInt64)
    (trail : List Event) :
    (∃ sum, ((accumulateFrom x (fun _ => true) n total trail).run s).result = .ok sum) ∧
      ((accumulateFrom x (fun _ => true) n total trail).run s).state = x.after n s := by
  induction n generalizing total trail s with
  | zero => exact ⟨⟨total, rfl⟩, rfl⟩
  | succ n ih =>
    obtain ⟨a, ha⟩ := h 0 n.succ_pos
    rcases hrun : x.run s with ⟨r, s', t⟩
    obtain rfl : r = .ok a := by rwa [Action.after, hrun] at ha
    have htail := h.tail
    rw [hrun] at htail
    rw [accumulateFrom_run_ok rfl hrun, Action.after, hrun]
    exact ih htail (total + a) (t.reverseAux trail)

theorem accumulateFrom_fault {k n : Nat} {s : σ} {e : Fault} (hk : k < n) (h : x.Smooth k s)
    (he : (x.run (x.after k s)).result = .error e) (total : UInt64) (trail : List Event) :
    ((accumulateFrom x (fun _ => true) n total trail).run s).result = .error e ∧
      ((accumulateFrom x (fun _ => true) n total trail).run s).state = x.after (k + 1) s := by
  obtain ⟨n, rfl⟩ := Nat.exists_eq_succ_of_ne_zero (Nat.ne_of_gt (Nat.zero_lt_of_lt hk))
  induction k generalizing n total trail s with
  | zero =>
    rcases hrun : x.run s with ⟨r, s', t⟩
    obtain rfl : r = .error e := by rwa [Action.after, hrun] at he
    rw [accumulateFrom_run_error rfl hrun, Action.after, hrun]
    exact ⟨rfl, rfl⟩
  | succ k ih =>
    obtain ⟨a, ha⟩ := h 0 k.succ_pos
    rcases hrun : x.run s with ⟨r, s', t⟩
    obtain rfl : r = .ok a := by rwa [Action.after, hrun] at ha
    have htail := h.tail
    rw [hrun] at htail
    rw [Action.after, hrun] at he
    rw [accumulateFrom_run_ok rfl hrun, Action.after, hrun]
    have hk : k < n := Nat.lt_of_succ_lt_succ hk
    obtain ⟨n, rfl⟩ := Nat.exists_eq_succ_of_ne_zero (Nat.ne_of_gt (Nat.zero_lt_of_lt hk))
    exact ih htail he (total + a) (t.reverseAux trail) n hk

theorem accumulateFrom_gain (gauge : σ → UInt64)
    (hx : ∀ s a, (x.run s).result = .ok a → gauge (x.run s).state = gauge s + a) (n : Nat)
    (total : UInt64) (trail : List Event) (s : σ) {sum : UInt64}
    (h : ((accumulateFrom x goOn n total trail).run s).result = .ok sum) :
    gauge ((accumulateFrom x goOn n total trail).run s).state + total = gauge s + sum := by
  induction n generalizing total trail s with
  | zero =>
    obtain rfl : total = sum := Except.ok.inj h
    rfl
  | succ n ih =>
    by_cases hgo : goOn total = true
    · rcases hrun : x.run s with ⟨e | a, s', t⟩
      · rw [accumulateFrom_run_error hgo hrun] at h
        cases h
      · rw [accumulateFrom_run_ok hgo hrun] at h ⊢
        have hgain := hx s a (by rw [hrun])
        rw [hrun] at hgain
        have hrest := ih (total + a) (t.reverseAux trail) s' h
        apply UInt64.add_left_inj a |>.mp
        calc gauge _ + total + a
          _ = gauge _ + (total + a) := UInt64.add_assoc _ _ _
          _ = gauge s + a + sum := by rw [hrest, hgain]
          _ = gauge s + sum + a := by rw [UInt64.add_assoc, UInt64.add_comm a, UInt64.add_assoc]
    · rw [accumulateFrom_run_stop hgo] at h ⊢
      obtain rfl : total = sum := Except.ok.inj h
      rfl

/-- If each round adds its result to a gauge, then a loop adds its total. -/
theorem accumulate_gain (gauge : σ → UInt64)
    (hx : ∀ s a, (x.run s).result = .ok a → gauge (x.run s).state = gauge s + a) (limit : Nat)
    (s : σ) {sum : UInt64} (h : ((accumulate x goOn limit).run s).result = .ok sum) :
    gauge ((accumulate x goOn limit).run s).state = gauge s + sum := by
  have hgain := accumulateFrom_gain gauge hx limit 0 [] s h
  rwa [UInt64.add_zero] at hgain

-- ---------------------------------------------------------------------------
-- Rounds
-- ---------------------------------------------------------------------------

/-- A loop in which the actions just follow one another: at most so many rounds, from a
total on. -/
def rounds (x : Action σ UInt64) (goOn : UInt64 → Bool) : Nat → UInt64 → Action σ UInt64
  | 0, total => pure total
  | n + 1, total => if goOn total then x >>= fun a => rounds x goOn n (total + a) else pure total

theorem accumulateFrom_run (n : Nat) (total : UInt64) (trail : List Event) (s : σ) :
    (accumulateFrom x goOn n total trail).run s =
      ⟨((rounds x goOn n total).run s).result, ((rounds x goOn n total).run s).state,
        trail.reverse ++ ((rounds x goOn n total).run s).trail⟩ := by
  induction n generalizing total trail s with
  | zero => simp [accumulateFrom, rounds, run, Pure.pure]
  | succ n ih =>
    by_cases hgo : goOn total = true
    · rw [rounds, if_pos hgo]
      rcases hrun : x.run s with ⟨e | a, s', t⟩
      · rw [accumulateFrom_run_error hgo hrun, run_bind_error hrun]
        simp [List.reverseAux_eq]
      · rw [accumulateFrom_run_ok hgo hrun, run_bind_ok hrun, ih]
        simp [List.reverseAux_eq]
    · rw [rounds, if_neg hgo, accumulateFrom_run_stop hgo, run_pure, List.append_nil]

theorem accumulate_eq_rounds (n : Nat) : accumulate x goOn n = rounds x goOn n 0 :=
  funext fun s => accumulateFrom_run n 0 [] s

def laps (x : Action σ UInt64) (n : Nat) (total : UInt64) : Action σ UInt64 :=
  rounds x (fun _ => true) n total

theorem laps_zero (total : UInt64) : laps x 0 total = pure total := rfl

theorem laps_succ (n : Nat) (total : UInt64) :
    laps x (n + 1) total = x >>= fun a => laps x n (total + a) := rfl

theorem laps_add (m n : Nat) (total : UInt64) :
    laps x (m + n) total = laps x m total >>= laps x n := by
  induction m generalizing total with
  | zero => rw [Nat.zero_add, laps_zero, pure_bind]
  | succ m ih =>
    rw [Nat.add_right_comm]
    simp only [laps_succ, ih, bind_assoc]

theorem laps_from (n : Nat) (total : UInt64) :
    laps x n total = laps x n 0 >>= fun sum => pure (total + sum) := by
  induction n generalizing total with
  | zero => simp [laps_zero]
  | succ n ih =>
    simp only [laps_succ, bind_assoc]
    congr 1
    funext a
    rw [ih (total + a), ih (0 + a)]
    simp [UInt64.add_assoc]

/-- Up to some round a loop goes on, and is there like the one that only its limit ends.
Unless it has come to its own limit, it then stops or has faulted. -/
theorem rounds_ends (n : Nat) (total : UInt64) (s : σ) :
    ∃ k ≤ n, (rounds x goOn n total).run s = (laps x k total).run s ∧
      (∀ j < k, ∃ sum, ((laps x j total).run s).result = .ok sum ∧ goOn sum = true) ∧
      (k < n → ∀ sum, ((laps x k total).run s).result = .ok sum → goOn sum = false) := by
  induction n generalizing total s with
  | zero => exact ⟨0, Nat.le_refl 0, rfl, nofun, fun h => absurd h (Nat.lt_irrefl 0)⟩
  | succ n ih =>
    rw [rounds]
    by_cases hgo : goOn total = true
    · rw [if_pos hgo]
      rcases hrun : x.run s with ⟨e | a, s', t⟩
      · have hfirst : (laps x 1 total).run s = ⟨.error e, s', t⟩ := run_bind_error hrun
        refine ⟨1, by omega, ?_, ?_, ?_⟩
        · rw [hfirst, run_bind_error hrun]
        · intro j hj
          obtain rfl : j = 0 := by omega
          exact ⟨total, rfl, hgo⟩
        · intro _ sum h
          rw [hfirst] at h
          cases h
      · obtain ⟨k, hk, heq, hbefore, hend⟩ := ih (total + a) s'
        have hresult (j : Nat) : ((laps x (j + 1) total).run s).result =
            ((laps x j (total + a)).run s').result := by
          rw [laps_succ, run_bind_ok hrun]
        refine ⟨k + 1, by omega, ?_, ?_, ?_⟩
        · rw [laps_succ, run_bind_ok hrun, run_bind_ok hrun, heq]
        · intro j hj
          cases j with
          | zero => exact ⟨total, rfl, hgo⟩
          | succ j =>
            rw [hresult]
            exact hbefore j (by omega)
        · intro hlt sum h
          rw [hresult] at h
          exact hend (by omega) sum h
    · rw [if_neg hgo]
      refine ⟨0, Nat.zero_le _, rfl, nofun, ?_⟩
      intro _ sum h
      obtain rfl : total = sum := Except.ok.inj h
      exact Bool.eq_false_iff.mpr hgo

end Handheld.Action
