import Mathlib.Data.List.Forall2
import Handheld.Proofs.Repeating
import Handheld.Runner
import Handheld.Session

/-!
# A runner and those who look on

Whatever the order in which the threads of a runner move, its console goes through
the same states as one that is stepped by nobody else. What others see are these
states, one after the other, and the one ending that is sent tells which of them was
the last and why.
-/

namespace Handheld

open Console (step runSteps)

-- ---------------------------------------------------------------------------
-- Turns
-- ---------------------------------------------------------------------------

namespace Worker

inductive Turns (w : Worker) : Bool → Turn → Prop where
  | stopped : Turns w true ⟨some (.stopped w.steps), w, []⟩
  | limitReached {n : Nat} (hlimit : w.limit = some n) (hn : n ≤ w.steps) :
      Turns w false ⟨some (.limitReached w.steps w.console.report), w, []⟩
  | stepped {a : UInt64} {c : Console} {t : List Event}
      (hlimit : ∀ n, w.limit = some n → w.steps < n) (hrun : step.run w.console = ⟨.ok a, c, t⟩) :
      Turns w false ⟨none, ⟨c, w.limit, w.steps + 1⟩, Event.remarks t⟩
  | halted {e : Fault} {c : Console} {t : List Event}
      (hlimit : ∀ n, w.limit = some n → w.steps < n)
      (hrun : step.run w.console = ⟨.error e, c, t⟩) :
      Turns w false
        ⟨some (.halted w.steps e (c.report.withFault e)), ⟨c, w.limit, w.steps⟩, Event.remarks t⟩

theorem exhausted_iff {limit : Option Nat} {steps : Nat} :
    exhausted limit steps = true ↔ ∃ n, limit = some n ∧ n ≤ steps := by
  cases limit <;> simp [exhausted]

theorem turns_turn (stop : Bool) (w : Worker) : Turns w stop (w.turn stop) := by
  obtain ⟨c, limit, steps⟩ := w
  cases stop with
  | true => exact .stopped
  | false =>
    rw [turn, if_neg Bool.false_ne_true]
    split
    · rename_i hexhausted
      obtain ⟨n, hlimit, hn⟩ := exhausted_iff.mp hexhausted
      exact .limitReached hlimit hn
    · rename_i hexhausted
      have hlimit (n) (hn : limit = some n) : steps < n :=
        Nat.lt_of_not_le fun hle => hexhausted (exhausted_iff.mpr ⟨n, hn, hle⟩)
      split
      · exact .stepped hlimit ‹_›
      · exact .halted hlimit ‹_›

theorem exists_turns (stop : Bool) (w : Worker) :
    ∃ turn, w.turn stop = turn ∧ w.Turns stop turn := ⟨_, rfl, turns_turn stop w⟩

/-- What an ending says of a console that `k` steps were made of. -/
inductive Ending.Tells (c : Console) (limit : Option Nat) (asked : Bool) : Nat → Ending → Prop where
  | stopped {k : Nat} (hok : step.Smooth k c) (hasked : asked = true) :
      Tells c limit asked k (.stopped k)
  | limitReached {k : Nat} (hok : step.Smooth k c) (hlimit : limit = some k) :
      Tells c limit asked k (.limitReached k (step.after k c).report)
  | halted {k : Nat} {e : Fault} (hok : step.Smooth k c)
      (he : (step.run (step.after k c)).result = .error e) (hlimit : ∀ n, limit = some n → k < n) :
      Tells c limit asked (k + 1) (.halted k e ((step.after (k + 1) c).report.withFault e))

end Worker

-- ---------------------------------------------------------------------------
-- What a move preserves
-- ---------------------------------------------------------------------------

inductive View.Shows (c : Console) (k : Nat) : View → Prop where
  | report : Shows c k (.report (step.after k c).report)
  | frame : Shows c k (.frame (step.after k c).frame)

/-- The views are of a console as it is stepped, none of them after the `k`-th step. -/
def View.Follow (c : Console) (k : Nat) (views : List View) : Prop :=
  ∃ ks : List Nat, List.Forall₂ (View.Shows c) ks views ∧ ks.Pairwise (· ≤ ·) ∧ ∀ j ∈ ks, j ≤ k

theorem View.Follow.later {c : Console} {k l : Nat} {views : List View} (h : Follow c k views)
    (hk : k ≤ l) : Follow c l views := by
  obtain ⟨ks, hshows, hsorted, hle⟩ := h
  exact ⟨ks, hshows, hsorted, fun j hj => Nat.le_trans (hle j hj) hk⟩

theorem View.Follow.append {c : Console} {k : Nat} {views : List View} {v : View}
    (h : Follow c k views) (hv : Shows c k v) : Follow c k (views ++ [v]) := by
  obtain ⟨ks, hshows, hsorted, hle⟩ := h
  refine ⟨ks ++ [k], List.rel_append hshows (.cons hv .nil), ?_, ?_⟩
  · rw [List.pairwise_append]
    refine ⟨hsorted, List.pairwise_singleton _ _, ?_⟩
    intro j hj l hl
    rw [List.mem_singleton.mp hl]
    exact hle j hj
  · intro j hj
    rcases List.mem_append.mp hj with hj | hj
    · exact hle j hj
    · exact Nat.le_of_eq (List.mem_singleton.mp hj)

namespace Runner

/-- How far the worker is: it steps its console until it has an ending to tell, and
sends that once. -/
def Phase.Follows (c : Console) (w : Worker) (asked : Bool) (k : Nat) (sent : List Worker.Ending) :
    Phase → Prop
  | .polling => k = w.steps ∧ step.Smooth k c ∧ sent = []
  | .acting stop => k = w.steps ∧ step.Smooth k c ∧ sent = [] ∧ (stop = true → asked = true)
  | .sending e => e.Tells c w.limit asked k ∧ sent = []
  | .ended => ∃ e : Worker.Ending, e.Tells c w.limit asked k ∧ sent = [e]

structure Follows (c : Console) (limit : Option Nat) (k : Nat) (r : Runner) : Prop where
  console_eq : r.worker.console = step.after k c
  limit_eq : r.worker.limit = limit
  within : ∀ n, limit = some n → r.worker.steps ≤ n
  views : View.Follow c k r.views
  phase : r.phase.Follows c r.worker r.stopAsked k r.sent

variable {c : Console} {limit : Option Nat} {k : Nat} {r : Runner}

theorem follows_spawn (c : Console) (limit : Option Nat) : (spawn c limit).Follows c limit 0 where
  console_eq := rfl
  limit_eq := rfl
  within _ _ := Nat.zero_le _
  views := ⟨[], .nil, .nil, nofun⟩
  phase := ⟨rfl, .zero step c, rfl⟩

theorem Phase.Follows.stop {w : Worker} {asked : Bool} {sent : List Worker.Ending} {phase : Phase}
    (h : phase.Follows c w asked k sent) : phase.Follows c w true k sent := by
  have hending {e : Worker.Ending} (he : e.Tells c w.limit asked k) : e.Tells c w.limit true k := by
    cases he with
    | stopped hok _ => exact .stopped hok rfl
    | limitReached hok hlimit => exact .limitReached hok hlimit
    | halted hok he hlimit => exact .halted hok he hlimit
  cases phase with
  | polling => exact h
  | acting stop => exact ⟨h.1, h.2.1, h.2.2.1, fun _ => rfl⟩
  | sending e => exact ⟨hending h.1, h.2⟩
  | ended =>
    obtain ⟨e, he, hsent⟩ := h
    exact ⟨e, hending he, hsent⟩

theorem work_turn {stop : Bool} {w : Worker} {remarks : List Journal.Record}
    (hphase : r.phase = .acting stop) (hturn : r.worker.turn stop = ⟨none, w, remarks⟩) :
    r.work = { r with worker := w, phase := .polling } := by
  simp only [work, hphase, hturn]

theorem work_last_turn {stop : Bool} {e : Worker.Ending} {w : Worker}
    {remarks : List Journal.Record} (hphase : r.phase = .acting stop)
    (hturn : r.worker.turn stop = ⟨some e, w, remarks⟩) :
    r.work = { r with worker := w, phase := .sending e } := by
  simp only [work, hphase, hturn]

theorem Follows.turn {stop : Bool} (h : r.Follows c limit k) (hphase : r.phase = .acting stop) :
    ∃ l, k ≤ l ∧ r.work.Follows c limit l := by
  obtain ⟨hk, hok, hsent, hasked⟩ : k = r.worker.steps ∧ step.Smooth k c ∧ r.sent = [] ∧
      (stop = true → r.stopAsked = true) := by
    have hfollows := h.phase
    rwa [hphase] at hfollows
  obtain ⟨turn, hturn, hturns⟩ := Worker.exists_turns stop r.worker
  cases hturns with
  | stopped =>
    rw [work_last_turn hphase hturn]
    exact ⟨k, Nat.le_refl k, { h with phase := ⟨hk ▸ .stopped hok (hasked rfl), hsent⟩ }⟩
  | @limitReached n hlimit hn =>
    -- no step was made beyond the limit, so the worker is exactly there
    have hkn : n = k := by
      have hwithin := h.within n (h.limit_eq ▸ hlimit)
      omega
    rw [work_last_turn hphase hturn]
    refine ⟨k, Nat.le_refl k, { h with phase := ⟨?_, hsent⟩ }⟩
    rw [← hk, h.console_eq]
    exact .limitReached hok (hkn ▸ hlimit)
  | @halted e c' t hlimit hrun =>
    have hc' : c' = step.after (k + 1) c := by rw [Action.after_succ, ← h.console_eq, hrun]
    have he : (step.run (step.after k c)).result = .error e := by rw [← h.console_eq, hrun]
    rw [work_last_turn hphase hturn]
    rw [← hk] at hlimit ⊢
    rw [hc']
    exact ⟨k + 1, Nat.le_succ k,
      { console_eq := rfl
        limit_eq := h.limit_eq
        within := fun n hn => Nat.le_of_lt (hlimit n (h.limit_eq.trans hn))
        views := h.views.later (Nat.le_succ k)
        phase := ⟨.halted hok he hlimit, hsent⟩ }⟩
  | @stepped a c' t hlimit hrun =>
    have hc' : c' = step.after (k + 1) c := by rw [Action.after_succ, ← h.console_eq, hrun]
    have ha : (step.run (step.after k c)).result = .ok a := by rw [← h.console_eq, hrun]
    rw [work_turn hphase hturn]
    rw [← hk] at hlimit ⊢
    rw [hc']
    exact ⟨k + 1, Nat.le_succ k,
      { console_eq := rfl
        limit_eq := h.limit_eq
        within := fun n hn => hlimit n (h.limit_eq.trans hn)
        views := h.views.later (Nat.le_succ k)
        phase := ⟨rfl, hok.succ ha, hsent⟩ }⟩

theorem Follows.work (h : r.Follows c limit k) : ∃ l, k ≤ l ∧ r.work.Follows c limit l := by
  have hfollows := h.phase
  cases hphase : r.phase with
  | polling =>
    rw [hphase] at hfollows
    obtain ⟨hk, hok, hsent⟩ := hfollows
    refine ⟨k, Nat.le_refl k, ?_⟩
    simp only [Runner.work, hphase]
    exact { h with phase := ⟨hk, hok, hsent, id⟩ }
  | acting stop => exact h.turn hphase
  | sending e =>
    rw [hphase] at hfollows
    obtain ⟨he, hsent⟩ := hfollows
    refine ⟨k, Nat.le_refl k, ?_⟩
    simp only [Runner.work, hphase]
    exact { h with phase := ⟨e, he, by rw [hsent]; rfl⟩ }
  | ended =>
    refine ⟨k, Nat.le_refl k, ?_⟩
    simpa only [Runner.work, hphase] using h

theorem Follows.move (h : r.Follows c limit k) (m : Move) :
    ∃ l, k ≤ l ∧ (r.move m).Follows c limit l := by
  cases m with
  | work => exact h.work
  | snapshot =>
    exact ⟨k, Nat.le_refl k, { h with views := h.views.append (h.console_eq ▸ .report) }⟩
  | render =>
    exact ⟨k, Nat.le_refl k, { h with views := h.views.append (h.console_eq ▸ .frame) }⟩
  | stop => exact ⟨k, Nat.le_refl k, { h with phase := h.phase.stop }⟩

theorem Follows.after (h : r.Follows c limit k) (moves : List Move) :
    ∃ l, k ≤ l ∧ (r.after moves).Follows c limit l := by
  induction moves generalizing r k with
  | nil => exact ⟨k, Nat.le_refl k, h⟩
  | cons m moves ih =>
    obtain ⟨l, hkl, hl⟩ := h.move m
    obtain ⟨l', hll', hl'⟩ := ih hl
    exact ⟨l', Nat.le_trans hkl hll', hl'⟩

@[simp] theorem after_nil (r : Runner) : r.after [] = r := rfl

@[simp] theorem after_cons (r : Runner) (m : Move) (moves : List Move) :
    r.after (m :: moves) = (r.move m).after moves := rfl

theorem after_append (r : Runner) (moves moves' : List Move) :
    r.after (moves ++ moves') = (r.after moves).after moves' := List.foldl_append

theorem stopAsked_work (r : Runner) : r.work.stopAsked = r.stopAsked := by
  unfold Runner.work
  split
  · rfl
  · split <;> rfl
  · rfl
  · rfl

theorem stopAsked_after (r : Runner) (moves : List Move) :
    (r.after moves).stopAsked = (r.stopAsked || decide (.stop ∈ moves)) := by
  induction moves generalizing r with
  | nil => simp
  | cons m moves ih => cases m <;> simp [ih, Runner.move, stopAsked_work]

-- ---------------------------------------------------------------------------
-- The count of steps
-- ---------------------------------------------------------------------------

theorem steps_work_le (r : Runner) : r.work.worker.steps ≤ r.worker.steps + 1 := by
  cases hphase : r.phase with
  | acting stop =>
    obtain ⟨turn, hturn, hturns⟩ := Worker.exists_turns stop r.worker
    cases hturns with
    | stepped _ _ =>
      exact Nat.le_of_eq (congrArg (·.worker.steps) (work_turn hphase hturn))
    | _ =>
      rw [work_last_turn hphase hturn]
      exact Nat.le_succ _
  | _ => simp [Runner.work, hphase]

theorem steps_after_le (r : Runner) (moves : List Move) :
    (r.after moves).worker.steps ≤ r.worker.steps + moves.count .work := by
  induction moves generalizing r with
  | nil => exact Nat.le_refl _
  | cons m moves ih =>
    have hrest := ih (r.move m)
    cases m with
    | work =>
      have hwork := steps_work_le r
      simp only [after_cons, Runner.move, List.count_cons_self] at hrest ⊢
      omega
    | _ => simpa [Runner.move] using hrest

/-- A limit of 64 bits keeps the count of steps to 64 bits, and without a limit it takes 2^64
moves of the worker to leave them. -/
theorem toNat_ofNat_steps (c : Console) {limit : Option Nat} {moves : List Move}
    (h : (∃ n < UInt64.size, limit = some n) ∨ moves.count .work < UInt64.size) :
    let steps := ((spawn c limit).after moves).worker.steps
    (UInt64.ofNat steps).toNat = steps := by
  refine UInt64.toNat_ofNat_of_lt ?_
  rcases h with ⟨n, hn, hlimit⟩ | hmoves
  · obtain ⟨k, -, hfollows⟩ := (follows_spawn c limit).after moves
    exact Nat.lt_of_le_of_lt (hfollows.within n hlimit) hn
  · have hsteps := steps_after_le (spawn c limit) moves
    rw [show (spawn c limit).worker.steps = 0 from rfl, Nat.zero_add] at hsteps
    exact Nat.lt_of_le_of_lt hsteps hmoves

-- ---------------------------------------------------------------------------
-- With a limit, the worker ends
-- ---------------------------------------------------------------------------

/-- How many moves the worker has left, at most, that may make `n` steps. -/
def toGo (n : Nat) (r : Runner) : Nat :=
  match r.phase with
  | .polling => 2 * (n - r.worker.steps) + 3
  | .acting _ => 2 * (n - r.worker.steps) + 2
  | .sending _ => 1
  | .ended => 0

theorem toGo_work {n : Nat} (hlimit : r.worker.limit = some n) : r.work.toGo n ≤ r.toGo n - 1 := by
  cases hphase : r.phase with
  | polling => simp [Runner.work, toGo, hphase]
  | acting stop =>
    obtain ⟨turn, hturn, hturns⟩ := Worker.exists_turns stop r.worker
    cases hturns with
    | stepped hbelow _ =>
      -- a turn that is not the last one makes one of the steps that are left
      have hlt := hbelow n hlimit
      rw [work_turn hphase hturn]
      simp only [toGo, hphase]
      omega
    | _ =>
      rw [work_last_turn hphase hturn]
      simp only [toGo, hphase]
      omega
  | sending e => simp [Runner.work, toGo, hphase]
  | ended => simp [Runner.work, toGo, hphase]

theorem Follows.toGo_after {n : Nat} (h : r.Follows c (some n) k) (moves : List Move) :
    (r.after moves).toGo n ≤ r.toGo n - moves.count .work := by
  induction moves generalizing r k with
  | nil => simp
  | cons m moves ih =>
    obtain ⟨l, -, hl⟩ := h.move m
    have hrest := ih hl
    cases m with
    | work =>
      have hwork := toGo_work h.limit_eq
      simp only [after_cons, Runner.move, List.count_cons_self] at hrest ⊢
      omega
    | _ => simpa [Runner.move, toGo] using hrest

theorem ended_of_toGo {n : Nat} (h : r.toGo n = 0) : r.phase = .ended := by
  unfold toGo at h
  split at h
  · omega
  · omega
  · omega
  · assumption

-- ---------------------------------------------------------------------------
-- With nobody asking it to stop, the worker does as `runSteps`
-- ---------------------------------------------------------------------------

end Runner

def Outcome.exitCode {σ α : Type} (o : Outcome σ α) : Nat :=
  match o.result with
  | .ok _ => 0
  | .error _ => 1

theorem Worker.Ending.Tells.runSteps {c : Console} {n k : Nat} {e : Worker.Ending}
    (h : e.Tells c (some n) false k) :
    ((runSteps n).run c).state = step.after k c ∧
      (∀ fault, ((runSteps n).run c).result = .error fault ↔
        ∃ j report, e = .halted j fault report) ∧
      e.exitCode = ((runSteps n).run c).exitCode := by
  cases h with
  | stopped _ hasked => cases hasked
  | limitReached hok hlimit =>
    cases hlimit
    obtain ⟨⟨sum, hsum⟩, hstate⟩ := Action.accumulateFrom_smooth hok 0 []
    have hsum : ((Console.runSteps n).run c).result = .ok sum := hsum
    refine ⟨hstate, fun fault => ?_, ?_⟩
    · simp [hsum]
    · simp [Outcome.exitCode, hsum, exitCode]
  | halted hok he hlimit =>
    obtain ⟨hfault, hstate⟩ := Action.accumulateFrom_fault (hlimit n rfl) hok he 0 []
    have hfault : ((Console.runSteps n).run c).result = _ := hfault
    refine ⟨hstate, fun fault => ?_, ?_⟩
    · simp [hfault]
    · simp [Outcome.exitCode, hfault, exitCode]

namespace Runner

/-- What a worker that runs by itself comes to is what it comes to when nobody else moves. -/
theorem after_runFrom (turns : Nat) (said : List Journal.Record) (w : Worker) :
    match Worker.runFrom turns said w with
    | ⟨none, w', _⟩ =>
      after (List.replicate (2 * turns) .work) { worker := w } = { worker := w' }
    | ⟨some e, w', _⟩ => ∃ moves, .stop ∉ moves ∧
      after moves { worker := w } = { worker := w', phase := .ended, sent := [e] } := by
  induction turns generalizing said w with
  | zero => rfl
  | succ turns ih =>
    rcases hturn : w.turn false with ⟨_ | e, w', remarks⟩
    · have htwo : after [.work, .work] { worker := w } = { worker := w' } :=
        work_turn (r := { worker := w, phase := .acting false }) rfl hturn
      have hrest := ih (remarks.reverseAux said) w'
      rw [Worker.runFrom, hturn]
      dsimp only
      rcases hrun : Worker.runFrom turns (remarks.reverseAux said) w' with ⟨_ | e, w'', remarks'⟩
      · rw [hrun] at hrest
        rw [Nat.mul_succ, Nat.add_comm, List.replicate_add, after_append]
        exact (congrArg _ htwo).trans hrest
      · rw [hrun] at hrest
        obtain ⟨moves, hstop, hmoves⟩ := hrest
        refine ⟨[.work, .work] ++ moves, by simp [hstop], ?_⟩
        rw [after_append, htwo, hmoves]
    · rw [Worker.runFrom, hturn]
      refine ⟨[.work, .work, .work], by simp, ?_⟩
      have htwo : after [.work, .work] { worker := w } = { worker := w', phase := .sending e } :=
        work_last_turn (r := { worker := w, phase := .acting false }) rfl hturn
      exact congrArg Runner.work htwo

theorem Follows.ended {c : Console} {limit : Option Nat} {k : Nat} {r : Runner}
    (h : r.Follows c limit k) (hphase : r.phase = .ended) :
    ∃ e : Worker.Ending, r.sent = [e] ∧ e.Tells c limit r.stopAsked k := by
  have hfollows := h.phase
  rw [hphase] at hfollows
  obtain ⟨e, he, hsent⟩ := hfollows
  exact ⟨e, hsent, h.limit_eq ▸ he⟩

theorem Follows.unsent {c : Console} {limit : Option Nat} {k : Nat} {r : Runner}
    (h : r.Follows c limit k) (hphase : r.phase ≠ .ended) : r.sent = [] := by
  have hfollows := h.phase
  cases hp : r.phase with
  | polling => rw [hp] at hfollows; exact hfollows.2.2
  | acting stop => rw [hp] at hfollows; exact hfollows.2.2.1
  | sending e => rw [hp] at hfollows; exact hfollows.2
  | ended => exact absurd hp hphase

theorem run_ends (c : Console) {n turns : Nat} (h : n < turns) :
    ∃ e w remarks, Worker.run turns { console := c, limit := some n } = ⟨some e, w, remarks⟩ ∧
      e.exitCode = ((runSteps n).run c).exitCode := by
  have hrunFrom := after_runFrom turns [] { console := c, limit := some n }
  rcases hrun : Worker.runFrom turns [] { console := c, limit := some n } with ⟨_ | e, w, remarks⟩
  · -- so many moves leave too few for a worker that still has to look at the flag
    have htoGo := (follows_spawn c (some n)).toGo_after (List.replicate (2 * turns) .work)
    rw [hrun] at hrunFrom
    simp only [spawn, hrunFrom, List.count_replicate_self] at htoGo
    simp only [toGo] at htoGo
    omega
  · rw [hrun] at hrunFrom
    obtain ⟨moves, hstop, hmoves⟩ := hrunFrom
    obtain ⟨k, -, hfollows⟩ := (follows_spawn c (some n)).after moves
    simp only [spawn, hmoves] at hfollows
    obtain ⟨e', hsent, he'⟩ := hfollows.ended rfl
    cases hsent
    exact ⟨e, w, remarks, hrun, he'.runSteps.2.2⟩

/-- Whatever the threads of a runner do and in whatever order, its console is some
steps after the one it began with, and so are all views, none of them before an
earlier one. The worker sends one ending, when it ends, which tells of its last step.
If it may make `n` steps it ends, and if it is not asked to stop, what it sends, what
it leaves and the exit code are those of `runSteps n`. -/
theorem interleavings (c : Console) (limit : Option Nat) (moves : List Move) :
    let r := (spawn c limit).after moves
    (∃ k, r.worker.console = step.after k c ∧ View.Follow c k r.views ∧
      (r.phase ≠ .ended ∧ r.sent = [] ∨
        r.phase = .ended ∧ ∃ e : Worker.Ending, r.sent = [e] ∧
          e.Tells c limit (decide (.stop ∈ moves)) k)) ∧
    ∀ n, limit = some n →
      let copy := (runSteps n).run c
      (2 * n + 3 ≤ moves.count .work → r.phase = .ended) ∧
      (.stop ∉ moves → r.phase = .ended →
        r.worker.console = copy.state ∧
          (∀ fault, copy.result = .error fault ↔ ∃ k report, r.sent = [.halted k fault report]) ∧
          r.exitCode? = some copy.exitCode) ∧
      ∀ turns files (s : Settings) said, n < turns → s.maxSteps = some n →
        Session.load files s = (.ok c, said) →
        (Session.runSettings turns files s).map (·.code) = some copy.exitCode := by
  intro r
  obtain ⟨k, -, hfollows⟩ : ∃ k, 0 ≤ k ∧ r.Follows c limit k := (follows_spawn c limit).after moves
  have hasked : r.stopAsked = decide (.stop ∈ moves) := by
    rw [show r.stopAsked = _ from stopAsked_after _ moves]
    rfl
  refine ⟨⟨k, hfollows.console_eq, hfollows.views, ?_⟩, ?_⟩
  · by_cases hphase : r.phase = .ended
    · obtain ⟨e, hsent, he⟩ := hfollows.ended hphase
      exact .inr ⟨hphase, e, hsent, hasked ▸ he⟩
    · exact .inl ⟨hphase, hfollows.unsent hphase⟩
  · rintro n rfl copy
    refine ⟨?_, ?_, ?_⟩
    · intro hcount
      have htoGo : r.toGo n ≤ 2 * n + 3 - moves.count .work :=
        (follows_spawn c (some n)).toGo_after moves
      exact ended_of_toGo (n := n) (by omega)
    · intro hstop hphase
      obtain ⟨e, hsent, he⟩ := hfollows.ended hphase
      have hnever : r.stopAsked = false := hasked.trans (decide_eq_false hstop)
      rw [hnever] at he
      obtain ⟨hstate, hresult, hcode⟩ := he.runSteps
      refine ⟨hfollows.console_eq.trans hstate.symm, fun fault => ?_, ?_⟩
      · simp only [copy, hresult, hsent, List.cons.injEq, and_true]
      · rw [exitCode?, hsent]
        exact congrArg some hcode
    · intro turns files s said hturns hlimit hload
      obtain ⟨e, w, remarks, hrun, hcode⟩ := run_ends c hturns
      have hworker : (Session.worker s c).run turns = ⟨some e, w, remarks⟩ := by
        rw [Session.worker, hlimit, hrun]
      simp only [Session.runSettings, hload, hworker]
      exact congrArg some hcode

def atIllegal : Console := .new ⟨#[0x3C, 0xD3]⟩ none 4 ⟨1, 1⟩

def lookedAt : List Move :=
  [.snapshot, .work, .work, .render, .work, .snapshot, .work, .work, .snapshot, .work, .work]

theorem interleavings_atIllegal :
    let r := (spawn atIllegal (some 2)).after lookedAt
    r.phase = .ended ∧ r.worker.console = ((runSteps 2).run atIllegal).state ∧
      (∃ k report, r.sent = [.halted k (.unimplemented 0xD3 1) report]) ∧ r.exitCode? = some 1 := by
  obtain ⟨hends, hagrees, -⟩ := (interleavings atIllegal (some 2) lookedAt).2 2 rfl
  have hended := hends (by decide)
  obtain ⟨hconsole, hresult, hcode⟩ := hagrees (by decide) hended
  exact ⟨hended, hconsole, (hresult _).mp rfl, hcode⟩

end Runner

end Handheld
