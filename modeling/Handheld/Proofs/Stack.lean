import Handheld.Proofs.Cells
import Handheld.Proofs.Pacing

/-!
# The stack in memory

A processor that pushes and pops words is a stack of words, as long as there is room
below the stack pointer it began with: each word comes back as it was pushed, the
last one first, and no byte outside that room changes.
-/

namespace Handheld

-- ---------------------------------------------------------------------------
-- Stacks of words
-- ---------------------------------------------------------------------------

inductive StackOp where
  | push (w : UInt16)
  | pop
  deriving DecidableEq, Repr

namespace StackOp

def next : StackOp → List UInt16 → List UInt16
  | .push w, ws => w :: ws
  | .pop, ws => ws.tail

def taken? : StackOp → List UInt16 → Option UInt16
  | .push _, _ => none
  | .pop, ws => ws.head?

def leave (ops : List StackOp) (ws : List UInt16) : List UInt16 :=
  ops.foldl (fun ws op => op.next ws) ws

/-- On a stack of `n` words at most, none of the operations pops when it is empty or
pushes when it is full. -/
def Legal (n : Nat) : List StackOp → List UInt16 → Prop
  | [], _ => True
  | op :: ops, ws => (op = .pop → ws ≠ []) ∧ (op.next ws).length ≤ n ∧ Legal n ops (op.next ws)

instance decidableLegal (n : Nat) : (ops : List StackOp) → (ws : List UInt16) →
    Decidable (Legal n ops ws)
  | [], _ => .isTrue trivial
  | op :: ops, ws =>
    have := decidableLegal n ops (op.next ws)
    inferInstanceAs (Decidable (_ ∧ _ ∧ _))

section
variable {n : Nat} {ops ops' : List StackOp} {ws : List UInt16}

theorem leave_append : leave (ops ++ ops') ws = leave ops' (leave ops ws) := by
  simp [leave]

theorem legal_append :
    Legal n (ops ++ ops') ws ↔ Legal n ops ws ∧ Legal n ops' (leave ops ws) := by
  induction ops generalizing ws with
  | nil => simp [Legal, leave]
  | cons op ops ih => simp [Legal, leave, ih, and_assoc]

theorem leave_below {ws' : List UInt16} (h : Legal n ops ws) :
    leave ops (ws ++ ws') = leave ops ws ++ ws' := by
  induction ops generalizing ws with
  | nil => rfl
  | cons op ops ih =>
    obtain ⟨hpop, -, hrest⟩ := h
    have hnext : op.next (ws ++ ws') = op.next ws ++ ws' := by
      cases op with
      | push w => rfl
      | pop => exact List.tail_append_of_ne_nil (hpop rfl)
    simpa [leave, hnext] using ih hrest

/-- Everything that is pushed is popped again, and nothing else is. -/
def Balanced (n : Nat) (ops : List StackOp) : Prop := Legal n ops [] ∧ leave ops [] = []

theorem Balanced.leave (h : Balanced n ops) : StackOp.leave ops ws = ws := by
  rw [← List.nil_append ws, leave_below h.1, h.2]

end

end StackOp

-- ---------------------------------------------------------------------------
-- The processor
-- ---------------------------------------------------------------------------

def Action.Gives {σ α : Type} (x : Action σ α) (s : σ) (a : α) (s' : σ) : Prop :=
  ∃ t, x.run s = ⟨.ok a, s', t⟩

theorem Action.Gives.bind {σ α γ : Type} {x : Action σ α} {f : α → Action σ γ} {s s' s'' : σ}
    {a : α} {b : γ} (hx : x.Gives s a s') (hf : (f a).Gives s' b s'') :
    (x >>= f).Gives s b s'' := by
  obtain ⟨t, hx⟩ := hx
  obtain ⟨u, hf⟩ := hf
  exact ⟨t ++ u, by rw [run_bind_ok hx, hf]⟩

namespace Processor

variable {β : Type} [Bus β]

section
variable {p : Processor β} {w : UInt16}

theorem write_gives {a : UInt16} {v : UInt8} (h : Bus.writable p.bus a v = true) :
    (write a v).Gives p () { p.elapse 1 with bus := Bus.store p.bus a v } := by
  obtain ⟨t, hrun, -⟩ := write_run h
  exact ⟨t, hrun⟩

theorem read_gives {a : UInt16} {v : UInt8} (h : Bus.read? p.bus a = some v) :
    (read a).Gives p v (p.elapse 1) := by
  obtain ⟨t, hrun, -⟩ := read_run h
  exact ⟨t, hrun⟩

theorem push_gives
    (hhigh : Bus.writable p.bus (Word.down p.registers.sp 1) (Word.high w) = true)
    (hlow : Bus.writable (Bus.store p.bus (Word.down p.registers.sp 1) (Word.high w))
      (Word.down p.registers.sp 2) (Word.low w) = true) :
    (push w).Gives p () { p with
      registers := { p.registers with sp := Word.down p.registers.sp 2 }
      bus := Bus.store (Bus.store p.bus (Word.down p.registers.sp 1) (Word.high w))
        (Word.down p.registers.sp 2) (Word.low w)
      cycles := p.cycles.add 2 } := by
  rw [← Cycles.add_add p.cycles 1 1]
  exact .bind ⟨[], rfl⟩ (.bind (write_gives hhigh) (.bind (write_gives hlow) ⟨[], rfl⟩))

theorem pop_gives (hlow : Bus.read? p.bus p.registers.sp = some (Word.low w))
    (hhigh : Bus.read? p.bus (p.registers.sp + 1) = some (Word.high w)) :
    pop.Gives p w { p with
      registers := { p.registers with sp := p.registers.sp + 2 }
      cycles := p.cycles.add 2 } := by
  rw [← Cycles.add_add p.cycles 1 1]
  refine .bind ⟨[], rfl⟩ (.bind (read_gives hlow) (.bind (read_gives hhigh) (.bind ⟨[], rfl⟩ ?_)))
  rw [Word.ofBytes_high_low]
  exact ⟨[], rfl⟩

end

end Processor

namespace StackOp

variable {β : Type} [Bus β]

def action : StackOp → Action (Processor β) (Option UInt16)
  | .push w => do
    Processor.push w
    pure none
  | .pop => do
    let w ← Processor.pop
    pure (some w)

def perform (ops : List StackOp) (p : Processor β) : Processor β :=
  ops.foldl (fun q op => (op.action.run q).state) p

end StackOp

-- ---------------------------------------------------------------------------
-- Words in memory
-- ---------------------------------------------------------------------------

namespace Bus

variable {β : Type} [Bus β] {same : UInt16 → UInt16 → Prop} {s : UInt16} {n : Nat}

/-- The words lie below an address, the last one of the list right below it. -/
def Words (b : β) (s : UInt16) : List UInt16 → Prop
  | [] => True
  | w :: ws =>
    read? b (Word.down s (2 * ws.length + 1)) = some (Word.high w) ∧
      read? b (Word.down s (2 * ws.length + 2)) = some (Word.low w) ∧ Words b s ws

theorem Room.words_store (hroom : Room β same s n) {b : β} {ws : List UInt16} {k : Nat}
    (hk : 2 * ws.length < k) (hkn : k ≤ n) (v : UInt8) (h : Words b s ws) :
    Words (store b (Word.down s k) v) s ws := by
  have hkept (j : Nat) (hj : 0 < j) (hjk : j < k) :
      read? (store b (Word.down s k) v) (Word.down s j) = read? b (Word.down s j) := by
    refine hroom.others b v (Word.below_down (by omega) hkn) fun hs => ?_
    exact Nat.ne_of_lt hjk (hroom.distinct (by omega) hkn hj (by omega) hs).symm
  induction ws with
  | nil => trivial
  | cons w ws ih =>
    simp only [List.length_cons] at hk
    obtain ⟨hhigh, hlow, hrest⟩ := h
    refine ⟨?_, ?_, ih (by omega) hrest⟩
    · rw [hkept _ (by omega) (by omega), hhigh]
    · rw [hkept _ (by omega) (by omega), hlow]

end Bus

-- ---------------------------------------------------------------------------
-- Refinement
-- ---------------------------------------------------------------------------

namespace Processor

variable {β : Type} [Bus β] {same : UInt16 → UInt16 → Prop} {n : Nat} {p q : Processor β}
  {ws : List UInt16}

/-- `q` is `p` with words on the stack, for which there is room for `n` of them. -/
structure Stacked (same : UInt16 → UInt16 → Prop) (n : Nat) (p q : Processor β)
    (ws : List UInt16) : Prop where
  registers : q.registers = { p.registers with sp := Word.down p.registers.sp (2 * ws.length) }
  words : Bus.Words q.bus p.registers.sp ws
  outside (c : UInt16) : (∀ a, Word.Below p.registers.sp (2 * n) a → ¬same a c) →
    Bus.read? q.bus c = Bus.read? p.bus c

theorem Stacked.empty (p : Processor β) : Stacked same n p p [] where
  registers := by
    show p.registers = { p.registers with sp := p.registers.sp - 0 }
    rw [UInt16.sub_zero]
  words := trivial
  outside _ _ := rfl

theorem Stacked.push (hroom : Bus.Room β same p.registers.sp (2 * n)) (h : Stacked same n p q ws)
    (w : UInt16) (hn : ws.length < n) :
    ∃ r, (push w).Gives q () r ∧ r.cycles = q.cycles.add 2 ∧ Stacked same n p r (w :: ws) := by
  have hsp : q.registers.sp = Word.down p.registers.sp (2 * ws.length) := by rw [h.registers]
  have hhigh := Word.below_down (a := p.registers.sp) (m := 2 * n) (n := 2 * ws.length + 1)
    (by omega) (by omega)
  have hlow := Word.below_down (a := p.registers.sp) (m := 2 * n) (n := 2 * ws.length + 2)
    (by omega) (by omega)
  refine ⟨_, push_gives (hroom.writable _ _ ?_) (hroom.writable _ _ ?_), rfl, ?_, ?_, ?_⟩
  · rwa [hsp, Word.down_down]
  · rwa [hsp, Word.down_down]
  · simp only [h.registers, Word.down_down]
    rfl
  · simp only [hsp, Word.down_down]
    refine ⟨?_, hroom.written _ _ hlow (hroom.refl _), ?_⟩
    · rw [hroom.others _ _ hlow, hroom.written _ _ hhigh (hroom.refl _)]
      intro hs
      have heq := hroom.distinct (by omega) (by omega) (by omega) (by omega) hs
      omega
    · exact hroom.words_store (by omega) (by omega) _
        (hroom.words_store (by omega) (by omega) _ h.words)
  · intro c hc
    simp only [hsp, Word.down_down]
    rw [hroom.others _ _ hlow (hc _ hlow), hroom.others _ _ hhigh (hc _ hhigh), h.outside c hc]

theorem Stacked.pop {w : UInt16} (h : Stacked same n p q (w :: ws)) :
    ∃ r, pop.Gives q w r ∧ r.cycles = q.cycles.add 2 ∧ Stacked same n p r ws := by
  have hsp : q.registers.sp = Word.down p.registers.sp (2 * ws.length + 2) := by
    rw [h.registers]
    rfl
  obtain ⟨hhigh, hlow, hrest⟩ := h.words
  refine ⟨_, pop_gives ?_ ?_, rfl, ?_, hrest, h.outside⟩
  · rw [hsp, hlow]
  · rw [hsp, Word.down_add_one, hhigh]
  · simp only [h.registers]
    rw [List.length_cons, Nat.mul_succ, Word.down_add_two]

/-- One operation on the stack in memory does what it does on the stack of words, in
two machine cycles. -/
theorem Stacked.step (hroom : Bus.Room β same p.registers.sp (2 * n)) (h : Stacked same n p q ws)
    {op : StackOp} (hpop : op = .pop → ws ≠ []) (hn : (op.next ws).length ≤ n) :
    ∃ r, op.action.Gives q (op.taken? ws) r ∧ r.cycles = q.cycles.add 2 ∧
      Stacked same n p r (op.next ws) := by
  cases op with
  | push w =>
    obtain ⟨r, hpush, hcycles, hr⟩ := h.push hroom w hn
    exact ⟨r, hpush.bind ⟨[], rfl⟩, hcycles, hr⟩
  | pop =>
    cases ws with
    | nil => exact absurd rfl (hpop rfl)
    | cons w ws =>
      obtain ⟨r, hpop, hcycles, hr⟩ := h.pop
      exact ⟨r, hpop.bind ⟨[], rfl⟩, hcycles, hr⟩

theorem Stacked.perform (hroom : Bus.Room β same p.registers.sp (2 * n)) {ops : List StackOp}
    (h : Stacked same n p q ws) (hlegal : StackOp.Legal n ops ws) :
    Stacked same n p (StackOp.perform ops q) (StackOp.leave ops ws) := by
  induction ops generalizing q ws with
  | nil => exact h
  | cons op ops ih =>
    obtain ⟨hpop, hn, hrest⟩ := hlegal
    obtain ⟨r, ⟨t, hrun⟩, -, hr⟩ := h.step hroom hpop hn
    have hr' := ih hr hrest
    rwa [StackOp.perform, List.foldl_cons, hrun]

/-- The processor is a stack of at most `n` words: whatever legal operations it has
performed, the stack pointer tells the number of words, all bytes elsewhere are as they
were, one more legal operation takes eight clock cycles and gives what a stack of
words gives, and a pop gives the word whose push it matches. -/
def IsStack (same : UInt16 → UInt16 → Prop) (n : Nat) (p : Processor β) : Prop :=
  ∀ ops, StackOp.Legal n ops [] →
    let q := StackOp.perform ops p
    let ws := StackOp.leave ops []
    let s := p.registers.sp
    q.registers = { p.registers with sp := s - UInt16.ofNat (2 * ws.length) } ∧
      (∀ c, (∀ a, Word.Below s (2 * n) a → ¬same a c) → Bus.read? q.bus c = Bus.read? p.bus c) ∧
      (∀ op, StackOp.Legal n (ops ++ [op]) [] →
        let o := op.action.run q
        o.result = .ok (op.taken? ws) ∧ o.state.cycles.m = q.cycles.m + 2 ∧
          o.state.cycles.t = q.cycles.t + 8) ∧
      ∀ before w body, ops = before ++ .push w :: body → StackOp.Balanced n body →
        (pop.run q).result = .ok w

theorem isStack_of_room (hroom : Bus.Room β same p.registers.sp (2 * n)) : p.IsStack same n := by
  intro ops hlegal q ws s
  have hq : Stacked same n p q ws := (Stacked.empty p).perform hroom hlegal
  refine ⟨hq.registers, hq.outside, ?_, ?_⟩
  · intro op hop
    obtain ⟨hpop, hn, -⟩ := (StackOp.legal_append.mp hop).2
    obtain ⟨r, ⟨t, hrun⟩, hcycles, -⟩ := hq.step hroom hpop hn
    rw [hrun]
    dsimp only
    rw [hcycles]
    exact ⟨rfl, rfl, rfl⟩
  · rintro before w body rfl hbody
    have hws : ws = w :: StackOp.leave before [] := by
      show StackOp.leave (before ++ .push w :: body) [] = _
      rw [StackOp.leave_append]
      exact hbody.leave
    rw [hws] at hq
    obtain ⟨r, ⟨t, hrun⟩, -⟩ := hq.pop
    rw [hrun]

/-- On flat memory there is a stack of up to 32768 words wherever the stack pointer is.
On the memory map of the console the bytes below it have to lie within one of the areas
that keep what is written. -/
theorem stack_in_memory :
    (∀ (p : Processor FlatMemory) (n : Nat), 2 * n ≤ 65536 → p.IsStack Eq n) ∧
      ∀ (p : Processor MemoryMap) (n : Nat) (area : MemoryMap.Area),
        (∀ a, Word.Below p.registers.sp (2 * n) a → area.Contains a) →
          p.IsStack MemoryMap.SamePlace n :=
  ⟨fun _ _ h => isStack_of_room (.flatMemory h), fun _ _ _ h => isStack_of_room (MemoryMap.room h)⟩

/-- The first word pushed takes the place of the interrupt mask. -/
def atTop : Processor MemoryMap := { bus := .new .empty none, registers := { sp := 0 } }

theorem stack_in_memory_atTop :
    let ops : List StackOp := [.push 0x1F34, .push 0xABCD]
    (∀ a, Word.Below atTop.registers.sp 4 a → MemoryMap.Area.high.Contains a) ∧
      StackOp.Legal 2 ops [] ∧ (StackOp.perform ops atTop).registers.sp = 0xFFFC ∧
      (pop.run (StackOp.perform ops atTop)).result = .ok 0xABCD ∧
      Bus.read? (StackOp.perform ops atTop).bus 0xFF80 = some 0 := by
  intro ops
  have harea : ∀ a, Word.Below atTop.registers.sp 4 a → MemoryMap.Area.high.Contains a :=
    Word.forall_below.mpr (by decide)
  have hlegal : StackOp.Legal 2 ops [] := by decide
  obtain ⟨hregisters, hothers, -, hpop⟩ := stack_in_memory.2 atTop 2 .high harea ops hlegal
  refine ⟨harea, hlegal, congrArg Registers.sp hregisters, ?_, ?_⟩
  · exact hpop [.push 0x1F34] 0xABCD [] rfl ⟨trivial, rfl⟩
  · exact (hothers 0xFF80 (Word.forall_below.mpr (by decide))).trans rfl

end Processor

end Handheld
