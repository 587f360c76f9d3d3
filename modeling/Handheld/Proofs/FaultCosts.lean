import Handheld.Proofs.Bookkeeping
import Handheld.Proofs.Clock
import Handheld.Proofs.Decoding
import Handheld.Proofs.Faults

/-!
# What a fault of the bus has cost

A fault takes back nothing: the bytes that were fetched stay counted, and so does
every cycle until the access that was refused. Only where a word is stored can a
write have gone before that access, and then it was the first byte of the word.
-/

namespace Handheld

-- ---------------------------------------------------------------------------
-- The order of beats
-- ---------------------------------------------------------------------------

namespace Beat

theorem length_eq_count (bs : List Beat) :
    bs.length = (bs.filterMap access?).length + bs.count .wait := by
  induction bs with
  | nil => rfl
  | cons b bs ih => cases b <;> simp [List.filterMap_cons, access?, ih] <;> omega

theorem access_of_mem_fetches {b : Beat} {address : UInt16} {n : Nat}
    (h : b ∈ fetches address n) : b ≠ .wait ∧ ∀ a, b ≠ .write a := by
  obtain ⟨x, rfl⟩ := mem_fetches h
  exact ⟨nofun, nofun⟩

theorem length_filterMap_fetches (address : UInt16) (n : Nat) :
    ((fetches address n).filterMap access?).length = n := by
  have hwaits : (fetches address n).count .wait = 0 :=
    List.count_eq_zero.mpr fun h => (access_of_mem_fetches h).1 rfl
  have hlength := length_eq_count (fetches address n)
  rw [hwaits, length_fetches] at hlength
  exact hlength.symm

/-- Whichever access ends the beats early, `m` of those before it are waits. -/
def Ahead (m : Nat) (bs : List Beat) : Prop :=
  ∀ past beat rest, bs = past ++ beat :: rest → beat ≠ .wait → past.count .wait = m

theorem mem_waits {b : Beat} {n : Nat} (h : b ∈ waits n) : b = .wait := List.eq_of_mem_replicate h

namespace Ahead

variable {m : Nat} {bs : List Beat}

theorem of_accesses (h : .wait ∉ bs) : Ahead 0 bs := by
  rintro past beat rest rfl -
  exact List.count_eq_zero_of_not_mem fun hm => h (List.mem_append_left _ hm)

theorem waits_append (h : Ahead m bs) (n : Nat) : Ahead (n + m) (waits n ++ bs) := by
  induction n with
  | zero => simpa [waits] using h
  | succ n ih =>
    rintro (_ | ⟨b, past⟩) beat rest hbs hbeat
    · cases hbs
      exact absurd rfl hbeat
    · obtain ⟨rfl, hrest⟩ := List.cons.inj (show .wait :: (waits n ++ bs) = _ from hbs)
      rw [List.count_cons_self, ih past beat rest hrest hbeat, Nat.add_right_comm]

theorem append_waits (h : Ahead m bs) (n : Nat) : Ahead m (bs ++ waits n) := by
  intro past beat rest hbs hbeat
  rcases List.append_eq_append_iff.mp hbs with ⟨cs, -, hcs⟩ | ⟨cs, rfl, hcs⟩
  · exact absurd (mem_waits (hcs ▸ List.mem_append_right cs List.mem_cons_self)) hbeat
  · cases cs with
    | nil => exact absurd (mem_waits (hcs ▸ List.mem_cons_self)) hbeat
    | cons b cs =>
      obtain ⟨rfl, -⟩ := List.cons.inj hcs
      exact h past beat cs rfl hbeat

end Ahead

/-- What the beats of operations look like: `m` waits come first, and words are
stored, or not. -/
inductive Shape : Nat → Bool → List Beat → Prop
  | none {word : Bool} : Shape 0 word []
  | wait {word : Bool} : Shape 0 word [.wait]
  | read {word : Bool} (a : UInt16) : Shape 0 word [.read a]
  | write {word : Bool} (a : UInt16) : Shape 0 word [.write a]
  | change {word : Bool} (a b : UInt16) : Shape 0 word [.read a, .write b]
  | fetch {word : Bool} (a b : UInt16) (n : Nat) : Shape 0 word (.read a :: .read b :: waits n)
  | store (m : Nat) (a b : UInt16) : Shape m true (waits m ++ [.write a, .write b])

namespace Shape

variable {m : Nat} {bs : List Beat}

theorem ahead {word : Bool} (h : Shape m word bs) : Ahead m bs := by
  cases h with
  | none => exact .of_accesses List.not_mem_nil
  | wait => exact (Ahead.of_accesses List.not_mem_nil).append_waits 1
  | read a | write a | change a b => exact .of_accesses (by simp)
  | fetch a b n =>
    have hreads : Ahead 0 [.read a, .read b] := .of_accesses (by simp)
    exact hreads.append_waits n
  | store m a b => exact (Ahead.of_accesses (by simp)).waits_append m

variable {past rest : List Beat} {beat : Beat}

theorem write_not_mem (h : Shape m false bs) (hbs : bs = past ++ beat :: rest) (a : UInt16) :
    .write a ∉ past := by
  have hpast : past ⊆ bs.dropLast := by
    rw [hbs, List.dropLast_append_of_ne_nil (List.cons_ne_nil _ _)]
    exact List.subset_append_left _ _
  refine fun hmem => absurd (hpast hmem) ?_
  cases h with
  | fetch a b n =>
    intro hlast
    have hmem := List.dropLast_subset _ hlast
    simp [waits] at hmem
  | _ => simp

theorem write_not_mem_waits (h : Shape m false bs) {n : Nat}
    (hbs : waits n ++ bs = past ++ beat :: rest) (a : UInt16) : .write a ∉ past := by
  rcases List.append_eq_append_iff.mp hbs with ⟨cs, rfl, hcs⟩ | ⟨cs, hcs, -⟩
  · have hrest := h.write_not_mem hcs a
    simpa [waits] using hrest
  · intro hmem
    cases mem_waits (hcs ▸ List.mem_append_left cs hmem)

end Shape

end Beat

namespace Operation

def callWait (f : Flags) : Operation → Nat
  | .call c => if Condition.met f c then 1 else 0
  | _ => 0

def storesWord : Operation → Bool
  | .storeStackPointer | .push _ | .call _ | .restart _ => true
  | _ => false

theorem shape_operands (target source : Operand) (r : Registers) :
    Beat.Shape 0 false (source.beats .read r ++ target.beats .write r) := by
  cases source with
  | register x =>
    cases target with
    | register y => exact .none
    | memory => exact .write _
  | memory =>
    cases target with
    | register y => exact .read _
    | memory => exact .change _ _

/-- Apart from calls, an operation waits only after its accesses. -/
theorem shape (op : Operation) (l : Literal) (r : Registers) :
    Beat.Shape (op.callWait r.flags) op.storesWord (op.beats l r) := by
  cases op with
  | load target source => exact shape_operands target source r
  | loadLiteral target => exact shape_operands target (.register .a) r
  | increment target | decrement target | shift _ target | reset _ target | set _ target =>
    exact shape_operands target target r
  | alu _ source | bit _ source =>
    cases source with
    | register x => exact .none
    | memory => exact .read _
  | storeThrough p | storeAt | storeLastPage | storeLastPageC => exact .write _
  | loadThrough p | loadFrom | loadLastPage | loadLastPageC => exact .read _
  | storeStackPointer | push p | restart v => exact .store 0 _ _
  | pop p => exact .fetch _ _ 0
  | retEnable => exact .fetch _ _ 1
  | jump c | jumpRelative c =>
    show Beat.Shape 0 false (if Condition.met r.flags c then [.wait] else [])
    split
    · exact .wait
    · exact .none
  | ret c =>
    show Beat.Shape 0 false (if Condition.met r.flags c then Beat.pop r ++ [.wait] else [])
    split
    · exact .fetch _ _ 1
    · exact .none
  | call c =>
    show Beat.Shape (if Condition.met r.flags c then 1 else 0) true
      (if Condition.met r.flags c then .wait :: Beat.push r else [])
    split
    · exact .store 1 _ _
    · exact .none
  | _ => exact .none

theorem stores_adjacent {op : Operation} (h : op.storesWord = true) {l : Literal}
    {read : UInt16 → UInt8} {r : Registers} {w w' : UInt16 × UInt8}
    (hs : (op.effect l read r).stores = [w, w']) : w'.1 = w.1 + 1 ∨ w'.1 = w.1 - 1 := by
  have hbelow (x : UInt16) (hx : r.below x = [w, w']) : w'.1 = w.1 - 1 := by
    cases hx
    show r.sp - 2 = r.sp - 1 - 1
    grind
  cases op with
  | storeStackPointer =>
    cases hs
    exact .inl rfl
  | push p | restart v => exact .inr (hbelow _ hs)
  | call c =>
    rw [effect, Effect.when] at hs
    split at hs
    · exact .inr (hbelow _ hs)
    · cases hs
  | _ => cases h

end Operation

def Access.stores (as : List Access) : List (UInt16 × UInt8) :=
  as.filterMap fun
    | .read _ => none
    | .write address v => some (address, v)

theorem Access.stores_append (as bs : List Access) : stores (as ++ bs) = stores as ++ stores bs :=
  List.filterMap_append

theorem Bus.stored {β : Type} [Bus β] :
    Bus.Law fun (b : β) as b' => b' = Bus.storeAll b (Access.stores as) where
  refl _ := rfl
  trans h h' := by
    rw [h', h, Access.stores_append]
    exact List.foldl_append.symm
  reads _ := rfl
  writes _ := rfl

namespace Processor

variable {α β : Type} [Bus β]

-- ---------------------------------------------------------------------------
-- Storing a word
-- ---------------------------------------------------------------------------

/-- If the action faults, it does so at a write of its own, before any access. -/
def Stops (x : Action (Processor β) Unit) (p : Processor β) (address : UInt16) : Prop :=
  x.Triple p (fun _ _ _ => True) fun e _ t =>
    Event.accesses t = [] ∧ e = .unmapped address .write

/-- If the action faults, it has done nothing to the bus, or the first of two writes
and is stopped by the second. -/
def Breaks (x : Action (Processor β) Unit) (p : Processor β) (ws : List (UInt16 × UInt8)) : Prop :=
  x.Triple p (fun _ _ _ => True) fun e _ t => Event.accesses t = [] ∨
    ∃ w w', ws = [w, w'] ∧ Event.accesses t = [.write w.1 w.2] ∧ e = .unmapped w'.1 .write

theorem Stops.write (address : UInt16) (v : UInt8) (p : Processor β) :
    Stops (write address v) p address := by
  cases h : Bus.writable p.bus address v with
  | false =>
    obtain ⟨t, hrun, ht⟩ := write_run_false h
    exact Action.Triple.of_run_error hrun ⟨ht, rfl⟩
  | true =>
    obtain ⟨t, hrun, -⟩ := write_run h
    exact Action.Triple.of_run hrun trivial

namespace Breaks

variable {x : Action (Processor β) Unit} {p q : Processor β} {ws : List (UInt16 × UInt8)}

omit [Bus β] in
theorem after {y : Action (Processor β) α} {f : α → Action (Processor β) Unit} {a : α}
    {t : List Event} (hy : y.run p = ⟨.ok a, q, t⟩) (ht : Event.accesses t = [])
    (hf : Breaks (f a) q ws) : Breaks (y >>= f) p ws := by
  refine Action.Triple.bind_of_run hy ?_
  simp only [Event.accesses_append, ht, List.nil_append]
  exact hf

theorem write_bind {address address' : UInt16} {v v' : UInt8}
    {f : Unit → Action (Processor β) Unit} (hf : ∀ q, Stops (f ()) q address') (p : Processor β) :
    Breaks (write address v >>= f) p [(address, v), (address', v')] := by
  cases h : Bus.writable p.bus address v with
  | false =>
    obtain ⟨t, hrun, ht⟩ := write_run_false h
    exact Action.Triple.of_run_error (Action.run_bind_error hrun) (.inl ht)
  | true =>
    obtain ⟨t, hrun, ht⟩ := write_run h
    refine Action.Triple.bind_of_run hrun (Action.Triple.mono (hf _) (fun _ _ _ h => h) ?_)
    rintro e r u ⟨hu, he⟩
    exact .inr ⟨_, _, rfl, by simp [ht, hu], he⟩

theorem push (w : UInt16) (p : Processor β) : Breaks (push w) p (p.registers.below w) := by
  have hlow (q : Processor β) : Stops (do
      write (p.registers.sp - 2) (Word.low w)
      updating fun r => { r with sp := p.registers.sp - 2 }) q (p.registers.sp - 2) :=
    Action.Triple.bind_modify (Stops.write _ _ q) _
  exact .after rfl rfl (.write_bind hlow p)

theorem callTo (target : UInt16) (p : Processor β) :
    Breaks (callTo target) p (p.registers.called target).stores :=
  .after rfl rfl (Action.Triple.bind_modify (push _ p) _)

omit [Bus β] in
theorem nothing (p : Processor β) : Breaks (pure ()) p [] := Action.Triple.of_run rfl trivial

theorem execute {d : Decoded} (h : d.operation.storesWord = true) (p : Processor β) :
    Breaks (execute d) p (d.operation.effect d.literal (Bus.peek p.bus) p.registers).stores := by
  obtain ⟨address, prefixed, opcode, operation, literal⟩ := d
  cases operation with
  | storeStackPointer => exact .after rfl rfl (.write_bind (fun q => .write _ _ q) p)
  | push a => exact .after rfl rfl (.push _ p)
  | restart v => exact .callTo _ p
  | call c =>
    refine .after (y := reading fun r => Condition.met r.flags c) rfl rfl ?_
    simp only [Operation.effect, Effect.when]
    split
    · exact .after (y := elapsing 1) rfl rfl (.callTo _ (p.elapse 1))
    · exact .nothing p
  | _ => cases h

theorem launch {d : Decoded} (h : d.operation.storesWord = true) (p : Processor β) :
    Breaks (launch d) p (d.operation.effect d.literal (Bus.peek p.bus) p.registers).stores := by
  obtain ⟨t, henter, ht⟩ := enter_run d p
  exact .after henter ht (.after rfl rfl (Action.Triple.bind_modify (execute h _) _))

end Breaks

-- ---------------------------------------------------------------------------
-- Steps
-- ---------------------------------------------------------------------------

theorem stores_eq_nil {as : List Access} {bs : List Beat}
    (has : as.map Access.place = bs.filterMap Beat.access?) (h : ∀ a, .write a ∉ bs) :
    Access.stores as = [] := by
  refine List.filterMap_eq_nil_iff.mpr fun access hmem => ?_
  cases access with
  | read address => rfl
  | write address v =>
    have hplace : (Direction.write, address) ∈ bs.filterMap Beat.access? :=
      has ▸ List.mem_map_of_mem hmem
    obtain ⟨beat, hbeat, hb⟩ := List.mem_filterMap.mp hplace
    cases beat with
    | write a =>
      cases hb
      exact absurd hbeat (h address)
    | _ => cases hb

/-- What an instruction had written when it faulted: nothing, or the first byte of a
word, whose second byte was refused. -/
def Begun (d : Decoded) (p : Processor β) (e : Fault) (as : List Access) : Prop :=
  Access.stores as = [] ∨ d.operation.storesWord = true ∧
    ∃ w w', (d.effect p.bus p.registers).stores = [w, w'] ∧ Access.stores as = [w] ∧
      e = .unmapped w'.1 .write

theorem launch_fault {d : Decoded} {p : Processor β} {e : Fault}
    (hi : d.operation.implemented = true) (hx : d.operation ≠ .extend)
    (h : ((launch d).run (p.fetched d.size)).result = .error e) :
    let o := (launch d).run (p.fetched d.size)
    let cost := o.accesses.length + d.operation.delay + d.operation.callWait p.registers.flags
    Stalled (launched d p) o.state ∧ o.state.cycles = (p.fetched d.size).cycles.add cost ∧
      d.size + cost < (d.beats p.registers).length ∧
      Begun d p e o.accesses := by
  intro o cost
  obtain ⟨hstalled, past, beat, rest, hbeats, hs, href⟩ :=
    Action.Triple.of_result_error (launch_paced d p hi hx) h
  have hshape := d.operation.shape d.literal p.registers
  have hcost : past.length = cost := by
    have hwaits := hshape.ahead.waits_append d.operation.delay past beat rest hbeats
      (by rintro rfl; exact href)
    have haccesses := congrArg List.length hs.accesses
    rw [List.length_map] at haccesses
    rw [Beat.length_eq_count, hwaits, ← haccesses, ← Nat.add_assoc]
    rfl
  refine ⟨hstalled, hcost ▸ hs.cycles, ?_, ?_⟩
  · have hlength := congrArg List.length hbeats
    rw [List.length_append, List.length_append, List.length_cons, Beat.length_waits] at hlength
    rw [← hcost, Decoded.beats, List.length_append, List.length_append, Beat.length_fetches,
      Beat.length_waits]
    omega
  · cases hw : d.operation.storesWord with
    | false =>
      rw [hw] at hshape
      exact .inl (stores_eq_nil hs.accesses (hshape.write_not_mem_waits hbeats))
    | true =>
      have hbreaks := Action.Triple.of_result_error (Breaks.launch hw (p.fetched d.size)) h
      rcases hbreaks with hnone | ⟨w, w', hws, hone, he⟩
      · exact .inl (congrArg Access.stores hnone)
      · exact .inr ⟨hw, w, w', hws, congrArg Access.stores hone, he⟩

def bytesFetched (p : Processor β) : Nat :=
  match p.decoded? with
  | some d => d.size
  | none => (step.run p).accesses.length

/-- The machine cycles of a step that faults on the bus: one for each access and,
once its instruction is decoded, those that pass before the accesses of that. -/
def faultCost (p : Processor β) : Nat :=
  match p.decoded? with
  | some d =>
    (step.run p).accesses.length + d.operation.delay + d.operation.callWait p.registers.flags
  | none => (step.run p).accesses.length

structure Account (p : Processor β) (e : Fault) : Prop where
  fetched : ((step.run p).accesses.take p.bytesFetched).map Access.place =
    (Beat.fetches p.registers.pc p.bytesFetched).filterMap Beat.access?
  pc : (step.run p).state.registers.pc = p.registers.pc + UInt16.ofNat p.bytesFetched
  cycles : (step.run p).state.cycles = p.cycles.add p.faultCost
  cost : p.faultCost ≤ 6
  written : Begun (Bus.instructionAt p.bus p.registers.pc) p e (step.run p).accesses
  decoded : p.bytesFetched < (Bus.instructionAt p.bus p.registers.pc).size ∨
    p.decoded? = some (Bus.instructionAt p.bus p.registers.pc) ∧
      p.bytesFetched = (Bus.instructionAt p.bus p.registers.pc).size

theorem size_le (d : Decoded) : d.size ≤ 4 := by
  have hopcode : d.opcodeSize ≤ 2 := by
    unfold Decoded.opcodeSize
    split <;> decide
  have hliteral : d.operation.literal.size ≤ 2 := by
    cases d.operation.literal <;> decide
  exact Nat.add_le_add hopcode hliteral

theorem account_of_undecoded {p : Processor β} {address : UInt16} {direction : Direction}
    (hnone : p.decoded? = none)
    (h : (step.run p).result = .error (.unmapped address direction)) :
    Account p (.unmapped address direction) := by
  obtain ⟨n, hn, t, hs, hrun⟩ := step_of_undecoded hnone h
  have hplaces : (step.run p).accesses.map Access.place =
      (Beat.fetches p.registers.pc n).filterMap Beat.access? := hrun ▸ hs.accesses
  have hlength : (step.run p).accesses.length = n := by
    simpa [Beat.length_filterMap_fetches] using congrArg List.length hplaces
  have hfetched : p.bytesFetched = n := by rw [bytesFetched, hnone, hlength]
  have hcost : p.faultCost = n := by rw [faultCost, hnone, hlength]
  have hsize := size_le (Bus.instructionAt p.bus p.registers.pc)
  exact {
    fetched := by rw [hfetched, ← hlength, List.take_length, hlength, hplaces]
    pc := by simp [hrun, hfetched, fetched, elapse, setRegisters]
    cycles := by simp [hrun, hcost, fetched, elapse, setRegisters]
    cost := by omega
    written := .inl <| stores_eq_nil hplaces fun a h => (Beat.access_of_mem_fetches h).2 a rfl
    decoded := .inl (hfetched ▸ hn) }

theorem account_of_decoded {p : Processor β} {d : Decoded} {e : Fault}
    (hsome : p.decoded? = some d) (h : (step.run p).result = .error e) : Account p e := by
  obtain ⟨hd, hi, -⟩ := decoded?_eq_some_iff.mp hsome
  obtain ⟨t, hs, hrun⟩ := step_of_decoded hsome
  have hx : d.operation ≠ .extend := hd ▸ Bus.instructionAt_ne_extend _ _
  have hlaunch : ((launch d).run (p.settle.fetched d.size)).result = .error e := by
    rw [hrun] at h
    exact h
  obtain ⟨hstalled, hcycles, hle, hbegun⟩ := launch_fault hi hx hlaunch
  have haccesses : (step.run p).accesses =
      Event.accesses t ++ ((launch d).run (p.settle.fetched d.size)).accesses := by
    rw [hrun]
    exact Event.accesses_append _ _
  have hlength : (Event.accesses t).length = d.size := by
    simpa [Beat.length_filterMap_fetches] using congrArg List.length hs.accesses
  have hfetched : p.bytesFetched = d.size := by rw [bytesFetched, hsome]
  have hcost : p.faultCost = d.size + (((launch d).run (p.settle.fetched d.size)).accesses.length +
      d.operation.delay + d.operation.callWait p.settle.registers.flags) := by
    rw [faultCost, hsome, haccesses, List.length_append, hlength, registers_settle]
    simp only [Nat.add_assoc]
  have hwritten : Access.stores (step.run p).accesses =
      Access.stores ((launch d).run (p.settle.fetched d.size)).accesses := by
    have hnil : Access.stores (Event.accesses t) = [] :=
      stores_eq_nil hs.accesses fun a h => (Beat.access_of_mem_fetches h).2 a rfl
    rw [haccesses, Access.stores_append, hnil, List.nil_append]
  subst hd
  exact {
    fetched := by
      rw [hfetched, haccesses, ← hlength, List.take_left, hlength]
      exact hs.accesses
    pc := by
      obtain ⟨bus, cycles, hq⟩ := hstalled
      rw [hrun, hfetched, hq, ← registers_settle p]
      exact congrArg Registers.pc (Operation.aim_pc _ p.settle.registers _)
    cycles := by
      rw [hrun, hcost, ← Cycles.add_add, ← cycles_settle p]
      exact hcycles
    cost := by
      have hbeats := Bus.length_beats_le p.bus p.registers.pc p.settle.registers hi
      omega
    written := by
      rw [Begun, hwritten]
      simpa [Begun] using hbegun
    decoded := .inr ⟨hsome, hfetched⟩ }

theorem account {p : Processor β} {address : UInt16} {direction : Direction}
    (h : (step.run p).result = .error (.unmapped address direction)) :
    Account p (.unmapped address direction) := by
  cases hd : p.decoded? with
  | none => exact account_of_undecoded hd h
  | some d => exact account_of_decoded hd h

end Processor

namespace Console

theorem stored_of_writesLine {as : List Access} (h : WritesLine as) :
    ∃ v, (0xFF44, v) ∈ Access.stores as := by
  obtain ⟨access, hmem, hplace⟩ := List.mem_map.mp h
  cases access with
  | read a => cases hplace
  | write a v =>
    cases hplace
    exact ⟨v, List.mem_filterMap.mpr ⟨_, hmem, rfl⟩⟩

/-- The line counter is not written by an instruction that then faults: none of its
neighbours is a hole. -/
theorem not_writesLine {p : Processor MemoryMap} {address : UInt16} {direction : Direction}
    (h : (Processor.step.run p).result = .error (.unmapped address direction)) :
    ¬WritesLine (Processor.step.run p).accesses := by
  intro hline
  obtain ⟨v, hv⟩ := stored_of_writesLine hline
  rcases (Processor.account h).written with hnone | ⟨hop, w, w', hws, hone, he⟩
  · rw [hnone] at hv
    cases hv
  · obtain rfl : (0xFF44, v) = w := List.mem_singleton.mp (hone ▸ hv)
    obtain ⟨rfl, rfl⟩ : address = w'.1 ∧ direction = .write := by simpa using he
    have hfind := (Processor.result_unmapped_iff .memoryMap p .write w'.1).mp h
    have hhole : MemoryMap.Hole w'.1 := by simpa using List.find?_some hfind
    have hup : ¬MemoryMap.Hole (0xFF44 + 1) := by decide
    have hdown : ¬MemoryMap.Hole (0xFF44 - 1) := by decide
    rcases Operation.stores_adjacent hop hws with hnext | hnext
    · exact hup (hnext ▸ hhole)
    · exact hdown (hnext ▸ hhole)

/-- A step of the processor that faults on the bus has moved the program counter over
the bytes that it fetched, and counted its accesses and the waits before them, and no
instruction. All that it has done to the bus is to write, if anything, the first byte
of a word. A step of the console ends in the same fault, with the clock of the picture
unit as much further as the processor's. -/
theorem bus_fault_costs (c : Console) {address : UInt16} {direction : Direction}
    (h : (Processor.step.run c.processor).result = .error (.unmapped address direction)) :
    let p := c.processor
    let o := Processor.step.run p
    let d := Bus.instructionAt p.bus p.registers.pc
    let n := p.bytesFetched
    let m := p.faultCost
    ((o.accesses.take n).map Access.place =
        (Beat.fetches p.registers.pc n).filterMap Beat.access? ∧
      (n < d.size ∨ p.decoded? = some d ∧ n = d.size)) ∧
    o.state.registers.pc = p.registers.pc + UInt16.ofNat n ∧
    o.state.cycles.m = p.cycles.m + UInt64.ofNat m ∧
    o.state.cycles.t = p.cycles.t + UInt64.ofNat (4 * m) ∧
    o.state.instructions = p.instructions ∧
    o.state.bus = Bus.storeAll p.bus (Access.stores o.accesses) ∧
    (Access.stores o.accesses = [] ∨ d.operation.storesWord = true ∧
      ∃ w w', (d.effect p.bus p.registers).stores = [w, w'] ∧ Access.stores o.accesses = [w] ∧
        direction = .write ∧ address = w'.1) ∧
    (step.run c).result = .error (.unmapped address direction) ∧
    (step.run c).state = { c with processor :=
      { o.state with bus := advancePicture (UInt64.ofNat (4 * m)) o.state.bus } } ∧
    (c.picture.dots < Picture.dotsPerFrame →
      (step.run c).state.picture.dots.toNat = (c.picture.dots.toNat + 4 * m) % 70224) := by
  intro p o d n m
  have haccount := Processor.account h
  have hm : m ≤ 6 := haccount.cost
  have ht : o.state.cycles.t = p.cycles.t + UInt64.ofNat (4 * m) := by
    rw [haccount.cycles, Cycles.add, Nat.mul_comm, UInt64.ofNat_mul]
    rfl
  have helapsed : o.state.cycles.t - p.cycles.t = UInt64.ofNat (4 * m) := by
    rw [ht, UInt64.add_comm, UInt64.add_sub_cancel]
  have hrun : o = ⟨.error (.unmapped address direction), o.state, o.trail⟩ := by rw [← h]
  have hstep := step_run hrun helapsed
  refine ⟨⟨haccount.fetched, haccount.decoded⟩, haccount.pc, congrArg Cycles.m haccount.cycles, ht,
    Processor.instructions_of_error h, (Processor.busLaw Bus.stored).step p, ?_, ?_, ?_, ?_⟩
  · rcases haccount.written with hnone | ⟨hop, w, w', hws, hone, he⟩
    · exact .inl hnone
    · cases he
      exact .inr ⟨hop, w, w', hws, hone, rfl, rfl⟩
  · rw [hstep]
    rfl
  · rw [hstep]
  · intro hdots
    have hkept : o.state.bus.picture.dots = c.picture.dots :=
      ((Processor.busLaw MemoryMap.dots_law).step p).trans (if_neg (not_writesLine h))
    have hnat : (UInt64.ofNat (4 * m)).toUInt32.toNat = 4 * m := by
      rw [UInt64.toUInt32_ofNat', UInt32.toNat_ofNat']
      exact Nat.mod_eq_of_lt (by omega)
    rw [hstep]
    show (o.state.bus.picture.advance (UInt64.ofNat (4 * m)).toUInt32).dots.toNat = _
    rw [Picture.toNat_dots_advance (by rwa [hkept]), hnat, hkept]

def callingAtEdge : Console where
  processor :=
    { bus := .new ⟨#[0xCD, 0x40, 0x00]⟩ none, registers := { sp := 0xC001 } }
  viewport := ⟨1, 1⟩

theorem bus_fault_costs_callingAtEdge :
    let o := Processor.step.run callingAtEdge.processor
    o.result = .error (.unmapped 0xBFFF .write) ∧ o.state.registers.pc = 0x0003 ∧
      o.state.cycles.m = 5 ∧ o.state.cycles.t = 20 ∧
      o.state.bus = Bus.store callingAtEdge.processor.bus 0xC000 0x00 ∧
      (step.run callingAtEdge).state.picture.dots.toNat = 20 := by
  intro o
  have h : (Processor.step.run callingAtEdge.processor).result =
      .error (.unmapped 0xBFFF .write) := rfl
  have hfetched : callingAtEdge.processor.bytesFetched = 3 := by decide +kernel
  have hcost : callingAtEdge.processor.faultCost = 5 := by decide +kernel
  have hdots : callingAtEdge.picture.dots < Picture.dotsPerFrame := by decide
  obtain ⟨-, hpc, hm, ht, -, hbus, -, -, -, hpicture⟩ := bus_fault_costs callingAtEdge h
  rw [hfetched] at hpc
  rw [hcost] at hm ht hpicture
  exact ⟨h, hpc, hm, ht, hbus, hpicture hdots⟩

end Console

end Handheld
