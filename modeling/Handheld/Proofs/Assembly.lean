import Handheld.Proofs.ControlFlow
import Handheld.Proofs.Faults
import Handheld.Proofs.PlainMemory
import Handheld.Proofs.Tracing

/-!
# Assembled programs

An instruction is assembled into its bytes, and a program into those of its
instructions, one after the other. A program without transfers of control that does
not store into itself is executed as it was written, wherever it lies in plain
memory.
-/

namespace Handheld

open Processor (decode operationOf step traceEntry)

-- ---------------------------------------------------------------------------
-- Assembling
-- ---------------------------------------------------------------------------

def Literal.bytes : Literal → List UInt8
  | .none => []
  | .byte v => [v]
  | .word w => [Word.high w, Word.low w]

@[simp] theorem Literal.length_bytes (l : Literal) : l.bytes.length = l.kind.size := by
  cases l <;> rfl

namespace Opcode

/-- The bytes of an instruction, which begin with the extension byte if its opcode is one
of the second table. -/
def bytes (prefixed : Bool) (opcode : UInt8) (l : Literal) : List UInt8 :=
  (if prefixed then [extension] else []) ++ opcode :: l.bytes

theorem length_bytes (prefixed : Bool) (opcode : UInt8) (l : Literal) :
    (bytes prefixed opcode l).length = (if prefixed then 2 else 1) + l.kind.size := by
  rw [bytes, List.length_append, List.length_cons, Literal.length_bytes, Nat.add_comm _ 1,
    ← Nat.add_assoc]
  cases prefixed <;> rfl

end Opcode

def Decoded.bytes (d : Decoded) : List UInt8 := Opcode.bytes d.prefixed d.opcode d.literal

/-- An instruction that can be executed and leaves control at the byte after it. -/
structure Instruction where
  prefixed : Bool
  opcode : UInt8
  literal : Literal
  ne_extension : prefixed = false → opcode ≠ Opcode.extension
  implemented : (operationOf prefixed opcode).implemented = true
  straight : (operationOf prefixed opcode).transfers = false
  literal_kind : literal.kind = (operationOf prefixed opcode).literal

namespace Instruction

def operation (i : Instruction) : Operation := operationOf i.prefixed i.opcode

def decodedAt (i : Instruction) (address : UInt16) : Decoded :=
  { address, prefixed := i.prefixed, opcode := i.opcode, operation := i.operation
    literal := i.literal }

def bytes (i : Instruction) : List UInt8 := Opcode.bytes i.prefixed i.opcode i.literal

theorem length_bytes (i : Instruction) (address : UInt16) :
    i.bytes.length = (i.decodedAt address).size := by
  rw [bytes, Opcode.length_bytes, i.literal_kind]
  rfl

def assemble (program : List Instruction) : List UInt8 := program.flatMap bytes

/-- The instructions of a program, each at the address where the one before it ends. -/
def located (origin : UInt16) : List Instruction → List Decoded
  | [] => []
  | i :: is => i.decodedAt origin :: located (origin + UInt16.ofNat i.bytes.length) is

theorem assemble_append (program rest : List Instruction) :
    assemble (program ++ rest) = assemble program ++ assemble rest := List.flatMap_append

theorem length_located (origin : UInt16) (program : List Instruction) :
    (located origin program).length = program.length := by
  induction program generalizing origin with
  | nil => rfl
  | cons i is ih => exact congrArg (· + 1) (ih _)

theorem getElem?_located (origin : UInt16) (program : List Instruction) (k : Nat) :
    (located origin program)[k]? = program[k]?.map fun i =>
      i.decodedAt (origin + UInt16.ofNat (assemble (program.take k)).length) := by
  induction program generalizing origin k with
  | nil => rfl
  | cons i is ih =>
    cases k with
    | zero => exact congrArg (fun a => some (i.decodedAt a)) (UInt16.add_zero origin).symm
    | succ k =>
      have hlength : (assemble ((i :: is).take (k + 1))).length =
          i.bytes.length + (assemble (is.take k)).length := List.length_append
      rw [hlength, UInt16.ofNat_add, ← UInt16.add_assoc]
      exact ih _ k

end Instruction

-- ---------------------------------------------------------------------------
-- Bytes on a bus
-- ---------------------------------------------------------------------------

namespace Bus

variable {β : Type} [Bus β] {b : β} {a : UInt16} {v : UInt8} {vs ws : List UInt8}

def Holds (b : β) (a : UInt16) (vs : List UInt8) : Prop :=
  ∀ i v, vs[i]? = some v → peek b (a + UInt16.ofNat i) = v

theorem Holds.left (h : Holds b a (vs ++ ws)) : Holds b a vs := by
  intro i v hv
  have hi : i < vs.length := (List.getElem?_eq_some_iff.mp hv).1
  exact h i v ((List.getElem?_append_left hi).trans hv)

theorem Holds.right (h : Holds b a (vs ++ ws)) : Holds b (a + UInt16.ofNat vs.length) ws := by
  intro i v hv
  rw [UInt16.add_assoc, ← UInt16.ofNat_add]
  refine h (vs.length + i) v ?_
  rw [List.getElem?_append_right (Nat.le_add_right _ _), Nat.add_sub_cancel_left, hv]

theorem Holds.head (h : Holds b a (v :: vs)) : peek b a = v := by
  have hv := h 0 v rfl
  rwa [show UInt16.ofNat 0 = 0 from rfl, UInt16.add_zero] at hv

theorem Holds.tail (h : Holds b a (v :: vs)) : Holds b (a + 1) vs := by
  have happend : Holds b a ([v] ++ vs) := h
  exact happend.right

theorem Holds.cons (hv : peek b a = v) (h : Holds b (a + 1) vs) : Holds b a (v :: vs) := by
  intro i w hw
  cases i with
  | zero =>
    obtain rfl : v = w := Option.some.inj hw
    rwa [show UInt16.ofNat 0 = 0 from rfl, UInt16.add_zero]
  | succ i =>
    show peek b (a + UInt16.ofNat (i + 1)) = w
    rw [UInt16.ofNat_add, UInt16.add_comm (UInt16.ofNat i), ← UInt16.add_assoc]
    exact h i w hw

theorem holds_nil : Holds b a [] := fun _ _ h => nomatch h

theorem Holds.congr {b' : β} (h : Holds b a vs)
    (hpeek : ∀ c : UInt16, (c - a).toNat < vs.length → peek b' c = peek b c) :
    Holds b' a vs := by
  intro i v hv
  have hi : i < vs.length := (List.getElem?_eq_some_iff.mp hv).1
  rw [hpeek, h i v hv]
  rw [UInt16.add_comm, UInt16.add_sub_cancel, UInt16.toNat_ofNat']
  exact Nat.lt_of_le_of_lt (Nat.mod_le _ _) hi

theorem literalAt_of_holds {l : Literal} (h : Holds b a l.bytes) : literalAt b a l.kind = l := by
  cases l with
  | none => rfl
  | byte v => exact congrArg Literal.byte h.head
  | word w =>
    show Literal.word (Word.ofBytes (peek b a) (peek b (a + 1))) = .word w
    rw [h.head, h.tail.head, Word.ofBytes_high_low]

theorem instructionAt_of_holds {i : Instruction} (h : Holds b a i.bytes) :
    instructionAt b a = i.decodedAt a := by
  obtain ⟨prefixed, opcode, literal, hne, himplemented, hstraight, hkind⟩ := i
  cases prefixed with
  | true =>
    have hbytes : Holds b a (Opcode.extension :: opcode :: literal.bytes) := h
    have hnone : literal.kind = .none := hkind.trans (Operation.extended_literal opcode)
    rw [instructionAt_of_extension hbytes.head, hbytes.tail.head]
    cases literal with
    | none => rfl
    | _ => cases hnone
  | false =>
    have hbytes : Holds b a (opcode :: literal.bytes) := h
    have hliteral := literalAt_of_holds hbytes.tail
    rw [hkind] at hliteral
    rw [instructionAt_of_ne (hbytes.head ▸ hne rfl), hbytes.head]
    exact congrArg (Decoded.mk a false opcode (.primary opcode)) hliteral

end Bus

namespace FlatMemory

theorem holds_load (m : FlatMemory) (origin : UInt16) {vs : List UInt8} (h : vs.length ≤ 65536) :
    Bus.Holds (m.load origin vs) origin vs := by
  intro i v hv
  have hi : i < vs.length := (List.getElem?_eq_some_iff.mp hv).1
  show (m.load origin vs).peek (origin + UInt16.ofNat i) = v
  rw [peek_load m origin h, UInt16.add_comm, UInt16.add_sub_cancel, UInt16.toNat_ofNat',
    Nat.mod_eq_of_lt (Nat.lt_of_lt_of_le hi h), List.getD, hv]
  rfl

theorem unwritten : Bus.Law fun (m : FlatMemory) as m' =>
    ∀ a, (∀ v, .write a v ∉ as) → m'.peek a = m.peek a where
  refl _ _ _ := rfl
  trans h h' a ha := by
    simp only [List.mem_append, not_or, forall_and] at ha
    rw [h' a ha.2, h a ha.1]
  reads _ _ _ := rfl
  writes {m address v} _ a ha := by
    have hne : address ≠ a := by
      rintro rfl
      exact ha v (List.mem_singleton_self _)
    show (m.poke address v).peek a = m.peek a
    rw [peek_poke, if_neg hne]

end FlatMemory

-- ---------------------------------------------------------------------------
-- Running
-- ---------------------------------------------------------------------------

namespace Instruction

variable {p : Processor FlatMemory}

/-- An instruction whose bytes are at the program counter is decoded and executed. -/
theorem step_assembled {i : Instruction} (h : Bus.Holds p.bus p.registers.pc i.bytes) :
    (step.run p).result = .ok () ∧
      (decode.run p.settle).result = .ok (i.decodedAt p.registers.pc) ∧
      (step.run p).state.registers.pc = p.registers.pc + UInt16.ofNat i.bytes.length ∧
      (step.run p).state.trace = p.trace.push (traceEntry (i.decodedAt p.registers.pc)) := by
  have hd := Bus.instructionAt_of_holds h
  have hok : (step.run p).result = .ok () := by
    have hnone : p.attempts.find? (fun _ => decide False) = none :=
      @Processor.find?_hole_eq_none (fun _ => False) _ _ fun _ _ hhole => hhole
    rw [Processor.result_step .flatMemory p, Processor.verdict, hnone, hd]
    exact if_pos i.implemented
  refine ⟨hok, ?_, ?_, ?_⟩
  · obtain ⟨t, hdecode⟩ := Processor.decode_run_of_ok hd i.implemented hok
    rw [hdecode]
  · rw [Processor.step_effect hd hok, length_bytes i p.registers.pc]
    exact Operation.pc_effect i.straight _ _ _
  · rw [Processor.step_effect hd hok]

theorem outside_tail {a origin : UInt16} {m n : Nat} (h : m + n ≤ (a - origin).toNat) :
    n ≤ (a - (origin + UInt16.ofNat m)).toNat := by
  -- the distance is below 65536, so `m` is, and nothing wraps
  have hlt := (a - origin).toNat_lt
  have hm : (UInt16.ofNat m).toNat = m := by
    rw [UInt16.toNat_ofNat']
    omega
  have hsub : a - (origin + UInt16.ofNat m) = a - origin - UInt16.ofNat m := by
    simp only [UInt16.sub_eq_add_neg, UInt16.neg_add, UInt16.add_assoc]
  rw [hsub, UInt16.toNat_sub_of_le _ _ (UInt16.le_iff_toNat_le.mpr (by omega)), hm]
  omega

theorem holds_tail {i : Instruction} {is : List Instruction}
    (h : Bus.Holds p.bus p.registers.pc (assemble (i :: is)))
    (hstores : ∀ a v, .write a v ∈ (step.run p).accesses →
      (assemble (i :: is)).length ≤ (a - p.registers.pc).toNat) :
    Bus.Holds (step.run p).state.bus (step.run p).state.registers.pc (assemble is) := by
  have hkept : Bus.Holds (step.run p).state.bus p.registers.pc (assemble (i :: is)) := by
    refine h.congr fun c hc => ?_
    refine (Processor.busLaw FlatMemory.unwritten).step p c fun v hv => ?_
    exact Nat.not_le_of_lt hc (hstores c v hv)
  rw [(step_assembled (i := i) h.left).2.2.1]
  exact hkept.right

/-- A program is executed instruction by instruction. The induction is on the
program, of which the rest is at the program counter after each step. -/
theorem run_assembled {program : List Instruction}
    (h : Bus.Holds p.bus p.registers.pc (assemble program))
    (hstores : ∀ a v, .write a v ∈ step.traffic program.length p →
      (assemble program).length ≤ (a - p.registers.pc).toNat) :
    let ds := located p.registers.pc program
    (∀ k < program.length, (step.run (step.after k p)).result = .ok ()) ∧
      (∀ k d, ds[k]? = some d → (decode.run (step.after k p).settle).result = .ok d) ∧
      (step.after program.length p).registers.pc =
        p.registers.pc + UInt16.ofNat (assemble program).length ∧
      (step.after program.length p).trace = (ds.map traceEntry).foldl Trace.push p.trace := by
  induction program generalizing p with
  | nil =>
    refine ⟨nofun, fun k d hd => ?_, (UInt16.add_zero _).symm, rfl⟩
    cases hd
  | cons i is ih =>
    obtain ⟨hok, hdecode, hpc, htrace⟩ := step_assembled (i := i) h.left
    have hlength : (assemble (i :: is)).length = i.bytes.length + (assemble is).length :=
      List.length_append
    have hfirst (a v) (hv : .write a v ∈ (step.run p).accesses) :
        (assemble (i :: is)).length ≤ (a - p.registers.pc).toNat :=
      hstores a v (List.mem_append_left _ hv)
    have hrest (a v) (hv : .write a v ∈ step.traffic is.length (step.run p).state) :
        (assemble is).length ≤ (a - (step.run p).state.registers.pc).toNat := by
      rw [hpc]
      exact outside_tail (hlength ▸ hstores a v (List.mem_append_right _ hv))
    obtain ⟨hoks, hdecodes, hpcs, htraces⟩ := ih (holds_tail h hfirst) hrest
    rw [hpc] at hdecodes hpcs htraces
    refine ⟨?_, ?_, ?_, ?_⟩
    · rintro (_ | k) hk
      · exact hok
      · exact hoks k (Nat.lt_of_succ_lt_succ hk)
    · rintro (_ | k) d hd
      · cases hd
        exact hdecode
      · exact hdecodes k d hd
    · rw [hlength, UInt16.ofNat_add, ← UInt16.add_assoc]
      exact hpcs
    · rw [htrace] at htraces
      exact htraces

/-- A program that was assembled and loaded at the program counter is decoded and
executed instruction by instruction, for as long as no step stores into it. Whatever
the registers and the rest of memory are, the steps succeed, each one decodes the
instruction that was written there, and the program counter moves past it. -/
theorem executes_assembled {program : List Instruction} {origin : UInt16} {m : FlatMemory}
    (hlength : (assemble program).length ≤ 65536)
    (hbus : p.bus = m.load origin (assemble program)) (hpc : p.registers.pc = origin)
    {n : Nat} (hn : n ≤ program.length)
    (hstores : ∀ a v, .write a v ∈ step.traffic n p →
      (assemble program).length ≤ (a - origin).toNat) :
    (∀ k (hk : k < n), (step.run (step.after k p)).result = .ok () ∧
      (decode.run (step.after k p).settle).result = .ok
        (program[k].decodedAt (origin + UInt16.ofNat (assemble (program.take k)).length))) ∧
    (step.after n p).registers.pc =
      origin + UInt16.ofNat (assemble (program.take n)).length ∧
    (p.trace.size + n ≤ p.trace.capacity →
      (step.after n p).trace.toList =
        p.trace.toList ++ (located origin (program.take n)).map traceEntry) := by
  subst hpc
  have hsplit : assemble program = assemble (program.take n) ++ assemble (program.drop n) := by
    rw [← assemble_append, List.take_append_drop]
  have htake : (program.take n).length = n := List.length_take_of_le hn
  have hholds : Bus.Holds p.bus p.registers.pc (assemble (program.take n)) := by
    have hall := FlatMemory.holds_load m p.registers.pc hlength
    rw [← hbus, hsplit] at hall
    exact hall.left
  have houtside (a v) (hv : .write a v ∈ step.traffic (program.take n).length p) :
      (assemble (program.take n)).length ≤ (a - p.registers.pc).toNat := by
    rw [htake] at hv
    refine Nat.le_trans ?_ (hstores a v hv)
    rw [hsplit, List.length_append]
    exact Nat.le_add_right _ _
  obtain ⟨hoks, hdecodes, hpc, htrace⟩ := run_assembled hholds houtside
  rw [htake] at hoks hpc htrace
  refine ⟨fun k hk => ⟨hoks k hk, hdecodes k _ ?_⟩, hpc, fun hroom => ?_⟩
  · rw [getElem?_located, List.getElem?_take_of_lt hk, List.take_take,
      Nat.min_eq_left (Nat.le_of_lt hk), List.getElem?_eq_getElem (Nat.lt_of_lt_of_le hk hn)]
    rfl
  · rw [htrace]
    refine Trace.toList_foldl_push ?_
    rwa [List.length_map, length_located, htake]

/-- A byte, a word, an instruction of the second table and a store. -/
def mixed : List Instruction :=
  [⟨false, 0x06, .byte 0x12, by decide, rfl, rfl, rfl⟩,
    ⟨false, 0x21, .word 0x0020, by decide, rfl, rfl, rfl⟩,
    ⟨true, 0x30, .none, nofun, rfl, rfl, rfl⟩,
    ⟨false, 0x70, .none, by decide, rfl, rfl, rfl⟩]

def atMixed : Processor FlatMemory :=
  { bus := .withProgram 0x0010 (assemble mixed), registers := { pc := 0x0010 } }

theorem executes_assembled_mixed :
    (∀ (a : UInt16) v, .write a v ∈ step.traffic 4 atMixed →
        (assemble mixed).length ≤ (a - 0x0010).toNat) ∧
      (decode.run (step.after 2 atMixed).settle).result =
        .ok ⟨0x0015, true, 0x30, .shift .swap (.register .b), .none⟩ ∧
      (step.after 4 atMixed).registers.pc = 0x0018 ∧
      (step.after 4 atMixed).trace.toList.map (·.address) = [0x0010, 0x0012, 0x0015, 0x0017] := by
  have htraffic : step.traffic 4 atMixed =
      [.read 0x0010, .read 0x0011, .read 0x0012, .read 0x0013, .read 0x0014, .read 0x0015,
        .read 0x0016, .read 0x0017, .write 0x0020 0x21] := by
    decide +kernel
  have hstores (a : UInt16) (v) (h : .write a v ∈ step.traffic 4 atMixed) :
      (assemble mixed).length ≤ (a - 0x0010).toNat := by
    rw [htraffic] at h
    obtain ⟨rfl, rfl⟩ : a = 0x0020 ∧ v = 0x21 := by simpa using h
    decide
  have hlength : (assemble mixed).length ≤ 65536 := by
    rw [show (assemble mixed).length = 8 from rfl]
    decide
  have hbus : atMixed.bus = FlatMemory.zeros.load 0x0010 (assemble mixed) := rfl
  obtain ⟨hsteps, hpc, htrace⟩ := executes_assembled hlength hbus rfl (Nat.le_refl 4) hstores
  have hdecoded : mixed[2].decodedAt (0x0010 + UInt16.ofNat (assemble (mixed.take 2)).length) =
      ⟨0x0015, true, 0x30, .shift .swap (.register .b), .none⟩ := by decide
  refine ⟨hstores, (hsteps 2 (by decide)).2.trans (congrArg _ hdecoded), hpc.trans (by decide), ?_⟩
  rw [htrace (by decide)]
  rfl

end Instruction

end Handheld
