import Handheld.FlatMemory
import Handheld.Proofs.Layout
import Handheld.Proofs.Replay
import Handheld.Proofs.Stepping

/-!
# When a step faults

On a bus whose holes never move, the outcome of a step can be told before it is
taken. The accesses of the instruction are known, and the first one that hits a
hole is the one that faults. If none does, the only fault left is that of a byte
that stands for no instruction.
-/

namespace Handheld

namespace Opcode

def unassigned : List UInt8 :=
  [0x10, 0x76, 0xD3, 0xDB, 0xDD, 0xE3, 0xE4, 0xEB, 0xEC, 0xED, 0xF4, 0xFC, 0xFD]

end Opcode

theorem Operation.primary_unimplemented_iff :
    ∀ opcode : UInt8, (primary opcode).implemented = false ↔ opcode ∈ Opcode.unassigned := by
  decide +kernel

namespace Bus

variable {β : Type} [Bus β]

/-- The bus refuses reads and writes at the holes, and nowhere else. -/
structure HolesAt (β : Type) [Bus β] (hole : UInt16 → Prop) : Prop where
  read? (b : β) (address : UInt16) : Bus.read? b address = none ↔ hole address
  writable (b : β) (address : UInt16) (v : UInt8) : Bus.writable b address v = false ↔ hole address

theorem HolesAt.memoryMap : HolesAt MemoryMap MemoryMap.Hole where
  read? m address := Option.map_eq_none_iff.trans Place.ofAddress?_eq_none_iff
  writable m address v := by
    rw [← Place.ofAddress?_eq_none_iff, ← Option.not_isSome_iff_eq_none, Bool.not_eq_true]
    rfl

theorem HolesAt.flatMemory : HolesAt FlatMemory fun _ => False where
  read? _ _ := ⟨nofun, False.elim⟩
  writable _ _ _ := ⟨nofun, False.elim⟩

theorem HolesAt.of_replay {hole : UInt16 → Prop} (hb : HolesAt β hole) {b b' : β}
    {as : List Access} (h : replay b as = some b') : ∀ a ∈ as, ¬hole a.place.2 := by
  refine replay_law (R := fun _ as _ => ∀ a ∈ as, ¬hole a.place.2) ⟨⟨nofun, ?_⟩, ?_, ?_⟩ h
  · intro _ _ _ as bs h h' a ha
    exact (List.mem_append.mp ha).elim (h a) (h' a)
  · intro b address hr
    refine List.forall_mem_singleton.mpr fun hh => ?_
    rw [(hb.read? b address).mpr hh] at hr
    cases hr
  · intro b address v hw
    refine List.forall_mem_singleton.mpr fun hh => ?_
    rw [(hb.writable b address v).mpr hh] at hw
    cases hw

theorem unimplemented_iff {b : β} {address : UInt16} {opcode : UInt8} :
    (instructionAt b address).operation.implemented = false ∧
        (instructionAt b address).opcode = opcode ↔
      read? b address = some opcode ∧ opcode ∈ Opcode.unassigned := by
  constructor
  · rintro ⟨hi, rfl⟩
    obtain ⟨hr, -, hop⟩ := Processor.read?_of_unimplemented rfl hi
    rw [hop, Operation.primary_unimplemented_iff] at hi
    exact ⟨hr, hi⟩
  · rintro ⟨hr, hm⟩
    have hx : peek b address ≠ Opcode.extension := by
      rw [peek_of_read? hr]
      rintro rfl
      revert hm
      decide
    rw [instructionAt_of_ne hx, peek_of_read? hr]
    exact ⟨(Operation.primary_unimplemented_iff opcode).mpr hm, rfl⟩

end Bus

namespace Processor

variable {β : Type} [Bus β]

/-- The accesses of the instruction at the program counter, in their order. -/
def attempts (p : Processor β) : List (Direction × UInt16) :=
  ((Bus.instructionAt p.bus p.registers.pc).beats p.registers).filterMap Beat.access?

/-- How a step ends if the bus has its holes at the given addresses. -/
def verdict (hole : UInt16 → Prop) [DecidablePred hole] (p : Processor β) : Except Fault Unit :=
  match p.attempts.find? fun a => hole a.2 with
  | some (direction, address) => .error (.unmapped address direction)
  | none =>
    if (Bus.instructionAt p.bus p.registers.pc).operation.implemented then .ok ()
    else
      .error (.unimplemented (Bus.instructionAt p.bus p.registers.pc).opcode p.registers.pc)

theorem find?_hole_eq_none {hole : UInt16 → Prop} [DecidablePred hole]
    {as : List (Direction × UInt16)} (h : ∀ a ∈ as, ¬hole a.2) :
    as.find? (fun a => hole a.2) = none :=
  List.find?_eq_none.mpr fun a ha => by simpa using h a ha

section
variable {hole : UInt16 → Prop} [DecidablePred hole] (hb : Bus.HolesAt β hole) (p : Processor β)

include hb

omit [DecidablePred hole] in
theorem accesses_mapped : ∀ a ∈ (step.run p).accesses.map Access.place, ¬hole a.2 := by
  intro _ h
  obtain ⟨a, ha, rfl⟩ := List.mem_map.mp h
  exact hb.of_replay (step_replays p) a ha

omit [DecidablePred hole] in
theorem hole_of_refused {b : β} {beat : Beat} {e : Fault} (h : beat.Refused b e) :
    ∃ direction address, beat.access? = some (direction, address) ∧ hole address ∧
      e = .unmapped address direction := by
  cases beat with
  | wait => exact h.elim
  | read address => exact ⟨.read, address, rfl, (hb.read? b address).mp h.1, h.2⟩
  | write address =>
    obtain ⟨⟨v, hv⟩, he⟩ := h
    exact ⟨.write, address, rfl, (hb.writable b address v).mp hv, he⟩

theorem result_step : (step.run p).result = verdict hole p := by
  generalize hd : Bus.instructionAt p.bus p.registers.pc = d
  have hmapped := accesses_mapped hb p
  unfold verdict attempts
  simp only [hd]
  -- in all three cases the accesses that were completed come first, and hit no hole
  cases hi : d.operation.implemented with
  | false =>
    obtain ⟨t, hrun, ht⟩ := step_unimplemented p hd hi
    rw [hrun] at hmapped ⊢
    simp only [Outcome.accesses, ht] at hmapped
    have hnone : [(Direction.read, p.registers.pc)].find? (fun a => hole a.2) = none :=
      find?_hole_eq_none hmapped
    rw [beats_of_unimplemented hd hi]
    simp only [Beat.access?, List.filterMap_cons, List.filterMap_nil, hnone]
    rfl
  | true =>
    have hpaced := step_paced p hd hi
    rcases hrun : step.run p with ⟨e | u, q, t⟩
    · obtain ⟨-, past, beat, rest, hbeats, hs, href⟩ := hpaced.error hrun
      obtain ⟨direction, address, hbeat, hh, rfl⟩ := hole_of_refused hb href
      rw [hrun] at hmapped
      simp only [Outcome.accesses, hs.accesses] at hmapped
      rw [hbeats, List.filterMap_append, List.find?_append, find?_hole_eq_none hmapped,
        List.filterMap_cons_some hbeat, List.find?_cons_of_pos (by simpa using hh)]
      rfl
    · obtain ⟨hs, -⟩ := hpaced.ok hrun
      rw [hrun] at hmapped
      simp only [Outcome.accesses, hs.accesses] at hmapped
      rw [find?_hole_eq_none hmapped]
      rfl

theorem find?_attempts_of_unimplemented
    (hi : (Bus.instructionAt p.bus p.registers.pc).operation.implemented = false) :
    p.attempts.find? (fun a => hole a.2) = none := by
  obtain ⟨hr, -, -⟩ := read?_of_unimplemented rfl hi
  refine find?_hole_eq_none fun a ha => ?_
  rw [attempts, beats_of_unimplemented rfl hi] at ha
  obtain rfl : a = (.read, p.registers.pc) := by simpa [Beat.access?] using ha
  intro hh
  rw [(hb.read? p.bus p.registers.pc).mpr hh] at hr
  cases hr

theorem result_unmapped_iff (direction : Direction) (address : UInt16) :
    (step.run p).result = .error (.unmapped address direction) ↔
      p.attempts.find? (fun a => hole a.2) = some (direction, address) := by
  rw [result_step hb p, verdict]
  split
  · rename_i h
    rw [h]
    simp only [Except.error.injEq, Fault.unmapped.injEq, Option.some.injEq, Prod.mk.injEq]
    exact and_comm
  · rename_i h
    rw [h]
    split <;> simp

theorem result_unimplemented_iff (opcode : UInt8) (pc : UInt16) :
    (step.run p).result = .error (.unimplemented opcode pc) ↔
      pc = p.registers.pc ∧ Bus.read? p.bus pc = some opcode ∧ opcode ∈ Opcode.unassigned := by
  rw [result_step hb p, verdict]
  constructor
  · intro h
    split at h
    · cases h
    · split at h
      · cases h
      · rename_i hi
        cases h
        exact ⟨rfl, Bus.unimplemented_iff.mp ⟨by simpa using hi, rfl⟩⟩
  · rintro ⟨rfl, h⟩
    obtain ⟨hi, rfl⟩ := Bus.unimplemented_iff.mpr h
    simp [find?_attempts_of_unimplemented hb p hi, hi]

theorem result_ok_iff :
    (step.run p).result = .ok () ↔ (∀ a ∈ p.attempts, ¬hole a.2) ∧
      ∀ opcode ∈ Opcode.unassigned, Bus.read? p.bus p.registers.pc ≠ some opcode := by
  rw [result_step hb p, verdict]
  constructor
  · intro h
    split at h
    · cases h
    · rename_i hnone
      split at h
      · rename_i hi
        refine ⟨by simpa [List.find?_eq_none] using hnone, fun opcode hm hr => ?_⟩
        rw [(Bus.unimplemented_iff.mpr ⟨hr, hm⟩).1] at hi
        cases hi
      · cases h
  · rintro ⟨hh, hr⟩
    rw [find?_hole_eq_none hh]
    refine if_pos (Decidable.byContradiction fun hi => ?_)
    obtain ⟨h, hm⟩ := Bus.unimplemented_iff.mp ⟨by simpa using hi, rfl⟩
    exact hr _ hm h

theorem result_ne_unimplementedExtended (leading opcode : UInt8) (pc : UInt16) :
    (step.run p).result ≠ .error (.unimplementedExtended leading opcode pc) := by
  rw [result_step hb p, verdict]
  split
  · simp
  · split <;> simp

end

/-- On the memory map of the console, a step faults exactly at the first access
that hits a hole or at a byte that stands for no instruction. On flat memory
only the latter is left. -/
theorem step_faults :
    (∀ p : Processor MemoryMap,
      (∀ direction address, (step.run p).result = .error (.unmapped address direction) ↔
        p.attempts.find? (fun a => MemoryMap.Hole a.2) = some (direction, address)) ∧
      (∀ opcode pc, (step.run p).result = .error (.unimplemented opcode pc) ↔
        pc = p.registers.pc ∧ Bus.read? p.bus pc = some opcode ∧ opcode ∈ Opcode.unassigned) ∧
      (∀ leading opcode pc,
        (step.run p).result ≠ .error (.unimplementedExtended leading opcode pc)) ∧
      ((step.run p).result = .ok () ↔ (∀ a ∈ p.attempts, ¬MemoryMap.Hole a.2) ∧
        ∀ opcode ∈ Opcode.unassigned, Bus.read? p.bus p.registers.pc ≠ some opcode)) ∧
    ∀ (p : Processor FlatMemory) (e : Fault), (step.run p).result = .error e ↔
      ∃ opcode ∈ Opcode.unassigned,
        Bus.read? p.bus p.registers.pc = some opcode ∧
          e = .unimplemented opcode p.registers.pc := by
  refine ⟨fun p => ⟨result_unmapped_iff .memoryMap p, result_unimplemented_iff .memoryMap p,
    result_ne_unimplementedExtended .memoryMap p, result_ok_iff .memoryMap p⟩, fun p e => ?_⟩
  have hflat := Bus.HolesAt.flatMemory
  constructor
  · intro h
    cases e with
    | unmapped address direction =>
      have hsome := (result_unmapped_iff hflat p direction address).mp h
      exact absurd (List.find?_some hsome) (by simp)
    | unimplemented opcode pc =>
      obtain ⟨rfl, hr, hm⟩ := (result_unimplemented_iff hflat p opcode pc).mp h
      exact ⟨opcode, hm, hr, rfl⟩
    | unimplementedExtended leading opcode pc =>
      exact absurd h (result_ne_unimplementedExtended hflat p leading opcode pc)
  · rintro ⟨opcode, hm, hr, rfl⟩
    exact (result_unimplemented_iff hflat p opcode _).mpr ⟨rfl, hr, hm⟩

end Processor

end Handheld
