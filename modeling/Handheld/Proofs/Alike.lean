import Handheld.Processor.Step

/-!
# What instructions are made of

`Alike` says that two actions, of processors on two buses, are put together in the
same way from the same parts. Decoding and executing are like this on any two
buses. So what all parts keep, an instruction keeps, and what two runs of each
part have in common, two runs of an instruction have in common; either is shown
once, by induction on how the actions are put together.
-/

namespace Handheld.Processor

variable {β γ : Type} [Bus β] [Bus γ]

/-- The same action on processors with two buses. -/
inductive Alike : {α : Type} → Action (Processor β) α → Action (Processor γ) α → Prop
  | pure {α : Type} (a : α) : Alike (Pure.pure a) (Pure.pure a)
  | fault {α : Type} (e : Fault) : Alike (.fault e : Action (Processor β) α) (.fault e)
  | bind {α δ : Type} {x : Action (Processor β) α} {y : Action (Processor γ) α}
      {f : α → Action (Processor β) δ} {g : α → Action (Processor γ) δ} :
      Alike x y → (∀ a, Alike (f a) (g a)) → Alike (x >>= f) (y >>= g)
  | reading {α : Type} (f : Registers → α) : Alike (Processor.reading f) (Processor.reading f)
  | updating (f : Registers → Registers) : Alike (Processor.updating f) (Processor.updating f)
  | elapsing (n : Nat) : Alike (Processor.elapsing n) (Processor.elapsing n)
  | switching (on : Bool) :
      Alike (.modify fun p => { p with ime := on }) (.modify fun q => { q with ime := on })
  | scheduling (t : Toggle) : Alike (.modify (·.schedule t)) (.modify (·.schedule t))
  | busRead (address : UInt16) : Alike (onBus (Bus.read address)) (onBus (Bus.read address))
  | busWrite (address : UInt16) (v : UInt8) :
      Alike (onBus (Bus.write address v)) (onBus (Bus.write address v))

namespace Alike

-- ---------------------------------------------------------------------------
-- Traffic
-- ---------------------------------------------------------------------------

theorem read (address : UInt16) :
    @Alike β γ _ _ _ (Processor.read address) (Processor.read address) :=
  .bind (.busRead address) fun v => .bind (.elapsing 1) fun _ => .pure v

theorem write (address : UInt16) (v : UInt8) :
    @Alike β γ _ _ _ (Processor.write address v) (Processor.write address v) :=
  .bind (.busWrite address v) fun _ => .elapsing 1

theorem fetch :
    @Alike β γ _ _ _ Processor.fetch Processor.fetch :=
  .bind (.reading _) fun pc => .bind (.read pc) fun v => .bind (.updating _) fun _ => .pure v

theorem fetchWord : @Alike β γ _ _ _ Processor.fetchWord Processor.fetchWord :=
  .bind .fetch fun _ => .bind .fetch fun _ => .pure _

theorem fetchLiteral (k : LiteralKind) :
    @Alike β γ _ _ _ (Processor.fetchLiteral k) (Processor.fetchLiteral k) := by
  cases k with
  | none => exact .pure _
  | byte => exact .bind .fetch fun v => .pure _
  | word => exact .bind .fetchWord fun w => .pure _

theorem push (w : UInt16) :
    @Alike β γ _ _ _ (Processor.push w) (Processor.push w) :=
  .bind (.reading _) fun _ => .bind (.write _ _) fun _ => .bind (.write _ _) fun _ => .updating _

theorem pop :
    @Alike β γ _ _ _ Processor.pop Processor.pop :=
  .bind (.reading _) fun _ => .bind (.read _) fun _ => .bind (.read _) fun _ =>
    .bind (.updating _) fun _ => .pure _

theorem readOperand (o : Operand) :
    @Alike β γ _ _ _ (Processor.readOperand o) (Processor.readOperand o) := by
  cases o with
  | register r => exact .reading (·.byte r)
  | memory => exact .bind (.reading _) fun hl => .read hl

theorem writeOperand (o : Operand) (v : UInt8) :
    @Alike β γ _ _ _ (Processor.writeOperand o v) (Processor.writeOperand o v) := by
  cases o with
  | register r => exact .updating _
  | memory => exact .bind (.reading _) fun hl => .write hl v

theorem pointerAddress (p : Pointer) :
    @Alike β γ _ _ _ (Processor.pointerAddress p) (Processor.pointerAddress p) := by
  cases p with
  | bc => exact .reading _
  | de => exact .reading _
  | hlIncrement => exact .bind (.reading _) fun hl => .bind (.updating _) fun _ => .pure hl
  | hlDecrement => exact .bind (.reading _) fun hl => .bind (.updating _) fun _ => .pure hl

theorem storeAccumulator (address : UInt16) :
    @Alike β γ _ _ _ (Processor.storeAccumulator address) (Processor.storeAccumulator address) :=
  .bind (.reading _) fun a => .write address a

theorem loadAccumulator (address : UInt16) :
    @Alike β γ _ _ _ (Processor.loadAccumulator address) (Processor.loadAccumulator address) :=
  .bind (.read address) fun _ => .updating _

-- ---------------------------------------------------------------------------
-- Instructions
-- ---------------------------------------------------------------------------

theorem revise (o : Operand) (f : UInt8 → Flags → UInt8 × Flags) :
    @Alike β γ _ _ _ (Processor.revise o f) (Processor.revise o f) :=
  .bind (.readOperand o) fun _ => .bind (.reading _) fun _ => .bind (.writeOperand o _) fun _ =>
    .updating _

theorem whenMet (c : Option Condition) {x : Action (Processor β) Unit}
    {y : Action (Processor γ) Unit} (h : Alike x y) :
    Alike (Processor.whenMet c x) (Processor.whenMet c y) := by
  refine .bind (.reading _) fun met => ?_
  cases met with
  | false => exact .pure ()
  | true => exact h

theorem callTo (target : UInt16) :
    @Alike β γ _ _ _ (Processor.callTo target) (Processor.callTo target) :=
  .bind (.reading _) fun pc => .bind (.push pc) fun _ => .updating _

theorem returnFromCall :
    @Alike β γ _ _ _ Processor.returnFromCall Processor.returnFromCall :=
  .bind .pop fun _ => .bind (.elapsing 1) fun _ => .updating _

theorem execute (d : Decoded) :
    @Alike β γ _ _ _ (Processor.execute d) (Processor.execute d) := by
  obtain ⟨address, prefixed, opcode, operation, literal⟩ := d
  cases operation with
  | unimplemented | extend => exact .fault _
  | nop => exact .pure ()
  | load target source => exact .bind (.readOperand source) fun v => .writeOperand target v
  | loadLiteral target => exact .writeOperand target _
  | storeThrough p => exact .bind (.pointerAddress p) fun _ => .storeAccumulator _
  | loadThrough p => exact .bind (.pointerAddress p) fun _ => .loadAccumulator _
  | storeAt | storeLastPage => exact .storeAccumulator _
  | loadFrom | loadLastPage => exact .loadAccumulator _
  | storeLastPageC => exact .bind (.reading _) fun _ => .storeAccumulator _
  | loadLastPageC => exact .bind (.reading _) fun _ => .loadAccumulator _
  | storeStackPointer =>
    exact .bind (.reading _) fun _ => .bind (.write _ _) fun _ => .write _ _
  | push p => exact .bind (.reading _) fun w => .push w
  | pop p => exact .bind .pop fun _ => .updating _
  | alu op source | bit i source => exact .bind (.readOperand source) fun _ => .updating _
  | increment target | decrement target | shift op target => exact .revise target _
  | jump c | jumpRelative c => exact .whenMet c (.bind (.elapsing 1) fun _ => .updating _)
  | call c => exact .whenMet c (.bind (.elapsing 1) fun _ => .callTo _)
  | ret c => exact .whenMet c .returnFromCall
  | retEnable => exact .bind .returnFromCall fun _ => .switching true
  | restart vector => exact .callTo _
  | disableInterrupts => exact .scheduling .disable
  | enableInterrupts => exact .scheduling .enable
  | reset i target | set i target =>
    exact .bind (.readOperand target) fun _ => .writeOperand target _
  | _ => exact .updating _

theorem decode :
    @Alike β γ _ _ _ Processor.decode Processor.decode := by
  refine .bind (.reading _) fun address => .bind ?_ fun (prefixed, opcode) => ?_
  · refine .bind .fetch fun first => ?_
    split
    · exact .bind .fetch fun opcode => .pure _
    · exact .pure _
  · dsimp only
    split
    · exact .bind (.fetchLiteral _) fun literal => .pure _
    · exact .fault _

end Alike

end Handheld.Processor
