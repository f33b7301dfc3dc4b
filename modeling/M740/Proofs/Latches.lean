import M740.Proofs.StraightLine
import M740.Proofs.Turns

/-!
# Latches

Two bits decide what a processor does next: the stop latch, and the flag that disables interrupts.
Few operations touch them. Of all opcodes one sets the stop latch and none clears it
(`Opcode.perform_stopped`), and interrupts that are disabled stay so under every operation but three
(`Opcode.perform_masked`).
-/

namespace M740

open Program

namespace Operation

/-- Whether the operation can enable interrupts. -/
def unmasks : Operation → Bool
  | .implied (.flag .cli) | .implied (.stack .plp) | .implied .rti => true
  | _ => false

theorem mem_of_unmasks {o : Operation} (h : o.unmasks = true) :
    o ∈ [.implied (.flag .cli), .implied (.stack .plp), .implied .rti] := by
  unfold unmasks at h
  split at h
  · decide
  · decide
  · decide
  · cases h

/-- Whether the operation can change one of the latches. -/
def latches : Operation → Bool
  | .implied (.flag .sei) | .implied .brk | .implied .stp => true
  | o => o.unmasks

end Operation

/-! ### Flags -/

theorem Alu.add_i (f : Flags) (target value : Byte) : (Alu.add f target value).2.i = f.i := by
  unfold add
  split <;> rfl

theorem Alu.subtract_i (f : Flags) (target value : Byte) :
    (Alu.subtract f target value).2.i = f.i := by
  unfold subtract
  split <;> rfl

theorem Accumulate.apply_i (op : Accumulate) (f : Flags) (target value : Byte) :
    (op.apply f target value).2.i = f.i := by
  cases op with
  | adc => exact Alu.add_i f target value
  | sbc => exact Alu.subtract_i f target value
  | ora | and | eor | lda | cmp => rfl

theorem Modifying.apply_i (op : Modifying) (f : Flags) (value : Byte) :
    (op.apply f value).2.i = f.i := by
  cases op <;> rfl

/-! ### Operations that touch no latch -/

namespace Processor

/-- Both latches are the same. -/
def SameLatches (p p' : Processor) : Prop := p'.stopped = p.stopped ∧ p'.flags.i = p.flags.i

/-- S and both latches are the same: work on data changes nothing of these. -/
def SameControl (p p' : Processor) : Prop := p'.s = p.s ∧ p.SameLatches p'

theorem load_sameControl (p : Processor) (value : Byte) (r : Register) :
    p.SameControl (p.load value r) := by
  cases r <;> exact ⟨rfl, rfl, rfl⟩

theorem branchIf_sameControl (p : Processor) (condition : Bool) (target : Address) :
    p.SameControl (p.branchIf condition target).processor := by
  unfold branchIf
  split <;> exact ⟨rfl, rfl, rfl⟩

end Processor

theorem StackOp.perform_sameLatches {op : StackOp} (h : op ≠ .plp) (p : Processor) :
    (op.perform p).Ensures p.SameLatches := by
  cases op with
  | pha | php => exact ⟨rfl, rfl⟩
  | pla => exact fun value => (Processor.load_sameControl { p with s := p.s + 1 } value .a).2
  | plp => exact absurd rfl h

theorem FlagChange.apply_i {change : FlagChange} (hcli : change ≠ .cli) (hsei : change ≠ .sei)
    (f : Flags) : (change.apply f).i = f.i := by
  cases change with
  | cli => exact absurd rfl hcli
  | sei => exact absurd rfl hsei
  | clc | sec | cld | sed | clv | clt | set => rfl

theorem Count.apply_sameControl (step : Count) (p : Processor) :
    p.SameControl (step.apply p) := by
  rcases step with i | i <;> exact p.load_sameControl _ _

theorem Transfer.apply_sameControl {op : Transfer} (h : op ≠ .txs) (p : Processor) :
    p.SameControl (op.apply p) := by
  cases op with
  | txs => exact absurd rfl h
  | tax | tay | txa | tya | tsx => exact p.load_sameControl _ _

theorem Implied.perform_sameLatches {op : Implied} (h : (Operation.implied op).latches = false)
    (p : Processor) : (op.perform p).Ensures p.SameLatches := by
  cases op with
  | brk | rti | stp => cases h
  | rts => exact fun _ _ => ⟨rfl, rfl⟩
  | nop | clock => exact ⟨rfl, rfl⟩
  | flag change =>
    refine ⟨rfl, FlagChange.apply_i ?_ ?_ p.flags⟩
    · rintro rfl; cases h
    · rintro rfl; cases h
  | count step => exact (step.apply_sameControl p).2
  | stack op =>
    refine StackOp.perform_sameLatches ?_ p
    rintro rfl
    cases h
  | transfer op =>
    by_cases htxs : op = .txs
    · subst htxs
      exact ⟨rfl, rfl⟩
    · exact (Transfer.apply_sameControl htxs p).2

/-- Accumulator operations change A and the flags, and leave the flags as they compute them. -/
theorem Accumulate.perform_ensures {op : Accumulate} {value : Byte} {p : Processor}
    {Q : Processor → Prop}
    (h : ∀ target a, Q { p with a, flags := (op.apply p.flags target value).2 }) :
    (op.perform value p).Ensures Q := by
  have hresult (target a : Byte) {result : Option Byte} {flags : Flags}
      (heq : op.apply p.flags target value = (result, flags)) : Q { p with a, flags } := by
    have := h target a
    rwa [heq] at this
  unfold perform
  split
  · split
    · simp only [ensures_bind, ensures_fetch]
      intro target
      split <;> exact hresult target p.a ‹_›
    · simp only [ensures_bind, ensures_pure]
      split <;> exact hresult 0 p.a ‹_›
  · split <;> exact hresult p.a _ ‹_›

theorem Accumulate.perform_sameControl (op : Accumulate) (value : Byte) (p : Processor) :
    (op.perform value p).Ensures p.SameControl :=
  perform_ensures fun target _ => ⟨rfl, rfl, op.apply_i p.flags target value⟩

theorem Reading.perform_sameControl (op : Reading) (value : Byte) (p : Processor) :
    (op.perform value p).Ensures p.SameControl := by
  cases op with
  | accumulate op => exact op.perform_sameControl value p
  | load i => exact p.load_sameControl _ _
  | compare | bit | test => exact ⟨rfl, rfl, rfl⟩

theorem Jumping.perform_sameControl {op : Jumping} (h : op ≠ .call) (target : Address)
    (p : Processor) : (op.perform target p).Ensures fun o => p.SameControl o.processor := by
  cases op with
  | branch condition => exact p.branchIf_sameControl _ _
  | always | jump => exact ⟨rfl, rfl, rfl⟩
  | call => exact absurd rfl h

namespace Plan

/-- With an operand, only a call changes S, and nothing changes a latch. -/
theorem perform_sameControl {plan : Plan} (himplied : ∀ op, plan.operation ≠ .implied op)
    (hcall : plan.operation ≠ .jump .call) (size : Nat) (p : Processor) :
    (plan.perform size p).Ensures fun o => p.SameControl o.processor := by
  cases plan with
  | implied op => exact absurd rfl (himplied op)
  | modifyA op => exact ⟨rfl, rfl, op.apply_i _ _⟩
  | readImmediate op =>
    simp only [perform, ensures_bind, ensures_pure]
    exact fun value => op.perform_sameControl value (p.advance size)
  | read op locator =>
    simp only [perform, ensures_bind, ensures_pure]
    exact ensures_of_forall fun _ => fun value => op.perform_sameControl value (p.advance size)
  | store register locator =>
    simp only [perform, ensures_bind, ensures_pure]
    exact ensures_of_forall fun _ => ⟨rfl, rfl, rfl⟩
  | modify op locator =>
    simp only [perform, Modifying.performAt, ensures_bind, ensures_pure]
    exact ensures_of_forall fun _ => fun value => ⟨rfl, rfl, op.apply_i _ value⟩
  | jump op locator =>
    simp only [perform, ensures_bind]
    refine ensures_of_forall fun target => Jumping.perform_sameControl ?_ target (p.advance size)
    rintro rfl
    exact hcall rfl
  | storeImmediate => exact fun _ _ => ⟨rfl, rfl, rfl⟩
  | branchOnBitOfA bit whenSet =>
    exact fun _ => (p.advance size).branchIf_sameControl _ _
  | branchOnBitOfCell bit whenSet =>
    exact fun _ _ _ => (p.advance size).branchIf_sameControl _ _

theorem perform_sameLatches {plan : Plan} (h : plan.operation.latches = false) (size : Nat)
    (p : Processor) : (plan.perform size p).Ensures fun o => p.SameLatches o.processor := by
  by_cases hcall : plan.operation = .jump .call
  · cases plan with
    | jump op locator =>
      cases hcall
      simp only [perform, ensures_bind]
      exact ensures_of_forall fun _ => ⟨rfl, rfl⟩
    | _ => cases hcall
  · cases plan with
    | implied op =>
      simp only [perform, ensures_bind, ensures_pure]
      exact Implied.perform_sameLatches h (p.advance size)
    | _ => exact (perform_sameControl (fun _ h => by cases h) hcall size p).imp fun _ h => h.2

end Plan

/-! ### All operations -/

/-- What an operation does to the latches. -/
structure Operation.Latches (o : Operation) (p p' : Processor) : Prop where
  stopped : p'.stopped = (p.stopped || o == .implied .stp)
  masked : o.unmasks = false → p.flags.i = true → p'.flags.i = true

theorem Processor.SameLatches.latches {p p' : Processor} (h : p.SameLatches p') {o : Operation}
    (ho : o.latches = false) : o.Latches p p' where
  stopped := by
    have hne : (o == .implied .stp) = false := by
      rw [beq_eq_false_iff_ne]
      rintro rfl
      cases ho
    rw [hne, Bool.or_false, h.1]
  masked _ hi := h.2.trans hi

theorem Implied.perform_latches (op : Implied) (p : Processor) :
    (op.perform p).Ensures ((Operation.implied op).Latches p) := by
  cases hop : (Operation.implied op).latches with
  | false => exact (perform_sameLatches hop p).imp fun _ h => h.latches hop
  | true =>
    cases op with
    | brk => exact fun _ _ => ⟨(Bool.or_false _).symm, fun _ _ => rfl⟩
    | rti => exact fun _ _ _ => ⟨(Bool.or_false _).symm, fun h => by cases h⟩
    | stp => exact ⟨(Bool.or_true _).symm, fun _ hi => hi⟩
    | flag change =>
      cases change with
      | cli => exact ⟨(Bool.or_false _).symm, fun h => by cases h⟩
      | sei => exact ⟨(Bool.or_false _).symm, fun _ _ => rfl⟩
      | clc | sec | cld | sed | clv | clt | set => cases hop
    | stack op =>
      cases op with
      | plp => exact fun _ => ⟨(Bool.or_false _).symm, fun h => by cases h⟩
      | pha | php | pla => cases hop
    | rts | nop | clock | count | transfer => cases hop

theorem Plan.perform_latches (plan : Plan) (size : Nat) (p : Processor) :
    (plan.perform size p).Ensures fun o => plan.operation.Latches p o.processor := by
  cases hop : plan.operation.latches with
  | false => exact (perform_sameLatches hop size p).imp fun _ h => h.latches hop
  | true =>
    cases plan with
    | implied op =>
      simp only [perform, ensures_bind, ensures_pure]
      exact (op.perform_latches (p.advance size)).imp fun _ h => ⟨h.stopped, h.masked⟩
    | _ => cases hop

namespace Opcode

theorem perform_latches (opcode : Byte) (p : Processor) :
    (perform opcode p).Ensures fun o => (instruction opcode).operation.Latches p o.processor :=
  operation_plan opcode ▸ (plan opcode).perform_latches _ p

/-- The encoding of the instruction that stops the processor. -/
def stp : Byte := 0x42

theorem operation_eq_stp : ∀ opcode : Byte,
    ((instruction opcode).operation == .implied .stp) = (opcode == stp) := by
  decide +kernel

/-- One opcode sets the stop latch, and none clears it. -/
theorem perform_stopped (opcode : Byte) (p : Processor) :
    (perform opcode p).Ensures fun o => o.processor.stopped = (p.stopped || opcode == stp) :=
  (perform_latches opcode p).imp fun _ h => operation_eq_stp opcode ▸ h.stopped

/-- Interrupts stay disabled under all operations but those that can enable them. -/
theorem perform_masked {opcode : Byte} (h : (instruction opcode).operation.unmasks = false)
    {p : Processor} (hi : p.flags.i = true) :
    (perform opcode p).Ensures fun o => o.processor.flags.i = true :=
  (perform_latches opcode p).imp fun _ hl => hl.masked h hi

end Opcode

end M740
