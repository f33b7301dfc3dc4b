import M740.Checked.Execution
import M740.Proofs.CheckedAlu
import M740.Proofs.ClockedRun
import M740.Proofs.Names

/-!
# Checked execution finds nothing

An instruction with a plan goes through all dispatchers to the case it was meant for
(`Checked.perform_eq`). That it is lifted from a program says that no check on the way fails,
whatever the bus answers. Pairs of operation and mode without a plan do get stuck in one of them
(`Checked.stuck_of_plan?_eq_none`).
-/

namespace M740.Checked

section
variable {α β : Type}

theorem liftM_ok (a : α) : (liftM (Except.ok a : Checked α) : Guarded α) = pure a := rfl

theorem run_liftM_bind (p : Program α) (f : α → Guarded β) :
    ((liftM p : Guarded α) >>= f).run = p >>= fun a => (f a).run :=
  ExceptT.run_bind_lift p f

end

/-! ### Operands -/

theorem size_eq (m : Mode) : size m = .ok m.size := by cases m <;> rfl

theorem operandByte_eq (p : Processor) (position : Nat) :
    operandByte p position = liftM (Program.fetch (p.operandAddress position)) := rfl

theorem operandWord_eq (p : Processor) :
    operandWord p 1 = liftM (Program.fetchWord (p.operandAddress 1)) := by
  have hnext : p.operandAddress 2 = p.operandAddress 1 + 1 := by
    simp only [Processor.operandAddress, BitVec.add_assoc]
    rfl
  simp only [operandWord, Program.fetchWord, operandByte_eq, ← hnext, liftM_bind, liftM_pure]
  rfl

theorem operand_eq {m : Mode} {l : Locator} (h : m.locator? = some l) (p : Processor) :
    operand m p = liftM (l.locate p >>= fun a => pure (Operand.address a)) := by
  have hzero : ∀ a : Address, a + Address.zeroPage 0 = a := BitVec.add_zero
  cases m <;> cases h <;>
    simp only [operand, Locator.locate, operandByte_eq, operandWord_eq, size_eq, liftM_ok,
      Processor.offset, Processor.index, hzero, Mode.size, Mode.operandLength, liftM_bind,
      liftM_pure, bind_assoc, pure_bind, UInt8.add_zero]

theorem resolve_eq {m : Mode} {l : Locator} (h : m.locator? = some l) (p : Processor) :
    resolve m p =
      liftM (l.locate p >>= fun a => pure (Operand.address a, p.advance m.size)) := by
  simp only [resolve, operand_eq h, size_eq, liftM_ok, liftM_bind, liftM_pure, bind_assoc,
    pure_bind]

/-! ### Operations on an operand -/

theorem accumulate_eq (op : Accumulate) (value : Byte) (p : Processor) :
    accumulate (.read (.accumulate op)) value p = liftM (op.perform value p) := by
  unfold accumulate Accumulate.perform
  simp only [accumulateInto_eq, liftM_ok, pure_bind]
  split
  · cases op with
    | lda => rfl
    | ora | and | eor | adc | sbc | cmp =>
      simp only [Accumulate.readsTarget, if_true]
      rw [if_neg (by decide), liftM_bind]
      refine bind_congr fun target => ?_
      generalize Accumulate.apply _ p.flags target value = r
      rcases r with ⟨_ | result, flags⟩ <;> rfl
  · rcases op.apply p.flags p.a value with ⟨_ | result, flags⟩ <;> rfl

theorem consume_eq (op : Reading) (value : Byte) (p : Processor) :
    consume (.read op) value p = liftM (op.perform value p) := by
  cases op with
  | accumulate op => exact accumulate_eq op value p
  | load i | compare i => cases i <;> rfl
  | bit | test => rfl

theorem stored_eq (register : Register) (p : Processor) :
    stored (.store register) p = .ok (p.register register) := by
  cases register <;> rfl

theorem jump_eq (op : Jumping) (target : Address) (p : Processor) :
    jump (.jump op) target p = liftM (op.perform target p) := by
  cases op with
  | branch condition => cases condition <;> rfl
  | always | jump => rfl
  | call => simp only [jump, Jumping.perform, liftM_bind, liftM_pure]

theorem implied_eq (op : Implied) (p : Processor) :
    implied (.implied op) p = liftM (op.perform p) := by
  cases op with
  | brk | rti | rts | stp | nop => rfl
  | flag change => simp only [implied, changeFlag_eq, liftM_ok, pure_bind]; rfl
  | count step => rcases step with i | i <;> cases i <;> rfl
  | stack op => cases op <;> rfl
  | transfer op => cases op <;> rfl
  | clock select => cases select <;> rfl

/-! ### Instructions -/

section
variable (p : Processor)

theorem perform_implied (op : Implied) :
    perform ⟨.implied op, .implied⟩ p =
      liftM ((Plan.implied op).perform Mode.implied.size p) := by
  show (resolve .implied p >>= fun r => execute (.implied op) r.1 r.2) = _
  simp only [resolve, operand, execute, implied_eq, size_eq, liftM_ok, Plan.perform, liftM_bind,
    liftM_pure, pure_bind]

theorem perform_accumulator {op : Modifying} (h : (Operation.modify op).bit?.all (· < 8)) :
    perform ⟨.modify op, .accumulator⟩ p =
      liftM ((Plan.modifyA op).perform Mode.accumulator.size p) := by
  show (resolve .accumulator p >>= fun r => execute (.modify op) r.1 r.2) = _
  simp only [resolve, operand, execute, modify_eq h, size_eq, liftM_ok, Plan.perform,
    Modifying.performOnA, liftM_pure, pure_bind]

theorem perform_immediate (op : Reading) :
    perform ⟨.read op, .immediate⟩ p =
      liftM ((Plan.readImmediate op).perform Mode.immediate.size p) := by
  show (resolve .immediate p >>= fun r => execute (.read op) r.1 r.2) = _
  simp only [resolve, operand, execute, consume_eq, operandByte_eq, size_eq, liftM_ok,
    Plan.perform, liftM_bind, liftM_pure, bind_assoc, pure_bind]

/-- An operation that finds an address runs on that address, past its instruction. -/
theorem resolve_execute {m : Mode} {l : Locator} (h : m.locator? = some l) (o : Operation) :
    (resolve m p >>= fun r => execute o r.1 r.2) =
      liftM (l.locate p) >>= fun a => execute o (.address a) (p.advance m.size) := by
  simp only [resolve_eq h, liftM_bind, liftM_pure, bind_assoc, pure_bind]

section
variable {m : Mode} {l : Locator} (hl : m.locator? = some l)
include hl

theorem perform_read (op : Reading) :
    perform ⟨.read op, m⟩ p = liftM ((Plan.read op l).perform m.size p) := by
  refine (resolve_execute p hl (.read op)).trans ?_
  simp only [execute, Operation.access, consume_eq, Plan.perform, liftM_bind, liftM_pure]

theorem perform_store (register : Register) :
    perform ⟨.store register, m⟩ p = liftM ((Plan.store register l).perform m.size p) := by
  have hadvance : (p.advance m.size).register register = p.register register := by
    cases register <;> rfl
  refine (resolve_execute p hl (.store register)).trans ?_
  simp only [execute, Operation.access, stored_eq, liftM_ok, hadvance, Plan.perform, liftM_bind,
    liftM_pure, pure_bind]

theorem perform_modify {op : Modifying} (h : (Operation.modify op).bit?.all (· < 8)) :
    perform ⟨.modify op, m⟩ p = liftM ((Plan.modify op l).perform m.size p) := by
  refine (resolve_execute p hl (.modify op)).trans ?_
  simp only [execute, Operation.access, modify_eq h, liftM_ok, Plan.perform, Modifying.performAt,
    liftM_bind, liftM_pure, bind_assoc, pure_bind]

theorem perform_jump (op : Jumping) :
    perform ⟨.jump op, m⟩ p = liftM ((Plan.jump op l).perform m.size p) := by
  refine (resolve_execute p hl (.jump op)).trans ?_
  simp only [execute, Operation.access, jump_eq, Plan.perform, liftM_bind]

end

theorem storeImmediate_eq :
    storeImmediate p = liftM (Plan.storeImmediate.perform Mode.immediateZeroPage.size p) := by
  simp only [storeImmediate, Plan.perform, operandByte_eq, size_eq, liftM_ok, liftM_bind,
    liftM_pure, pure_bind]

theorem branchOnBit_accumulator {bit : Byte} (h : bit < 8) (whenSet : Bool) :
    branchOnBit .accumulatorRelative bit whenSet p =
      liftM ((Plan.branchOnBitOfA bit whenSet).perform Mode.accumulatorRelative.size p) := by
  simp only [branchOnBit, Plan.perform, operandByte_eq, size_eq, testBit_eq h, liftM_ok,
    liftM_bind, liftM_pure, pure_bind]
  rfl

theorem branchOnBit_zeroPage {bit : Byte} (h : bit < 8) (whenSet : Bool) :
    branchOnBit .zeroPageRelative bit whenSet p =
      liftM ((Plan.branchOnBitOfCell bit whenSet).perform Mode.zeroPageRelative.size p) := by
  simp only [branchOnBit, Plan.perform, operandByte_eq, size_eq, testBit_eq h, liftM_ok,
    liftM_bind, liftM_pure, pure_bind]
  rfl

/-- A checked instruction comes to what the plan of its operation and mode performs. -/
theorem perform_eq {i : Instruction} {plan : Plan} (hplan : i.plan? = some plan)
    (hbit : i.operation.bit?.all (· < 8)) :
    perform i p = liftM (plan.perform i.size p) := by
  obtain ⟨operation, mode⟩ := i
  unfold Instruction.plan? at hplan
  dsimp only at hplan hbit
  -- One case for each way in which an operation and a mode go together.
  split at hplan
  case h_1 op => cases hplan; exact perform_implied p op
  case h_2 op => cases hplan; exact perform_accumulator p hbit
  case h_3 op => cases hplan; exact perform_immediate p op
  case h_4 => cases hplan; exact storeImmediate_eq p
  case h_5 bit whenSet =>
    cases hplan
    exact branchOnBit_accumulator p (of_decide_eq_true hbit) whenSet
  case h_6 bit whenSet =>
    cases hplan
    exact branchOnBit_zeroPage p (of_decide_eq_true hbit) whenSet
  case h_7 op _ =>
    obtain ⟨l, hl, rfl⟩ := Option.map_eq_some_iff.1 hplan
    exact perform_read p hl op
  case h_8 register =>
    obtain ⟨l, hl, rfl⟩ := Option.map_eq_some_iff.1 hplan
    exact perform_store p hl register
  case h_9 op _ =>
    obtain ⟨l, hl, rfl⟩ := Option.map_eq_some_iff.1 hplan
    exact perform_modify p hl hbit
  case h_10 op =>
    obtain ⟨l, hl, rfl⟩ := Option.map_eq_some_iff.1 hplan
    exact perform_jump p hl op
  case h_11 => cases hplan

end

/-- Some dispatcher is left without a case. -/
def Stuck {α : Type} (s : Guarded α) : Prop :=
  s.run.Ensures fun r => ∃ dispatcher, r = .error (.noCase dispatcher)

theorem stuck_resolve_execute {m : Mode} {l : Locator} (hl : m.locator? = some l) {o : Operation}
    (h : ∀ address p, Stuck (execute o (.address address) p)) (p : Processor) :
    Stuck (resolve m p >>= fun r => execute o r.1 r.2) := by
  rw [resolve_execute p hl, Stuck, run_liftM_bind, Program.ensures_bind]
  exact Program.ensures_of_forall fun _ => h _ _

/-- The checks are not idle: a pair of operation and mode without a plan does not get through. Only
the store of a constant never looks at its mode. -/
theorem stuck_of_plan?_eq_none {i : Instruction} (hplan : i.plan? = none)
    (hi : i.operation ≠ .storeImmediate) (p : Processor) : Stuck (perform i p) := by
  obtain ⟨operation, mode⟩ := i
  cases operation with
  | storeImmediate => exact absurd rfl hi
  | implied op =>
    cases mode with
    | implied => cases hplan
    | accumulator => exact ⟨.modifying, rfl⟩
    | immediate => exact fun _ => ⟨.reading, rfl⟩
    | immediateZeroPage | accumulatorRelative | zeroPageRelative => exact ⟨.resolver, rfl⟩
    | _ => exact stuck_resolve_execute (o := .implied op) rfl (fun _ _ => ⟨.executor, rfl⟩) p
  | branchOnBit bit whenSet =>
    cases mode with
    | accumulatorRelative | zeroPageRelative => cases hplan
    | _ => exact ⟨.bitBranch, rfl⟩
  | read op =>
    cases mode with
    | implied => exact ⟨.implied, rfl⟩
    | accumulator => exact ⟨.modifying, rfl⟩
    | immediateZeroPage | accumulatorRelative | zeroPageRelative => exact ⟨.resolver, rfl⟩
    | _ => cases hplan
  | modify op =>
    cases mode with
    | implied => exact ⟨.implied, rfl⟩
    | immediate => exact fun _ => ⟨.reading, rfl⟩
    | immediateZeroPage | accumulatorRelative | zeroPageRelative => exact ⟨.resolver, rfl⟩
    | _ => cases hplan
  | store | jump =>
    cases mode with
    | implied => exact ⟨.implied, rfl⟩
    | accumulator => exact ⟨.modifying, rfl⟩
    | immediate => exact fun _ => ⟨.reading, rfl⟩
    | immediateZeroPage | accumulatorRelative | zeroPageRelative => exact ⟨.resolver, rfl⟩
    | _ => cases hplan

/-! ### Opcodes -/

/-- The table binds every opcode to the instruction that it runs as. -/
theorem performer_eq (opcode : Byte) : performer opcode = .ok (Opcode.instruction opcode) := by
  have hplace : ((List.range 256).map UInt8.ofNat)[opcode.toNat]? = some opcode := by
    rw [List.getElem?_map, List.getElem?_range opcode.toNat_lt, Option.map_some,
      UInt8.ofNat_toNat]
  simp only [performer, element, hplace, ok_bind, bound, Opcode.instruction]
  cases Opcode.decode? opcode with
  | some i => rfl
  | none => rw [Opcode.decode?_nop]; rfl

theorem perform_instruction (opcode : Byte) (p : Processor) :
    perform (Opcode.instruction opcode) p = liftM (Opcode.perform opcode p) :=
  perform_eq p (Option.some_get _).symm (Opcode.bit_lt opcode)

theorem cost_le_maxCharge (opcode : Byte) (indexMode : Bool) :
    Timing.cost opcode indexMode ≤ Timing.maxCharge := by
  have hc := Opcode.cost_le opcode indexMode
  have hw := Opcode.worst_le opcode
  simp only [Timing.worst] at hw
  omega

/-- Both costs of every instruction are defined, and small. -/
theorem cost_eq (opcode : Byte) (indexMode : Bool) :
    cost (Opcode.instruction opcode) indexMode = .ok (Timing.cost opcode indexMode) := by
  have hdefined : ∀ t, cost.defined (Timing.cost? (Opcode.instruction opcode).operation
      (Opcode.instruction opcode).mode t) = .ok (Timing.cost opcode t) := by
    intro t
    have hle := cost_le_maxCharge opcode t
    rw [Timing.maxCharge_eq] at hle
    rw [← Option.some_get (Timing.cost?_instruction_isSome opcode t)]
    exact unsigned_eq (Nat.lt_of_le_of_lt hle (by decide))
  simp only [cost, hdefined, ok_bind]
  cases indexMode <;> rfl

end M740.Checked
