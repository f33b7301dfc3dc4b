import M740.Proofs.Accesses
import M740.Proofs.Operands

/-!
# What a step charges

An instruction is charged what the table of costs says for its operation, its mode and index mode as
it was before, and two units more if it is a conditional branch that is taken, wherever that leads
(`Machine.step_charge`). Which branches are taken is said here in terms of the flags, of the bits of
A, and of the byte that is read from page zero.
-/

namespace M740

open Program

/-! ### Conditions -/

/-- The flag that a branch looks at, and the value that it waits for. -/
def Condition.awaits : Condition → Flag × Bool
  | .plus => (.negative, false)
  | .minus => (.negative, true)
  | .overflowClear => (.overflow, false)
  | .overflowSet => (.overflow, true)
  | .carryClear => (.carry, false)
  | .carrySet => (.carry, true)
  | .notEqual => (.zero, false)
  | .equal => (.zero, true)

/-- Whether the instruction is a branch that is taken. The byte `b k` is the one that its read number
`k` returns; the opcode is number 0. -/
def Instruction.taken (i : Instruction) (p : Processor) (b : Nat → Nat) : Bool :=
  match i.operation, i.mode with
  | .jump (.branch condition), _ => p.flags.get condition.awaits.1 == condition.awaits.2
  | .branchOnBit bit whenSet, .zeroPageRelative => (b 2).testBit bit.toNat == whenSet
  | .branchOnBit bit whenSet, _ => p.a.toNat.testBit bit.toNat == whenSet
  | _, _ => false

theorem Condition.holds_eq (condition : Condition) (f : Flags) :
    condition.holds f = (f.get condition.awaits.1 == condition.awaits.2) := by
  cases condition with
  | plus | overflowClear | carryClear | notEqual => exact (beq_false _).symm
  | minus | overflowSet | carrySet | equal => exact (beq_true _).symm

theorem Alu.testBit_eq : ∀ bit < 8, ∀ value : Byte,
    testBit value bit = value.toNat.testBit bit.toNat := by
  decide +kernel

theorem Processor.branchIf_branched (p : Processor) (condition : Bool) (target : Address) :
    (p.branchIf condition target).branched = condition := by
  cases condition <;> rfl

/-! ### Instructions -/

namespace Instruction

theorem taken_of_not_conditional {i : Instruction} (h : i.operation.isConditional = false)
    (p : Processor) (b : Nat → Nat) : i.taken p b = false := by
  obtain ⟨operation, mode⟩ := i
  cases operation with
  | jump op =>
    cases op with
    | branch => cases h
    | always | jump | call => rfl
  | branchOnBit => cases h
  | read | store | storeImmediate | modify | implied => rfl

end Instruction

namespace Plan

theorem isConditional_eq (plan : Plan) : plan.isConditional = plan.operation.isConditional := by
  cases plan with
  | jump op => cases op <;> rfl
  | implied | modifyA | readImmediate | read | store | modify | storeImmediate | branchOnBitOfA
  | branchOnBitOfCell => rfl

/-- A plan reports a branch if the instruction that it serves is one that is taken. -/
theorem perform_taken {plan : Plan} (hbit : plan.operation.bit?.all (· < 8)) (size : Nat)
    (p : Processor) (opcode : Byte) :
    (plan.perform size p).Shows fun events o =>
      o.branched = plan.instruction.taken p (numbers (opcode :: Event.loads events)) := by
  cases hplan : plan.isConditional with
  | false =>
    have hnone := Instruction.taken_of_not_conditional (i := plan.instruction)
      (plan.isConditional_eq ▸ hplan) p
    refine (plan.perform_branched size p).shows.imp fun events o h => ?_
    rw [hnone, ← Bool.not_eq_true]
    exact fun hbranched => Bool.false_ne_true (hplan.symm.trans (h hbranched))
  | true =>
    cases plan with
    | jump op locator =>
      cases op with
      | branch condition =>
        simp only [perform, shows_bind]
        refine ensures_true.shows.imp fun events target _ => ?_
        exact (Processor.branchIf_branched _ _ _).trans (condition.holds_eq _)
      | always | jump | call => cases hplan
    | branchOnBitOfA bit whenSet =>
      have htest := Alu.testBit_eq bit (of_decide_eq_true hbit)
      intro displacement
      exact (Processor.branchIf_branched _ _ _).trans (congrArg (· == whenSet) (htest p.a))
    | branchOnBitOfCell bit whenSet =>
      have htest := Alu.testBit_eq bit (of_decide_eq_true hbit)
      intro cell value displacement
      exact (Processor.branchIf_branched _ _ _).trans (congrArg (· == whenSet) (htest value))
    | implied | modifyA | readImmediate | read | store | modify | storeImmediate => cases hplan

end Plan

theorem Opcode.perform_taken (opcode : Byte) (p : Processor) :
    (perform opcode p).Shows fun events o =>
      o.branched = (instruction opcode).taken p (numbers (opcode :: Event.loads events)) := by
  rw [← instruction_plan]
  refine Plan.perform_taken ?_ _ p opcode
  rw [operation_plan]
  exact bit_lt opcode

/-! ### Steps -/

/-- The base cost of what an opcode stands for; one without a meaning costs what a NOP costs. -/
def Opcode.baseCost? (opcode : Byte) (indexMode : Bool) : Option Nat :=
  match decode? opcode with
  | some i => Timing.cost? i.operation i.mode indexMode
  | none => Timing.cost? (.implied .nop) .implied indexMode

theorem Opcode.baseCost?_eq (opcode : Byte) (indexMode : Bool) :
    baseCost? opcode indexMode = some (Timing.cost opcode indexMode) := by
  rw [Timing.cost, Option.some_get, baseCost?, instruction]
  cases decode? opcode <;> rfl

theorem Clock.toNat_cycles_count (c : Clock) (charge : Charge) :
    (c.count charge).cycles.toNat = (c.cycles.toNat + charge.units) % UInt64.size := by
  rw [count, UInt64.toNat_add, UInt64.toNat_ofNat', Nat.add_mod_mod]

theorem Operation.not_conditional_of_mem {o : Operation}
    (h : o ∈ [.jump .always, .jump .jump, .jump .call]) : o.isConditional = false := by
  revert o
  decide

namespace Machine

variable {σ : Type} [Device σ]

/-- The charge of a step. -/
theorem step_units {m : Machine σ} (hs : m.core.processor.stopped = false) :
    let p := m.core.processor
    let r := m.call trace [] .step
    ∃ charge : Charge, r.1 = .units charge.units ∧ r.2.1.core.clock = m.core.clock.count charge ∧
      charge.units = Timing.cost m.opcode p.flags.t +
        (if m.instruction.taken p (numbers (Event.loads r.2.2)) then 2 else 0) ∧
      charge.units ≤ Timing.maxCharge := by
  intro p r
  have hr : r = _ := step_trace hs
  have htaken := (Opcode.perform_taken m.opcode p).run (m.bus.read p.pc).2
  have hconditional := (Opcode.perform_branched m.opcode p).run trace (m.bus.read p.pc).2 []
  rw [hr]
  refine ⟨_, rfl, rfl, ?_, Opcode.charge_units_le _ hconditional⟩
  rw [Opcode.charge, htaken]
  rfl

/-- A branch on a bit of page zero reads the cell that its first operand byte names. -/
theorem step_accesses_cell {m : Machine σ} (hs : m.core.processor.stopped = false) {bit : Byte}
    {whenSet : Bool} (hinstruction : m.instruction = ⟨.branchOnBit bit whenSet, .zeroPageRelative⟩) :
    let pc := m.core.processor.pc.toNat
    let events := (m.call trace [] .step).2.2
    Event.accesses events = [.read pc, .read ((pc + 1) % 0x2000),
      .read (numbers (Event.loads events) 1), .read ((pc + 2) % 0x2000)] := by
  intro pc events
  have hevents : events = _ := congrArg (·.2.2) (call_step trace [] hs)
  obtain ⟨-, haccesses, -⟩ := m.core.processor.performNext_accesses m.bus
  have hmade : Event.accesses events =
      m.instruction.accesses m.core.processor (numbers (Event.loads events)) := by
    rw [hevents]
    exact haccesses
  rw [hmade, hinstruction]
  rfl

/-- A step answers with what it charges, and counts it. The byte that a branch on a bit of page zero
looks at is the one that the step reads there. -/
theorem step_charge {m : Machine σ} (hs : m.core.processor.stopped = false) :
    let p := m.core.processor
    let r := m.call trace [] .step
    let b := numbers (Event.loads r.2.2)
    ∃ base units,
      Opcode.baseCost? m.opcode p.flags.t = some base ∧
      units = base + (if m.instruction.taken p b then 2 else 0) ∧
      (m.instruction.operation ∈ [.jump .always, .jump .jump, .jump .call] → units = base) ∧
      (∀ bit whenSet, m.instruction = ⟨.branchOnBit bit whenSet, .zeroPageRelative⟩ →
        Event.accesses r.2.2 = [.read p.pc.toNat, .read ((p.pc.toNat + 1) % 0x2000), .read (b 1),
          .read ((p.pc.toNat + 2) % 0x2000)]) ∧
      r.1 = .units units ∧ 2 ≤ units ∧ units ≤ Timing.maxCharge ∧
      r.2.1.core.clock.cycles.toNat = (m.core.clock.cycles.toNat + units) % UInt64.size ∧
      r.2.1.core.clock.budget = m.core.clock.budget ∧
      r.2.1.core.clock.remainder = m.core.clock.remainder := by
  intro p r b
  obtain ⟨charge, hanswer, hclock, hunits, hmax⟩ := step_units hs
  refine ⟨_, charge.units, Opcode.baseCost?_eq m.opcode p.flags.t, hunits, ?_, ?_, hanswer, ?_, hmax,
    ?_, ?_, ?_⟩
  · intro hop
    rw [hunits, Instruction.taken_of_not_conditional (Operation.not_conditional_of_mem hop)]
    rfl
  · exact fun _ _ hinstruction => step_accesses_cell hs hinstruction
  · rw [hunits]
    exact Nat.le_trans (Timing.two_le_cost _ _) (Nat.le_add_right _ _)
  · rw [hclock]
    exact m.core.clock.toNat_cycles_count charge
  · rw [hclock]
    rfl
  · rw [hclock]
    rfl

/-- At a branch on the highest bit of a cell, which is set. The displacement is zero. -/
def testing : Machine Unconnected :=
  (fresh {}).afterAll
    [.write 0x10 0xE7, .write 0x11 0x20, .write 0x12 0x00, .write 0x20 0x80, .set (.pc 0x10)]

/-- The branch is taken and pays for it, though it leads to the next instruction. -/
theorem step_charge_testing :
    let r := testing.call trace [] .step
    testing.core.processor.stopped = false ∧
      testing.instruction = ⟨.branchOnBit 7 true, .zeroPageRelative⟩ ∧
      (testing.after .step).core.processor.pc = 0x13 ∧
      Event.accesses r.2.2 = [.read 0x10, .read 0x11, .read 0x20, .read 0x12] ∧
      r.1 = .units 7 ∧ r.2.1.core.clock.cycles.toNat = 7 := by
  intro r
  obtain ⟨hs, hinstruction, hpc, hbase, htaken, hcell⟩ :
      testing.core.processor.stopped = false ∧
        testing.instruction = ⟨.branchOnBit 7 true, .zeroPageRelative⟩ ∧
        (testing.after .step).core.processor.pc = 0x13 ∧
        Opcode.baseCost? testing.opcode testing.core.processor.flags.t = some 5 ∧
        testing.instruction.taken testing.core.processor
          (numbers (Event.loads (testing.call trace [] .step).2.2)) = true ∧
        numbers (Event.loads (testing.call trace [] .step).2.2) 1 = 0x20 := by
    decide +kernel
  obtain ⟨base, units, hbase', hunits, -, hcells, hanswer, -, -, hcycles, -⟩ := step_charge hs
  obtain rfl : base = 5 := Option.some.inj (hbase'.symm.trans hbase)
  obtain rfl : units = 7 := hunits.trans (congrArg (fun t => 5 + if t then 2 else 0) htaken)
  have hread := (hcells 7 true hinstruction).trans
    (congrArg (fun cell => [BusAccess.read 0x10, .read 0x11, .read cell, .read 0x12]) hcell)
  exact ⟨hs, hinstruction, hpc, hread, hanswer, hcycles⟩

end Machine

end M740
