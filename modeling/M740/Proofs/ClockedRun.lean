import M740.Core
import M740.Proofs.Program

/-!
# Clocked runs

What one turn of a run can charge, and the rule by which an invariant of the turns becomes an
invariant of the run. A turn is taken only while the core is busy, and no turn charges more than
`maxCharge`: a run ends with its budget used up, or with the processor stopped, and overdraws it
by less than one charge.
-/

namespace M740

open Program

/-! ### The charge of a turn -/

namespace Plan

/-- Whether the plan ends with a conditional branch. -/
def isConditional : Plan → Bool
  | .jump (.branch _) _ | .branchOnBitOfA .. | .branchOnBitOfCell .. => true
  | _ => false

/-- Only conditional branches report a branch. -/
theorem perform_branched (plan : Plan) (size : Nat) (p : Processor) :
    (plan.perform size p).Ensures fun o => o.branched = true → plan.isConditional = true := by
  cases plan with
  | jump op locator =>
    simp only [perform, ensures_bind]
    refine ensures_of_forall fun target => ?_
    cases op <;> simp [Jumping.perform, isConditional]
  | branchOnBitOfA | branchOnBitOfCell => exact ensures_of_forall fun _ _ => rfl
  | _ => simp [perform]

end Plan

namespace Opcode

theorem isConditional_plan : ∀ opcode : Byte,
    (plan opcode).isConditional = (instruction opcode).operation.isConditional := by
  decide +kernel

theorem perform_branched (opcode : Byte) (p : Processor) :
    (perform opcode p).Ensures fun o =>
      o.branched = true → (instruction opcode).operation.isConditional = true := by
  rw [← isConditional_plan]
  exact (plan opcode).perform_branched _ p

theorem cost_le : ∀ (opcode : Byte) (indexMode : Bool),
    Timing.cost opcode indexMode ≤ Timing.cost opcode true := by
  decide +kernel

theorem worst_le : ∀ opcode : Byte, Timing.worst opcode ≤ Timing.maxCharge := by
  rw [Timing.maxCharge_eq]
  decide +kernel

theorem charge_units_le {opcode : Byte} (indexMode : Bool) {branched : Bool}
    (h : branched = true → (instruction opcode).operation.isConditional = true) :
    (charge opcode indexMode branched).units ≤ Timing.maxCharge := by
  have hc := cost_le opcode indexMode
  have hw := worst_le opcode
  simp only [Timing.worst] at hw
  simp only [charge]
  cases branched with
  | false => simp only [Bool.false_eq_true, if_false]; omega
  | true => simp only [h rfl, if_true] at hw ⊢; omega

end Opcode

theorem Charge.interrupt_units_le : Charge.interrupt.units ≤ Timing.maxCharge := by
  rw [Timing.maxCharge_eq]
  decide

namespace Processor

theorem performNext_charge (p : Processor) :
    p.performNext.Ensures fun r => r.2.units ≤ Timing.maxCharge := by
  simp only [performNext, ensures_bind, ensures_fetch, ensures_report]
  intro opcode
  exact (Opcode.perform_branched opcode p).imp fun _ h => Opcode.charge_units_le _ h

theorem turn_charge (p : Processor) :
    p.turn.Ensures fun r => r.2.units ≤ Timing.maxCharge := by
  simp only [turn, ensures_bind, ensures_interruptLine]
  intro level
  split
  · rw [ensures_bind]
    exact ensures_of_forall fun _ => Charge.interrupt_units_le
  · exact p.performNext_charge

end Processor

/-! ### The loop -/

namespace Core

/-- The core takes turns: units are left and the processor runs. -/
def Busy (c : Core) : Prop := 0 < c.clock.budget ∧ c.processor.stopped = false

theorem spend_of_not_busy {c : Core} (h : ¬ c.Busy) : c.spend = .done c := by
  unfold Busy at h
  rw [spend, if_neg h, pure_eq]

theorem spend_of_busy {c : Core} (h : c.Busy) :
    c.spend = c.processor.turn >>= fun (processor, charge) =>
      spend { processor, clock := c.clock.charge charge } := by
  unfold Busy at h
  rw [spend, if_pos h]

/-- An invariant of the turns holds at the end of the run, where no further turn is taken. -/
theorem spend_ensures {I : Core → Prop}
    (turn : ∀ c : Core, c.Busy → I c →
      c.processor.turn.Ensures fun r => I { processor := r.1, clock := c.clock.charge r.2 })
    (c : Core) (h : I c) : c.spend.Ensures fun c => I c ∧ ¬ c.Busy := by
  induction c using spend.induct with
  | case1 c hb ih =>
    rw [spend_of_busy hb, ensures_bind]
    exact (turn c hb h).imp fun r hi => ih r.1 r.2 hi
  | case2 c hb =>
    rw [spend_of_not_busy hb]
    exact ⟨h, hb⟩

/-- A run overdraws the budget by less than one charge. -/
theorem spend_overdraw (c : Core) (h : -(Timing.maxCharge : Int) < c.clock.budget) :
    c.spend.Ensures fun c => -(Timing.maxCharge : Int) < c.clock.budget := by
  refine (spend_ensures (I := fun c => -(Timing.maxCharge : Int) < c.clock.budget) ?_ c h).imp
    fun _ h => h.1
  intro c hb _
  refine c.processor.turn_charge.imp fun _ hu => ?_
  have := hb.1
  simp only [Clock.charge]
  omega

/-- After a run of the clock nothing is left to spend. -/
theorem runFor_budget_nonpos (c : Core) (ticks : UInt32) :
    (c.runFor ticks).Ensures fun c => c.clock.budget ≤ 0 := by
  simp only [runFor, ensures_bind, ensures_pure]
  refine (spend_ensures (I := fun _ => True) (fun _ _ _ => ensures_of_forall fun _ => trivial) _
    trivial).imp fun c hc => ?_
  cases hs : c.processor.stopped with
  | true => exact Int.min_le_right _ _
  | false => exact Int.not_lt.1 fun h => hc.2 ⟨h, hs⟩

end Core

end M740
