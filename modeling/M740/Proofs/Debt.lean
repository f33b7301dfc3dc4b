import M740.Proofs.Calls
import M740.Proofs.Slicing

/-!
# Debt

A run overdraws its budget by less than one charge. An interrupt that the host requests adds to
that debt, but it also disables interrupts, and in a host that only runs its machine by the clock
nothing enables them again before the debt is paid (`Core.Clocked`). Single steps are not paid for:
a host that makes them can let the handler enable interrupts while the debt still stands.
-/

namespace M740

open Program

namespace Processor

theorem enterHandler_masked (p : Processor) (marker : Byte) :
    (p.enterHandler marker).Ensures fun p => p.flags.i = true := by
  simp only [enterHandler, ensures_bind, ensures_pure, ensures_true]

theorem takeInterrupt_masked (p : Processor) :
    p.takeInterrupt.Ensures fun p => p.flags.i = true := by
  simp only [takeInterrupt, ensures_bind, ensures_report, ensures_pure]
  exact p.enterHandler_masked 0

theorem reset_masked (p : Processor) : p.reset.Ensures fun p => p.flags.i = true := by
  simp only [reset, fetchWord, ensures_bind, ensures_fetch, ensures_report, ensures_pure,
    implies_true]

end Processor

namespace Core

/-- What the clock of a core shows as long as nobody makes single steps. -/
structure Clocked (c : Core) : Prop where
  nonpos : c.clock.budget ≤ 0
  debt : -(Timing.maxCharge + Timing.interruptCost : Int) < c.clock.budget
  /-- More than a run can owe is owed only in a handler. -/
  masked : c.clock.budget ≤ -(Timing.maxCharge : Int) → c.processor.flags.i = true

theorem Clocked.initial : ({} : Core).Clocked where
  nonpos := Int.le_refl 0
  debt := by decide +kernel
  masked := fun _ => rfl

theorem reset_masked (c : Core) : c.reset.Ensures fun c => c.processor.flags.i = true := by
  simp only [reset, ensures_bind, ensures_pure]
  exact c.processor.reset_masked

theorem startRom_masked (c : Core) (size installed : Nat) :
    (c.startRom size installed).Ensures fun c => c.processor.flags.i = true := by
  unfold startRom
  split <;> simp only [ensures_bind, ensures_report, c.reset_masked]

theorem Clocked.of_clock_eq {c c' : Core} (h : c.Clocked) (hc : c'.clock = c.clock)
    (hi : c'.processor.flags.i = true) : c'.Clocked :=
  ⟨hc ▸ h.nonpos, hc ▸ h.debt, fun _ => hi⟩

theorem Clocked.interrupt {c : Core} (h : c.Clocked) :
    c.interrupt.Ensures fun r => r.2.Clocked := by
  unfold Core.interrupt
  split
  · rename_i ha
    have hi := (Processor.acceptsInterrupt_iff.1 ha).1
    have hb : -(Timing.maxCharge : Int) < c.clock.budget :=
      Int.not_le.1 fun hb => Bool.noConfusion (hi.symm.trans (h.masked hb))
    have := h.nonpos
    simp only [ensures_bind, ensures_pure]
    refine c.processor.takeInterrupt_masked.imp fun p hp => ⟨?_, ?_, fun _ => hp⟩
    · simp only [Clock.charge]; omega
    · simp only [Clock.charge, Charge.interrupt]; omega
  · exact h

/-- A run that finds the core busy owes less than one charge at its end. -/
theorem runFor_debt_of_busy {c : Core} {ticks : UInt32} (hb : (c.receive ticks.toNat).Busy) :
    (c.runFor ticks).Ensures fun c => -(Timing.maxCharge : Int) < c.clock.budget := by
  rw [runFor_eq_runTicks, runTicks, ensures_bind]
  have h := hb.1
  refine (spend_overdraw _ (by omega)).imp fun c' hd => ?_
  have hs := c'.min_le_settle_budget
  have hpos := Timing.maxCharge_eq
  rw [ensures_pure]
  omega

/-- A run that does not find it busy only adds to its budget. -/
theorem runFor_of_not_busy {c : Core} {ticks : UInt32} (hb : ¬ (c.receive ticks.toNat).Busy) :
    c.runFor ticks = .done (c.receive ticks.toNat).settle := by
  rw [runFor_eq_runTicks, runTicks, spend_of_not_busy hb, done_bind, pure_eq]

theorem Clocked.runFor {c : Core} (h : c.Clocked) (ticks : UInt32) :
    (c.runFor ticks).Ensures Clocked := by
  have hn := c.runFor_budget_nonpos ticks
  have hpos := Timing.maxCharge_eq
  by_cases hb : (c.receive ticks.toNat).Busy
  · refine (hn.and (runFor_debt_of_busy hb)).imp fun c' ⟨hn, hd⟩ => ⟨hn, ?_, ?_⟩
    · omega
    · omega
  · rw [runFor_of_not_busy hb] at hn ⊢
    have hle : c.clock.budget ≤ (c.receive ticks.toNat).clock.budget := c.clock.budget_le_receive _
    have hs := (c.receive ticks.toNat).min_le_settle_budget
    have hd := h.debt
    exact ⟨hn, by omega, fun hm => h.masked (by omega)⟩

end Core

/-- The calls of a host that leaves the time to the clock. -/
def Call.clocked : Call → Bool
  | .setRom _ | .reset | .runFor _ | .interrupt => true
  | _ => false

theorem Core.Clocked.answer {c : Core} {call : Call} (hk : call.clocked) (h : c.Clocked) :
    (c.answer call).Ensures fun r => r.2.Clocked := by
  cases call with
  | setRom image =>
    simp only [Core.answer, ensures_bind, ensures_pure]
    exact ((c.startRom_clock _ _).and (c.startRom_masked _ _)).imp fun _ hc =>
      h.of_clock_eq hc.1 hc.2
  | reset =>
    simp only [Core.answer, ensures_bind, ensures_pure]
    exact (c.reset_clock.and c.reset_masked).imp fun _ hc => h.of_clock_eq hc.1 hc.2
  | runFor ticks =>
    simp only [Core.answer, ensures_bind, ensures_pure]
    exact h.runFor ticks
  | interrupt =>
    simp only [Core.answer, ensures_bind, ensures_pure]
    exact h.interrupt
  | step | read | write | set | restore => cases hk

end M740
