import M740.Proofs.Conservation
import M740.Proofs.Latches

/-!
# Stopping

One opcode sets the stop latch, and a host clears it by a reset (`Machine.call_stopped_iff`). As
long as it is set nothing happens: the calls of a driving host are refused, no turn is taken, and
the ticks that come in repay what is owed and are then lost (`Machine.calls_of_stopped`).
-/

namespace M740

open Program

namespace Turns

variable {σ ω : Type} [Device σ] {observe : ω → Event → ω} {s s' : Processor × Bus σ × ω}
  {turns : List (Processor × Turn)}

/-- A stopped processor takes no turn. -/
theorem of_stopped (h : Turns observe s turns s') (hp : ∀ x ∈ turns, x.2.Permitted x.1)
    (hs : s.1.stopped = true) : turns = [] ∧ s' = s := by
  cases h with
  | done => exact ⟨rfl, rfl⟩
  | entry | instruction =>
    have hruns := (hp _ List.mem_cons_self).1
    exact Bool.noConfusion (hruns.symm.trans hs)

/-- A running processor is stopped by one instruction only. -/
theorem stopped_iff (h : Turns observe s turns s') (hp : ∀ x ∈ turns, x.2.Permitted x.1)
    (hs : s.1.stopped = false) :
    s'.1.stopped = true ↔ ∃ q, (q, .instruction Opcode.stp) ∈ turns := by
  induction h with
  | done => simp [hs]
  | @entry p bus seen turns s' rest ih =>
    have hs' := (Processor.takeInterrupt_run observe p bus seen).2.trans hs
    rw [ih (fun x hx => hp x (List.mem_cons_of_mem _ hx)) hs']
    simp
  | @instruction p bus seen turns s' rest ih =>
    have hlatch := Processor.performNext_run_ensures observe
      (Q := fun p' => p'.stopped = (p.stopped || (bus.read p.pc).1 == Opcode.stp))
      (Opcode.perform_stopped (bus.read p.pc).1 p) seen
    have hp' : ∀ x ∈ turns, x.2.Permitted x.1 := fun x hx => hp x (List.mem_cons_of_mem _ hx)
    rw [show p.stopped = false from hs, Bool.false_or] at hlatch
    by_cases hstp : (bus.read p.pc).1 = Opcode.stp
    · rw [hstp, beq_self_eq_true] at hlatch
      obtain ⟨-, rfl⟩ := rest.of_stopped hp' hlatch
      exact iff_of_true hlatch ⟨p, hstp ▸ List.mem_cons_self⟩
    · rw [beq_eq_false_iff_ne.2 hstp] at hlatch
      rw [ih hp' hlatch]
      simp [Ne.symm hstp]

end Turns

/-! ### The latch under one call -/

namespace Processor

theorem reset_running (p : Processor) : p.reset.Ensures fun p => p.stopped = false := by
  simp [reset, fetchWord]

end Processor

theorem Core.reset_running (c : Core) : c.reset.Ensures fun c => c.processor.stopped = false := by
  simp only [reset, ensures_bind, ensures_pure]
  exact c.processor.reset_running

theorem Core.startRom_running (c : Core) (size installed : Nat) :
    (c.startRom size installed).Ensures fun c => c.processor.stopped = false := by
  unfold startRom
  split <;> simp only [ensures_bind, ensures_report, c.reset_running]

theorem Setting.apply_stopped (setting : Setting) (p : Processor) :
    (setting.apply p).stopped = p.stopped := by
  cases setting with
  | register r v => cases r <;> rfl
  | stackPointer | pc | status | flag => rfl

/-- The calls that have nothing to do with the stop latch. -/
def Call.keepsLatch : Call → Bool
  | .interrupt | .read _ | .write .. | .set _ => true
  | _ => false

/-- The answer of a stopped processor. -/
def Call.refusal : Call → Answer
  | .step => .units 0
  | .interrupt => .taken false
  | _ => .nothing

namespace Machine

variable {σ : Type} [Device σ]

/-- Turns stop a processor by performing the instruction that stops it. -/
theorem call_stopped_iff_fetched (m : Machine σ) (call : Call) (hc : call.takesTurns)
    (hs : m.core.processor.stopped = false) :
    (m.call trace [] call).2.1.core.processor.stopped = true ↔
      ∃ q, .note (.fetch q Opcode.stp) ∈ (m.call trace [] call).2.2 := by
  obtain ⟨turns, hp, h⟩ := m.call_turns trace [] hc
  rw [h.stopped_iff hp hs, ← Event.mem_turns_instruction, h.reported]
  simp [Event.turns]

/-- No turn releases a processor. -/
theorem call_of_stopped_turns {m : Machine σ} {call : Call} (hc : call.takesTurns)
    (hs : m.core.processor.stopped = true) :
    (m.call trace [] call).2.1.core.processor = m.core.processor ∧
      (m.call trace [] call).2.2 = [] := by
  obtain ⟨turns, hp, h⟩ := m.call_turns trace [] hc
  obtain ⟨-, hsame⟩ := h.of_stopped hp hs
  exact ⟨congrArg (·.1) hsame, congrArg (·.2.2) hsame⟩

theorem call_reset_stopped (m : Machine σ) :
    (m.call trace [] .reset).2.1.core.processor.stopped = false := by
  have h : (m.core.answer .reset).Ensures fun r => r.2.processor.stopped = false := by
    simp only [Core.answer, ensures_bind, ensures_pure]
    exact m.core.reset_running
  exact h.run trace (m.bus.prepare .reset) []

theorem call_setRom_stopped (m : Machine σ) (image : List Byte) :
    (m.call trace [] (.setRom image)).2.1.core.processor.stopped = false := by
  have h : (m.core.answer (.setRom image)).Ensures fun r => r.2.processor.stopped = false := by
    simp only [Core.answer, ensures_bind, ensures_pure]
    exact m.core.startRom_running _ _
  exact h.run trace (m.bus.prepare (.setRom image)) []

theorem call_keepsLatch (m : Machine σ) {call : Call} (hc : call.keepsLatch) :
    (m.call trace [] call).2.1.core.processor.stopped = m.core.processor.stopped := by
  cases call with
  | interrupt =>
    cases ha : m.core.processor.acceptsInterrupt with
    | true =>
      rw [call_interrupt_taken trace [] ha]
      exact (Processor.takeInterrupt_run trace m.core.processor m.bus []).2
    | false => rw [call_interrupt_refused trace [] ha]
  | read | write => rfl
  | set setting => exact setting.apply_stopped m.core.processor
  | setRom | reset | runFor | step | restore => cases hc

/-- The stop latch has one entrance and a host's exits: a running processor is stopped by
performing the opcode 0x42, in a step or in a run, or by taking over the snapshot of a stopped one;
a stopped one is released by a reset or by taking over the snapshot of a running one. -/
theorem call_stopped_iff (m : Machine σ) (call : Call) :
    let r := m.call trace [] call
    (m.core.processor.stopped = false →
      (r.2.1.core.processor.stopped = true ↔
        ((call = .step ∨ ∃ ticks, call = .runFor ticks) ∧ ∃ q, .note (.fetch q 0x42) ∈ r.2.2) ∨
          ∃ s, call = .restore s ∧ s.stopped = true)) ∧
    (m.core.processor.stopped = true →
      (r.2.1.core.processor.stopped = false ↔
        call = .reset ∨ (∃ image, call = .setRom image) ∨
          ∃ s, call = .restore s ∧ s.stopped = false)) := by
  intro r
  have hturns (hc : call.takesTurns) : m.core.processor.stopped = true →
      r.2.1.core.processor.stopped = true :=
    fun hs => (congrArg (·.stopped) (call_of_stopped_turns hc hs).1).trans hs
  cases call with
  | setRom image =>
    have h := m.call_setRom_stopped image
    simp [r, h]
  | reset =>
    have h := m.call_reset_stopped
    simp [r, h]
  | runFor ticks =>
    refine ⟨fun hs => ?_, fun hs => ?_⟩
    · simpa [r, Opcode.stp] using m.call_stopped_iff_fetched (.runFor ticks) rfl hs
    · simp [hturns rfl hs]
  | step =>
    refine ⟨fun hs => ?_, fun hs => ?_⟩
    · simpa [r, Opcode.stp] using m.call_stopped_iff_fetched .step rfl hs
    · simp [hturns rfl hs]
  | interrupt | read | write | set =>
    have h : r.2.1.core.processor.stopped = m.core.processor.stopped := m.call_keepsLatch rfl
    refine ⟨fun hs => ?_, fun hs => ?_⟩ <;> simp [h, hs]
  | restore snapshot =>
    have h : r.2.1.core.processor.stopped = snapshot.stopped :=
      congrArg (·.2.1.core.processor.stopped) (m.call_restore trace [] snapshot)
    refine ⟨fun _ => ?_, fun _ => ?_⟩ <;> simp [h]

end Machine

/-! ### Time that passes in a stopped machine -/

theorem Core.settle_receive_settle {c : Core} (hs : c.processor.stopped = true) (ticks : Nat) :
    (c.settle.receive ticks).settle = (c.receive ticks).settle := by
  simp only [settle, receive, hs, if_true, Clock.forfeit_receive_forfeit]

theorem Core.settle_receive_zero {c : Core} (hn : c.clock.budget ≤ 0) :
    (c.receive 0).settle = c := by
  have hf : c.clock.forfeit = c.clock := by simp only [Clock.forfeit, Int.min_eq_left hn]
  simp only [settle, receive, Clock.receive_zero, hf, ite_self]

namespace Machine

variable {σ ω : Type} [Device σ] (observe : ω → Event → ω)

/-- A stopped machine refuses a call, and lets its time pass. -/
theorem call_of_stopped {m : Machine σ} (hs : m.core.processor.stopped = true)
    (hn : m.core.clock.budget ≤ 0) (seen : ω) {call : Call} (hc : call.takesTurns) :
    m.call observe seen call =
      (call.refusal, { m with core := (m.core.receive call.ticks).settle }, seen) := by
  have ha : m.core.processor.acceptsInterrupt = false := by
    simp only [Processor.acceptsInterrupt, hs, Bool.not_true, Bool.and_false]
  cases call with
  | runFor ticks =>
    have hb : ¬ (m.core.receive ticks.toNat).Busy :=
      fun hb => Bool.noConfusion (hs.symm.trans hb.2)
    simp only [call, Core.answer, Core.runFor_of_not_busy hb, done_bind, pure_eq, run]
    rfl
  | step =>
    have hidle : (m.core.receive (Call.ticks .step)).settle = m.core :=
      Core.settle_receive_zero hn
    simp only [call, Core.answer, Core.step, hs, if_true, pure_eq, done_bind, run, hidle]
    rfl
  | interrupt =>
    have hidle : (m.core.receive (Call.ticks .interrupt)).settle = m.core :=
      Core.settle_receive_zero hn
    rw [call_interrupt_refused observe seen ha, hidle]
    rfl
  | setRom | reset | read | write | set | restore => cases hc

theorem calls_of_stopped {m : Machine σ} (hs : m.core.processor.stopped = true)
    (hn : m.core.clock.budget ≤ 0) (seen : ω) {calls : List Call}
    (hc : ∀ call ∈ calls, call.takesTurns) :
    m.calls observe seen calls =
      (calls.map Call.refusal, { m with core := (m.core.receive (totalDelivered calls)).settle },
        seen) := by
  induction calls generalizing m with
  | nil => simp only [Machine.calls, totalDelivered, Core.settle_receive_zero hn, List.map_nil]
  | cons call rest ih =>
    obtain ⟨hcall, hrest⟩ := List.forall_mem_cons.1 hc
    have hbudget : (m.core.receive call.ticks).settle.clock.budget ≤ 0 := by
      simp only [Core.settle, Core.receive, hs, if_true, Clock.forfeit]
      exact Int.min_le_right _ _
    have hlater := ih (m := { m with core := (m.core.receive call.ticks).settle }) hs hbudget hrest
    simp only [Machine.calls, call_of_stopped observe hs hn seen hcall, hlater,
      Core.settle_receive_settle (c := m.core.receive call.ticks) hs, totalDelivered,
      List.map_cons]
    simp only [Core.receive, Clock.receive_receive]

/-- The stop latch is absorbing. It has one entrance, the opcode 0x42, and a host's exits. While it
is set, runs, steps and interrupts are refused without a look at the bus; they change the budget
and the remainder only, and of the time that passes nothing is kept beyond what was owed. -/
theorem stop_latch {m : Machine σ} (hm : m.Reachable) :
    (∀ call : Call,
      let r := m.call trace [] call
      (m.core.processor.stopped = false →
        (r.2.1.core.processor.stopped = true ↔
          ((call = .step ∨ ∃ ticks, call = .runFor ticks) ∧ ∃ q, .note (.fetch q 0x42) ∈ r.2.2) ∨
            ∃ s, call = .restore s ∧ s.stopped = true)) ∧
      (m.core.processor.stopped = true →
        (r.2.1.core.processor.stopped = false ↔
          call = .reset ∨ (∃ image, call = .setRom image) ∨
            ∃ s, call = .restore s ∧ s.stopped = false))) ∧
    (m.core.processor.stopped = true →
      ∀ calls : List Call, (∀ call ∈ calls, call.takesTurns) →
        let r := m.calls trace [] calls
        let total := m.core.clock.remainder.val + totalDelivered calls
        m.core.clock.budget ≤ 0 ∧
          r.1 = calls.map Call.refusal ∧
          r.2.2 = [] ∧
          r.2.1 = { m with core := { m.core with clock := { m.core.clock with
            budget := min 0 (m.core.clock.budget + (total / 4 : Nat))
            remainder := Clock.leftOver total } } }) := by
  have hn := hm.budget_nonpos
  refine ⟨m.call_stopped_iff, fun hs calls hc => ?_⟩
  rw [calls_of_stopped trace hs hn [] hc]
  refine ⟨hn, rfl, rfl, ?_⟩
  simp only [Core.settle, Core.receive, hs, if_true, Clock.forfeit, Clock.receive, Int.min_comm 0]
  rfl

/-- Stopped by its first instruction, which the budget did not pay for in full. -/
def indebted : Machine Unconnected :=
  (fresh {}).afterAll [.setRom [0x42, 0, 0, 0, 0, 0, 0, 0, 0, 0, 0, 0xF3, 0x1F], .runFor 4]

/-- The debt is repaid, and the rest of the time is lost. -/
theorem stop_latch_indebted :
    let calls : List Call := [.runFor 3, .step, .runFor 1, .interrupt, .runFor 40]
    let r := indebted.calls trace [] calls
    indebted.Reachable ∧ indebted.core.processor.stopped = true ∧
      indebted.core.clock.budget = -1 ∧ (∀ call ∈ calls, call.takesTurns) ∧
      r.1 = [.nothing, .units 0, .nothing, .taken false, .nothing] ∧ r.2.2 = [] ∧
      r.2.1.core.clock.budget = 0 := by
  intro calls r
  have hm : indebted.Reachable := (Reachable.fresh ({} : Unconnected)).afterAll _
  obtain ⟨hs, hdebt, hremainder⟩ : indebted.core.processor.stopped = true ∧
      indebted.core.clock.budget = -1 ∧ indebted.core.clock.remainder.val = 0 := by
    decide +kernel
  have hc : ∀ call ∈ calls, call.takesTurns := by decide
  obtain ⟨-, hanswers, htrace, hmachine⟩ := (stop_latch hm).2 hs calls hc
  refine ⟨hm, hs, hdebt, hc, hanswers, htrace, ?_⟩
  simp only [r, hmachine, hdebt, hremainder]
  decide

end Machine

end M740
