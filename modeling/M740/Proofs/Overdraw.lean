import M740.Proofs.Saving
import M740.Proofs.Traces

/-!
# Overdraw

A host that leaves the time to the clock never owes more than one run and one interrupt after it
can overdraw. While it owes more than a run can, interrupts are disabled, and they stay so through
resets and through runs that are too short to repay the debt: the next one is taken only after an
instruction has run (`Machine.overdraw_bounds`).
-/

namespace M740

open Program

/-- What was seen before a run is seen after it. -/
theorem Program.mem_run_trace {σ α : Type} [Device σ] (p : Program α) (bus : Bus σ)
    {seen : List Event} {e : Event} (h : e ∈ seen) : e ∈ (p.run trace bus seen).2.2 := by
  rw [run_trace]
  exact List.mem_append_left _ h

namespace Processor

variable {σ : Type} [Device σ]

theorem performNext_fetches (p : Processor) (bus : Bus σ) (seen : List Event) :
    ∃ opcode, .note (.fetch p opcode) ∈ (p.performNext.run trace bus seen).2.2 := by
  simp only [performNext, fetch, report, read_bind, done_bind, note_bind, run]
  exact ⟨_, mem_run_trace _ _ (List.mem_append_right _ (List.mem_singleton_self _))⟩

theorem acceptsInterrupt_of_masked {p : Processor} (hi : p.flags.i = true) :
    p.acceptsInterrupt = false := by
  rw [acceptsInterrupt, hi]
  rfl

/-- With interrupts disabled, a turn is an instruction. -/
theorem turn_fetches {p : Processor} (hi : p.flags.i = true) (bus : Bus σ) (seen : List Event) :
    ∃ opcode, .note (.fetch p opcode) ∈ (p.turn.run trace bus seen).2.2 := by
  rw [turn_run_performNext trace p bus seen (by rw [acceptsInterrupt_of_masked hi, Bool.and_false])]
  exact p.performNext_fetches bus seen

end Processor

namespace Core

/-- Only a run that finds the core busy can enable interrupts. -/
theorem answer_masked {c : Core} {call : Call} (hk : call.clocked)
    (hi : c.processor.flags.i = true)
    (hb : ∀ ticks, call = .runFor ticks → ¬ (c.receive ticks.toNat).Busy) :
    (c.answer call).Ensures fun r => r.2.processor.flags.i = true := by
  cases call with
  | setRom image =>
    simp only [answer, ensures_bind, ensures_pure]
    exact c.startRom_masked _ _
  | reset =>
    simp only [answer, ensures_bind, ensures_pure]
    exact c.reset_masked
  | runFor ticks =>
    simp only [answer, runFor_of_not_busy (hb ticks rfl), ensures_bind, ensures_done, ensures_pure]
    exact hi
  | interrupt =>
    simp only [answer, interrupt, Processor.acceptsInterrupt_of_masked hi]
    exact hi
  | step | read | write | set | restore => cases hk

end Core

namespace Machine

variable {σ ω : Type} [Device σ]

/-- A run that finds the core busy, with interrupts disabled, begins with an instruction. -/
theorem call_runFor_fetches {m : Machine σ} {ticks : UInt32}
    (hi : m.core.processor.flags.i = true) (hb : (m.core.receive ticks.toNat).Busy) :
    ∃ e ∈ (m.call trace [] (.runFor ticks)).2.2, e.isFetch = true := by
  obtain ⟨opcode, hseen⟩ := Processor.turn_fetches (p := m.core.processor) hi m.bus []
  refine ⟨.note (.fetch m.core.processor opcode), ?_, rfl⟩
  rw [call_runFor, runTicks, Core.runTicks, Core.spend_of_busy hb, bind_assoc, run_bind]
  exact mem_run_trace _ _ hseen

/-- Interrupts that were disabled are enabled again only by a run that repaid all debt. -/
theorem repaid_of_unmasked {m : Machine σ} (hi : m.core.processor.flags.i = true)
    {calls : List Call} (hc : ∀ call ∈ calls, call.clocked)
    (hu : (m.afterAll calls).core.processor.flags.i = false) :
    ∃ front ticks rest, calls = front ++ .runFor ticks :: rest ∧
      (m.afterAll front).core.processor.flags.i = true ∧
      ((m.afterAll front).core.receive ticks.toNat).Busy := by
  induction calls generalizing m with
  | nil => exact Bool.noConfusion (hi.symm.trans hu)
  | cons call rest ih =>
    by_cases hb : ∃ ticks, call = .runFor ticks ∧ (m.core.receive ticks.toNat).Busy
    · obtain ⟨ticks, rfl, hb⟩ := hb
      exact ⟨[], ticks, rest, rfl, hi, hb⟩
    · have hi' : (m.after call).core.processor.flags.i = true :=
        after_core (P := fun c => c.processor.flags.i = true)
          (Core.answer_masked (hc call List.mem_cons_self) hi fun ticks he h => hb ⟨ticks, he, h⟩)
      obtain ⟨front, ticks, rest', rfl, hrest⟩ :=
        ih hi' (fun c hm => hc c (List.mem_cons_of_mem _ hm)) hu
      exact ⟨call :: front, ticks, rest', rfl, hrest⟩

/-- After every call of a clocked host the budget is used up, and overdrawn by no more than a run
and an interrupt can. As long as it is overdrawn by more than a run can, interrupts are disabled.
A request is refused then, and whatever the host does, one is granted only after a run that was
given enough time to repay the debt and to perform an instruction. -/
theorem overdraw_bounds (devices : σ) (observe : ω → Event → ω) (seen : ω) {calls : List Call}
    (hc : ∀ call ∈ calls, call.clocked) :
    let m := (fresh devices).afterAll calls
    m.core.clock.budget ≤ 0 ∧
      -(Timing.maxCharge - 1 + Timing.interruptCost : Int) ≤ m.core.clock.budget ∧
      (m.core.clock.budget < -(Timing.maxCharge - 1 : Int) →
        m.core.processor.flags.i = true ∧
        m.call observe seen .interrupt = (.taken false, m, seen) ∧
        ∀ more : List Call, (∀ call ∈ more, call.clocked) →
          ((m.afterAll more).call observe seen .interrupt).1 = .taken true →
          ∃ front ticks rest, more = front ++ .runFor ticks :: rest ∧
            let m' := m.afterAll front
            0 < m'.core.clock.budget + ((m'.core.clock.remainder.val + ticks.toNat) / 4 : Nat) ∧
            ∃ e ∈ (m'.call trace [] (.runFor ticks)).2.2, e.isFetch = true) := by
  intro m
  have hm : m.core.Clocked := afterAll_clocked devices hc
  have hdebt := hm.debt
  refine ⟨hm.nonpos, by omega, fun hdeep => ?_⟩
  have hi : m.core.processor.flags.i = true := hm.masked (by omega)
  have ha : m.core.processor.acceptsInterrupt = false := Processor.acceptsInterrupt_of_masked hi
  refine ⟨hi, call_interrupt_refused observe seen ha, ?_⟩
  intro more hmore htaken
  have hu : (m.afterAll more).core.processor.flags.i = false := by
    cases hf : (m.afterAll more).core.processor.flags.i with
    | false => rfl
    | true =>
      have ha' := Processor.acceptsInterrupt_of_masked hf
      rw [call_interrupt_refused observe seen ha'] at htaken
      cases htaken
  obtain ⟨front, ticks, rest, hsplit, hmasked, hbusy⟩ := repaid_of_unmasked hi hmore hu
  exact ⟨front, ticks, rest, hsplit, hbusy.1, call_runFor_fetches hmasked hbusy⟩

/-- An interrupt after a run that overdrew its budget by seven units. -/
theorem overdraw_bounds_deep :
    let calls : List Call :=
      [.setRom [0x58, 0x82, 0, 0x42, 0xF3, 0x1F, 0, 0, 0, 0, 0, 0, 0, 0, 0xF0, 0x1F],
        .runFor 4, .runFor 8, .interrupt]
    let m := (fresh ({} : Unconnected)).afterAll calls
    (∀ call ∈ calls, call.clocked) ∧ m.core.clock.budget = -14 ∧
      m.call trace [] .interrupt = (.taken false, m, []) := by
  intro calls m
  have hc : ∀ call ∈ calls, call.clocked := by decide
  have hb : m.core.clock.budget = -14 := by decide +kernel
  have hdeep : m.core.clock.budget < -(Timing.maxCharge - 1 : Int) := by
    rw [hb, Timing.maxCharge_eq]
    decide
  exact ⟨hc, hb, ((overdraw_bounds ({} : Unconnected) trace [] hc).2.2 hdeep).2.1⟩

end Machine

end M740
