import M740.Proofs.Calls
import M740.Proofs.Slicing

/-!
# Hosts that single-step

A host can drive a machine without its clock: it keeps the account of units itself, asks for an
interrupt while the line is asserted, and steps when none is taken (`Hosted.run`). One turn of the
host is one turn of a clocked run (`Hosted.turn_eq`), so the two drivers go through the same states
and differ only in who holds the budget (`Hosted.Follows`).
-/

namespace M740

open Program

/-- Where its turns have led a host. -/
structure Hosted (σ ω : Type) where
  /-- Units that the host still has to spend. -/
  units : Int
  machine : Machine σ
  seen : ω

namespace Hosted

variable {σ ω : Type} [Device σ] (observe : ω → Event → ω)

/-- Units are left and the processor runs. -/
def Busy (h : Hosted σ ω) : Prop := 0 < h.units ∧ h.machine.core.processor.stopped = false

instance (h : Hosted σ ω) : Decidable h.Busy := inferInstanceAs (Decidable (_ ∧ _))

/-- A single step, paid by the host. -/
def step (h : Hosted σ ω) : Hosted σ ω :=
  match h.machine.call observe h.seen .step with
  | (.units n, machine, seen) => { units := h.units - n, machine, seen }
  | (_, machine, seen) => { h with machine, seen }

/-- An interrupt if the line is asserted and the processor takes it, else a single step. -/
def turn (h : Hosted σ ω) : Hosted σ ω :=
  if Device.requestsInterrupt h.machine.bus.devices then
    match h.machine.call observe h.seen .interrupt with
    | (.taken true, machine, seen) => { units := h.units - Timing.interruptCost, machine, seen }
    | (_, machine, seen) => step observe { h with machine, seen }
  else step observe h

theorem step_eq {h : Hosted σ ω} (hs : h.machine.core.processor.stopped = false) :
    let r := h.machine.core.processor.performNext.run observe h.machine.bus h.seen
    step observe h =
      { units := h.units - r.1.2.units
        machine := {
          core := { processor := r.1.1, clock := h.machine.core.clock.count r.1.2 }
          bus := r.2.1 }
        seen := r.2.2 } := by
  simp only [step, Machine.call_step observe h.seen hs]

/-- A turn of the host is a turn of the processor, up to the budget of the machine's own clock. -/
theorem turn_eq {h : Hosted σ ω} (hs : h.machine.core.processor.stopped = false) :
    let r := h.machine.core.processor.turn.run observe h.machine.bus h.seen
    ∃ clock : Clock, clock.cycles = (h.machine.core.clock.count r.1.2).cycles ∧
      turn observe h =
        { units := h.units - r.1.2.units
          machine := { core := { processor := r.1.1, clock }, bus := r.2.1 }
          seen := r.2.2 } := by
  intro r
  cases hl : Device.requestsInterrupt h.machine.bus.devices with
  | false =>
    have hr := Processor.turn_run_performNext observe h.machine.core.processor h.machine.bus h.seen
      (by rw [hl, Bool.false_and])
    refine ⟨h.machine.core.clock.count r.1.2, rfl, ?_⟩
    simp only [turn, hl, Bool.false_eq_true, if_false, step_eq observe hs, r, hr]
  | true =>
    cases ha : h.machine.core.processor.acceptsInterrupt with
    | false =>
      have hr := Processor.turn_run_performNext observe h.machine.core.processor h.machine.bus
        h.seen (by rw [ha, Bool.and_false])
      refine ⟨h.machine.core.clock.count r.1.2, rfl, ?_⟩
      simp only [turn, hl, if_true, Machine.call_interrupt_refused observe h.seen ha,
        step_eq observe hs, r, hr]
    | true =>
      have hr := Processor.turn_run_interrupt observe h.seen hl ha
      refine ⟨h.machine.core.clock.charge .interrupt, by simp only [r, hr]; rfl, ?_⟩
      simp only [turn, hl, if_true, Machine.call_interrupt_taken observe h.seen ha, r, hr]
      rfl

theorem turn_units_lt {h : Hosted σ ω} (hb : h.Busy) :
    (turn observe h).units.toNat < h.units.toNat := by
  obtain ⟨clock, -, ht⟩ := turn_eq observe hb.2
  have hpos := (h.machine.core.processor.turn.run observe h.machine.bus h.seen).1.2.pos
  have := hb.1
  simp only [ht]
  omega

/-- Takes turns while units are left and the processor is not stopped. -/
def run (h : Hosted σ ω) : Hosted σ ω :=
  if h.Busy then run (turn observe h) else h
termination_by h.units.toNat
decreasing_by
  rename_i hb
  exact turn_units_lt observe hb

/-- The host is where a core is in its clocked run: they differ only in who holds the budget. -/
structure Follows (h : Hosted σ ω) (c : Core) (bus : Bus σ) (seen : ω) : Prop where
  processor : h.machine.core.processor = c.processor
  cycles : h.machine.core.clock.cycles = c.clock.cycles
  units : h.units = c.clock.budget
  bus : h.machine.bus = bus
  seen : h.seen = seen

section
variable {h : Hosted σ ω} {c : Core} {bus : Bus σ} {seen : ω}

omit [Device σ] in
theorem Follows.busy_iff (hf : h.Follows c bus seen) : h.Busy ↔ c.Busy := by
  rw [Busy, Core.Busy, hf.units, hf.processor]

theorem Follows.turn (hf : h.Follows c bus seen) (hs : c.processor.stopped = false) :
    let r := c.processor.turn.run observe bus seen
    (turn observe h).Follows { processor := r.1.1, clock := c.clock.charge r.1.2 } r.2.1 r.2.2 := by
  obtain ⟨hp, hc, hu, rfl, rfl⟩ := hf
  obtain ⟨clock, hclock, ht⟩ := turn_eq observe (hp.symm ▸ hs)
  rw [hp] at hclock ht
  rw [ht]
  refine ⟨rfl, ?_, ?_, rfl, rfl⟩
  · simp only [hclock, Clock.charge, Clock.count, hc]
  · simp only [Clock.charge, hu]

theorem Follows.run (hf : h.Follows c bus seen) :
    let r := c.spend.run observe bus seen
    (run observe h).Follows r.1 r.2.1 r.2.2 := by
  induction c using Core.spend.induct generalizing h bus seen with
  | case1 c hb ih =>
    rw [Hosted.run, if_pos (hf.busy_iff.2 hb), Core.spend_of_busy hb, run_bind]
    exact ih _ _ (hf.turn observe hb.2)
  | case2 c hb =>
    rwa [Hosted.run, if_neg fun h => hb (hf.busy_iff.1 h), Core.spend_of_not_busy hb]

end

end Hosted

theorem Core.spend_remainder (c : Core) :
    c.spend.Ensures fun c' => c'.clock.remainder = c.clock.remainder :=
  (spend_ensures (I := fun c' => c'.clock.remainder = c.clock.remainder)
    (fun _ _ h => ensures_of_forall fun _ => h) c rfl).imp fun _ h => h.1

/-- A clocked run is a host that single-steps with the same units, except that a stopped processor
keeps none of them. -/
theorem Machine.runFor_eq_hosted {σ ω : Type} [Device σ] (observe : ω → Event → ω)
    (m : Machine σ) (seen : ω) (ticks : UInt32) :
    let total := m.core.clock.remainder.val + ticks.toNat
    let units := m.core.clock.budget + (total / Timing.ticksPerUnit : Nat)
    let host := Hosted.run observe { units, machine := m, seen }
    let (m', seen') := (m.call observe seen (.runFor ticks)).2
    m'.core.processor = host.machine.core.processor ∧
      m'.bus = host.machine.bus ∧
      seen' = host.seen ∧
      m'.core.clock.cycles = host.machine.core.clock.cycles ∧
      m'.core.clock.budget =
        (if host.machine.core.processor.stopped ∧ 0 < host.units then 0 else host.units) ∧
      m'.core.clock.remainder.val = total % Timing.ticksPerUnit := by
  intro total units host
  have hf : Hosted.Follows { units, machine := m, seen } (m.core.receive ticks.toNat) m.bus seen :=
    ⟨rfl, rfl, rfl, rfl, rfl⟩
  obtain ⟨hp, hc, hu, hbus, hseen⟩ := hf.run observe
  have hr := (m.core.receive ticks.toNat).spend_remainder.run observe m.bus seen
  simp only [call_runFor, runTicks, Core.runTicks, run_bind, pure_eq, run, Core.settle_processor,
    Core.settle_cycles, Core.settle_budget, Core.settle_remainder, host, hp, hc, hu, hbus, hseen,
    hr]
  exact ⟨trivial, trivial, trivial, trivial, trivial, rfl⟩

end M740
