import M740.Proofs.Masking
import M740.Proofs.Metering

/-!
# Independence of the clock

The clock decides how long a run lasts, and nothing else: no instruction sees it. Without runs, two
machines that differ only in their clocks cannot be told apart (`Machine.Agree.calls`); with runs,
two that differ only in their cycle totals cannot, and the totals keep their distance
(`Machine.calls_ahead`).
-/

namespace M740

open Program

/-! ### Calls that no clock decides -/

/-- Without a run, what the host is answered and what becomes of the processor does not depend on
the clock. -/
theorem Core.answer_processor (c : Core) (clock : Clock) {call : Call}
    (hc : ∀ ticks, call ≠ .runFor ticks) :
    Prod.map id processor <$> ({ c with clock } : Core).answer call =
      Prod.map id processor <$> c.answer call := by
  cases call with
  | runFor ticks => exact absurd rfl (hc ticks)
  | setRom image =>
    simp only [answer, startRom, reset, map_eq_pure_bind, bind_assoc]
    split <;> rfl
  | reset => simp only [answer, reset, map_eq_pure_bind, bind_assoc]; rfl
  | step =>
    simp only [answer, step]
    split
    · rfl
    · simp only [map_eq_pure_bind, bind_assoc]; rfl
  | interrupt =>
    simp only [answer, interrupt]
    split
    · simp only [map_eq_pure_bind, bind_assoc]; rfl
    · rfl
  | read | write | set | restore => rfl

namespace Machine

variable {σ ω : Type} [Device σ] (observe : ω → Event → ω)

/-- The machines differ in their clocks at most. -/
structure Agree (m m' : Machine σ) : Prop where
  processor : m'.core.processor = m.core.processor
  bus : m'.bus = m.bus

variable {m m' : Machine σ}

theorem Agree.call (h : m.Agree m') (seen : ω) {call : Call}
    (hc : ∀ ticks, call ≠ .runFor ticks) :
    let r := m.call observe seen call
    let r' := m'.call observe seen call
    r'.1 = r.1 ∧ r.2.1.Agree r'.2.1 ∧ r'.2.2 = r.2.2 := by
  obtain ⟨⟨p', clock'⟩, bus'⟩ := m'
  obtain ⟨rfl, rfl⟩ := h
  have hrun := congrArg (fun prog => prog.run observe (m.bus.prepare call) seen)
    (m.core.answer_processor clock' hc)
  simp only [run_map, Prod.mk.injEq, Prod.map, id] at hrun
  obtain ⟨⟨hanswer, hprocessor⟩, hrest⟩ := hrun
  exact ⟨hanswer, ⟨hprocessor, congrArg (·.1) hrest⟩, congrArg (·.2) hrest⟩

/-- Machines that differ in their clocks cannot be told apart without a run. -/
theorem Agree.calls (h : m.Agree m') (seen : ω) {calls : List Call}
    (hc : ∀ ticks, .runFor ticks ∉ calls) :
    let r := m.calls observe seen calls
    let r' := m'.calls observe seen calls
    r'.1 = r.1 ∧ r.2.1.Agree r'.2.1 ∧ r'.2.2 = r.2.2 := by
  induction calls generalizing m m' seen with
  | nil => exact ⟨rfl, h, rfl⟩
  | cons call rest ih =>
    have hcall : ∀ ticks, call ≠ .runFor ticks :=
      fun ticks he => hc ticks (he ▸ List.mem_cons_self)
    have hrest : ∀ ticks, .runFor ticks ∉ rest :=
      fun ticks hm => hc ticks (List.mem_cons_of_mem _ hm)
    obtain ⟨hanswer, hagree, hseen⟩ := h.call observe seen hcall
    obtain ⟨hanswers, hlater⟩ := ih hagree (m.call observe seen call).2.2 hrest
    simp only [Machine.calls, hseen, hanswer, hanswers]
    exact ⟨trivial, hlater⟩

end Machine

/-! ### Cycle totals -/

namespace Clock

/-- The same clock with a cycle total that is ahead. -/
def ahead (c : Clock) (units : UInt64) : Clock := { c with cycles := c.cycles + units }

theorem count_ahead (c : Clock) (units : UInt64) (u : Charge) :
    (c.ahead units).count u = (c.count u).ahead units := by
  have hcomm : c.cycles + units + UInt64.ofNat u.units = c.cycles + UInt64.ofNat u.units + units :=
    by ac_rfl
  simp only [ahead, count, hcomm]

theorem charge_ahead (c : Clock) (units : UInt64) (u : Charge) :
    (c.ahead units).charge u = (c.charge u).ahead units := by
  simp only [charge, count_ahead]
  rfl

end Clock

namespace Core

def ahead (c : Core) (units : UInt64) : Core := { c with clock := c.clock.ahead units }

theorem step_ahead (c : Core) (units : UInt64) :
    (c.ahead units).step = Prod.map id (·.ahead units) <$> c.step := by
  have hstopped : (c.ahead units).processor = c.processor := rfl
  rw [step, step, hstopped]
  split
  · rfl
  · rw [map_bind]
    refine bind_congr fun r => ?_
    simp only [ahead, Clock.count_ahead]
    rfl

theorem interrupt_ahead (c : Core) (units : UInt64) :
    (c.ahead units).interrupt = Prod.map id (·.ahead units) <$> c.interrupt := by
  have hsame : (c.ahead units).processor = c.processor := rfl
  rw [interrupt, interrupt, hsame]
  split
  · rw [map_bind]
    refine bind_congr fun p => ?_
    simp only [ahead, Clock.charge_ahead]
    rfl
  · rfl

theorem spend_ahead (c : Core) (units : UInt64) :
    (c.ahead units).spend = (·.ahead units) <$> c.spend := by
  induction c using spend.induct with
  | case1 c hb ih =>
    have hahead : (c.ahead units).Busy := hb
    rw [spend_of_busy hb, spend_of_busy hahead, map_bind]
    refine bind_congr fun r => ?_
    have hnext : ({ processor := r.1, clock := (c.ahead units).clock.charge r.2 } : Core) =
        Core.ahead { processor := r.1, clock := c.clock.charge r.2 } units := by
      simp only [ahead, Clock.charge_ahead]
    simp only [hnext, ih r.1 r.2]
  | case2 c hb =>
    have hahead : ¬ (c.ahead units).Busy := hb
    rw [spend_of_not_busy hb, spend_of_not_busy hahead]
    rfl

theorem settle_ahead (c : Core) (units : UInt64) :
    (c.ahead units).settle = c.settle.ahead units := by
  have hsame : (c.ahead units).processor = c.processor := rfl
  simp only [settle, hsame]
  split <;> rfl

theorem runFor_ahead (c : Core) (units : UInt64) (ticks : UInt32) :
    (c.ahead units).runFor ticks = (·.ahead units) <$> c.runFor ticks := by
  have hreceive : (c.ahead units).receive ticks.toNat = (c.receive ticks.toNat).ahead units := rfl
  rw [runFor_eq_runTicks, runFor_eq_runTicks, runTicks, runTicks, hreceive, spend_ahead, map_bind,
    bind_map_left]
  refine bind_congr fun c' => ?_
  rw [settle_ahead]
  rfl

/-- A call does the same from a cycle total that is ahead, and leaves it ahead. -/
theorem answer_ahead (c : Core) (units : UInt64) {call : Call} (hc : ∀ s, call ≠ .restore s) :
    (c.ahead units).answer call = Prod.map id (·.ahead units) <$> c.answer call := by
  cases call with
  | restore s => exact absurd rfl (hc s)
  | setRom image =>
    simp only [answer, startRom, reset, map_bind]
    split <;> rfl
  | reset => rfl
  | runFor ticks => simp only [answer, runFor_ahead, map_bind, bind_map_left]; rfl
  | step => simp only [answer, step_ahead, map_bind, bind_map_left]; rfl
  | interrupt => simp only [answer, interrupt_ahead, map_bind, bind_map_left]; rfl
  | read | write | set => rfl

end Core

namespace Machine

variable {σ ω : Type} [Device σ] (observe : ω → Event → ω)

def ahead (m : Machine σ) (units : UInt64) : Machine σ := { m with core := m.core.ahead units }

theorem call_ahead (m : Machine σ) (units : UInt64) (seen : ω) {call : Call}
    (hc : ∀ s, call ≠ .restore s) :
    (m.ahead units).call observe seen call =
      let r := m.call observe seen call
      (r.1, r.2.1.ahead units, r.2.2) := by
  simp only [Machine.call, ahead, m.core.answer_ahead units hc, run_map]
  rfl

/-- Calls do the same from a cycle total that is ahead, and leave it ahead. -/
theorem calls_ahead (m : Machine σ) (units : UInt64) (seen : ω) {calls : List Call}
    (hc : ∀ s, .restore s ∉ calls) :
    (m.ahead units).calls observe seen calls =
      let r := m.calls observe seen calls
      (r.1, r.2.1.ahead units, r.2.2) := by
  induction calls generalizing m seen with
  | nil => rfl
  | cons call rest ih =>
    have hcall : ∀ s, call ≠ .restore s := fun s he => hc s (he ▸ List.mem_cons_self)
    have hrest : ∀ s, .restore s ∉ rest := fun s hm => hc s (List.mem_cons_of_mem _ hm)
    simp only [Machine.calls, m.call_ahead observe units seen hcall, ih _ _ hrest]

omit [Device σ] in
theorem cycles_ahead_sub (m : Machine σ) (units : UInt64) :
    (m.ahead units).core.clock.cycles - m.core.clock.cycles = units := by
  show m.core.clock.cycles + units - m.core.clock.cycles = units
  rw [UInt64.add_comm, UInt64.add_sub_cancel]

omit [Device σ] in
/-- A machine that differs from another in its cycle total is ahead of it by the difference. -/
theorem eq_ahead {m m' : Machine σ} {units : UInt64}
    (hp : m'.core.processor = m.core.processor) (hb : m'.bus = m.bus)
    (hbudget : m'.core.clock.budget = m.core.clock.budget)
    (hremainder : m'.core.clock.remainder = m.core.clock.remainder)
    (hunits : m'.core.clock.cycles - m.core.clock.cycles = units) : m' = m.ahead units := by
  obtain ⟨⟨p', budget', remainder', cycles'⟩, bus'⟩ := m'
  obtain rfl := hp
  obtain rfl := hb
  obtain rfl := hbudget
  obtain rfl := hremainder
  have hcycles : cycles' = m.core.clock.cycles + units := by
    rw [← hunits, UInt64.add_comm, UInt64.sub_add_cancel]
  rw [hcycles]
  rfl

/-- The clock never feeds back. Machines that differ in their clocks, in whatever way, give the same
answers to calls without a run, access the bus in the same way and stay in agreement. Machines that
differ in their cycle totals only do so under runs as well, and the totals keep their difference
modulo 2^64. -/
theorem clock_never_feeds_back {m m' : Machine σ}
    (hp : m'.core.processor = m.core.processor) (hb : m'.bus = m.bus) (seen : ω)
    (calls : List Call) :
    let r := m.calls observe seen calls
    let r' := m'.calls observe seen calls
    ((∀ ticks, .runFor ticks ∉ calls) →
      r'.1 = r.1 ∧ r'.2.2 = r.2.2 ∧ r'.2.1.core.processor = r.2.1.core.processor ∧
        r'.2.1.bus = r.2.1.bus) ∧
    (m'.core.clock.budget = m.core.clock.budget →
      m'.core.clock.remainder = m.core.clock.remainder → (∀ s, .restore s ∉ calls) →
      r'.1 = r.1 ∧ r'.2.2 = r.2.2 ∧ r'.2.1.core.processor = r.2.1.core.processor ∧
        r'.2.1.bus = r.2.1.bus ∧
        r'.2.1.core.clock.budget = r.2.1.core.clock.budget ∧
        r'.2.1.core.clock.remainder = r.2.1.core.clock.remainder ∧
        r'.2.1.core.clock.cycles - r.2.1.core.clock.cycles =
          m'.core.clock.cycles - m.core.clock.cycles) := by
  intro r r'
  refine ⟨fun hc => ?_, fun hbudget hremainder hc => ?_⟩
  · obtain ⟨hanswers, hagree, hseen⟩ := Agree.calls observe ⟨hp, hb⟩ seen hc
    exact ⟨hanswers, hseen, hagree.processor, hagree.bus⟩
  · generalize hunits : m'.core.clock.cycles - m.core.clock.cycles = units
    have hm : m' = m.ahead units := eq_ahead hp hb hbudget hremainder hunits
    have hcalls := m.calls_ahead observe units seen hc
    rw [← hm] at hcalls
    simp only [r', hcalls]
    exact ⟨rfl, rfl, rfl, rfl, rfl, rfl, cycles_ahead_sub _ _⟩

/-- A machine with another clock. -/
def withClock {σ : Type} (m : Machine σ) (clock : Clock) : Machine σ :=
  { m with core := { m.core with clock } }

/-- Machines at the beginning of a handler: one owes nine units, and the cycle total of one is about
to wrap around. -/
theorem clock_never_feeds_back_wrap :
    let owing := reentrant.withClock { budget := -9, remainder := ⟨3, by decide⟩ }
    let late := reentrant.withClock { reentrant.core.clock with cycles := 0xFFFFFFFFFFFFFFFF }
    let steps : List Call := [.step, .interrupt, .step, .reset]
    let runs : List Call := [.runFor 9, .interrupt, .step]
    (owing.core.processor = reentrant.core.processor ∧ owing.bus = reentrant.bus ∧
      (∀ ticks, .runFor ticks ∉ steps) ∧
      (owing.calls trace [] steps).1 = (reentrant.calls trace [] steps).1 ∧
      (owing.calls trace [] steps).2.2 = (reentrant.calls trace [] steps).2.2) ∧
    late.core.clock.budget = reentrant.core.clock.budget ∧
      late.core.clock.remainder = reentrant.core.clock.remainder ∧ (∀ s, .restore s ∉ runs) ∧
      (reentrant.calls trace [] runs).2.1.core.clock.cycles = 11 ∧
      (late.calls trace [] runs).2.1.core.clock.cycles -
        (reentrant.calls trace [] runs).2.1.core.clock.cycles = 0xFFFFFFFFFFFFFFFF := by
  intro owing late steps runs
  have hsteps : ∀ ticks, .runFor ticks ∉ steps := by simp [steps]
  have hruns : ∀ s, .restore s ∉ runs := by simp [runs]
  obtain ⟨hanswers, hseen, -⟩ :=
    (@clock_never_feeds_back _ _ _ trace reentrant owing rfl rfl [] steps).1 hsteps
  obtain ⟨-, -, -, -, -, -, hcycles⟩ :=
    (@clock_never_feeds_back _ _ _ trace reentrant late rfl rfl [] runs).2 rfl rfl hruns
  have hzero : reentrant.core.clock.cycles = 0 := by decide +kernel
  have htotal : (reentrant.calls trace [] runs).2.1.core.clock.cycles = 11 := by decide +kernel
  rw [hzero, UInt64.sub_zero] at hcycles
  exact ⟨⟨rfl, rfl, hsteps, hanswers, hseen⟩, rfl, rfl, hruns, htotal, hcycles⟩

end Machine

end M740
