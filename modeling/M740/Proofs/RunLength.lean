import Mathlib.Logic.Function.Iterate
import M740.Proofs.Reentry
import M740.Proofs.Turns

/-!
# The length of a run

A clocked run is one iteration, a turn and its charge, done again and again while the core is busy
(`Core.spend_iterate`). Nothing is free and nothing is dearer than `maxCharge`, so the budget
bounds the number of iterations from both sides, whatever the devices do and wherever the handlers
lead (`Machine.runFor_length`).
-/

namespace M740

open Program

/-! ### What a turn costs at least -/

theorem Opcode.two_le_charge (opcode : Byte) (indexMode branched : Bool) :
    2 ≤ (charge opcode indexMode branched).units :=
  Nat.le_trans (Timing.two_le_cost opcode indexMode) (Nat.le_add_right _ _)

namespace Processor

theorem two_le_performNext (p : Processor) : p.performNext.Ensures fun r => 2 ≤ r.2.units := by
  simp only [performNext, ensures_bind, ensures_fetch, ensures_report]
  exact fun opcode => ensures_of_forall fun _ => Opcode.two_le_charge opcode _ _

theorem two_le_turn (p : Processor) : p.turn.Ensures fun r => 2 ≤ r.2.units := by
  simp only [turn, ensures_bind, ensures_interruptLine]
  intro level
  split
  · rw [ensures_bind]
    exact ensures_of_forall fun _ => (by decide : 2 ≤ Timing.interruptCost)
  · exact p.two_le_performNext

end Processor

/-! ### Iterations -/

namespace Core

variable {σ ω : Type} [Device σ] (observe : ω → Event → ω)

/-- One iteration of a run, on the core, the bus and what an observer has seen: a turn, charged to
the budget. -/
def iteration (s : Core × Bus σ × ω) : Core × Bus σ × ω :=
  let ((processor, charge), rest) := s.1.processor.turn.run observe s.2.1 s.2.2
  ({ processor, clock := s.1.clock.charge charge }, rest)

theorem iteration_turns {s : Core × Bus σ × ω} (h : s.1.Busy) :
    ∃ t : Turn, t.Permitted s.1.processor ∧
      Turns observe (s.1.processor, s.2) [(s.1.processor, t)]
        ((iteration observe s).1.processor, (iteration observe s).2) :=
  Processor.turn_turns observe h.2 s.2.1 s.2.2

theorem iteration_budget (s : Core × Bus σ × ω) :
    2 ≤ s.1.clock.budget - (iteration observe s).1.clock.budget ∧
      s.1.clock.budget - (iteration observe s).1.clock.budget ≤ Timing.maxCharge := by
  have hcheap := s.1.processor.two_le_turn.run observe s.2.1 s.2.2
  have hdear := s.1.processor.turn_charge.run observe s.2.1 s.2.2
  generalize hu : (s.1.processor.turn.run observe s.2.1 s.2.2).1.2.units = units at hcheap hdear
  have hcharged : (iteration observe s).1.clock.budget = s.1.clock.budget - units := by
    rw [← hu]
    rfl
  rw [hcharged]
  omega

theorem iterate_budget (n : Nat) (s : Core × Bus σ × ω) :
    2 * (n : Int) ≤ s.1.clock.budget - ((iteration observe)^[n] s).1.clock.budget ∧
      s.1.clock.budget - ((iteration observe)^[n] s).1.clock.budget ≤
        (Timing.maxCharge : Int) * n := by
  induction n generalizing s with
  | zero =>
    rw [Function.iterate_zero_apply, Int.sub_self, Int.natCast_zero, Int.mul_zero, Int.mul_zero]
    exact ⟨Int.le_refl 0, Int.le_refl 0⟩
  | succ n ih =>
    obtain ⟨hcheap, hdear⟩ := iteration_budget observe s
    obtain ⟨hcheaper, hdearer⟩ := ih (iteration observe s)
    rw [Function.iterate_succ_apply, Int.natCast_succ, Int.mul_add, Int.mul_add]
    omega

/-- A run iterates as long as the core is busy, and no longer. -/
theorem spend_iterate (s : Core × Bus σ × ω) :
    ∃ n, (∀ k < n, ((iteration observe)^[k] s).1.Busy) ∧ ¬ ((iteration observe)^[n] s).1.Busy ∧
      s.1.spend.run observe s.2.1 s.2.2 = (iteration observe)^[n] s := by
  obtain ⟨c, bus, seen⟩ := s
  induction c using Core.spend.induct generalizing bus seen with
  | case1 c hb ih =>
    let r := c.processor.turn.run observe bus seen
    obtain ⟨n, hbusy, hidle, hrun⟩ := ih r.1.1 r.1.2 r.2.1 r.2.2
    refine ⟨n + 1, fun k hk => ?_, hidle, ?_⟩
    · cases k with
      | zero => exact hb
      | succ k => exact hbusy k (Nat.lt_of_succ_lt_succ hk)
    · rw [spend_of_busy hb, run_bind]
      exact hrun
  | case2 c hb =>
    rw [spend_of_not_busy hb]
    exact ⟨0, fun k hk => absurd hk (Nat.not_lt_zero k), hb, rfl⟩

/-- A core that is not busy keeps a debt, and nothing else. -/
theorem settle_budget_of_idle {c : Core} (h : ¬ c.Busy) :
    c.settle.clock.budget = min c.clock.budget 0 := by
  rw [settle_budget]
  cases hs : c.processor.stopped with
  | false =>
    have hunits : c.clock.budget ≤ 0 := Int.not_lt.1 fun hunits => h ⟨hunits, hs⟩
    rw [if_neg fun h => Bool.noConfusion h.1, Int.min_eq_left hunits]
  | true =>
    simp only [true_and]
    split <;> omega

/-! What `n` iterations tell about a run that made them and then found the core not busy. -/

section
variable {observe} {n : Nat} {s : Core × Bus σ × ω}

theorem eq_zero_of_idle (hbusy : ∀ k < n, ((iteration observe)^[k] s).1.Busy) (h : ¬ s.1.Busy) :
    n = 0 := by
  by_contra hn
  exact h (hbusy 0 (Nat.pos_of_ne_zero hn))

theorem pos_of_busy (hidle : ¬ ((iteration observe)^[n] s).1.Busy) (h : s.1.Busy) : 0 < n := by
  refine Nat.pos_of_ne_zero ?_
  rintro rfl
  exact hidle h

/-- A busy core has at least one unit, so the last iteration overdraws by less than one charge. -/
theorem iterate_budget_of_busy (hn : 0 < n)
    (hbusy : ∀ k < n, ((iteration observe)^[k] s).1.Busy) :
    2 * (n : Int) ≤ s.1.clock.budget + 1 ∧
      -(Timing.maxCharge - 1 : Int) ≤ ((iteration observe)^[n] s).1.clock.budget := by
  obtain ⟨k, rfl⟩ := Nat.exists_eq_succ_of_ne_zero (Nat.ne_of_gt hn)
  have hunits := (hbusy k (Nat.lt_succ_self k)).1
  have hcheap := (iterate_budget observe k s).1
  have hdear := (iteration_budget observe ((iteration observe)^[k] s)).2
  rw [Function.iterate_succ_apply']
  omega

theorem le_iterations (hidle : ¬ ((iteration observe)^[n] s).1.Busy)
    (hs : ((iteration observe)^[n] s).1.processor.stopped = false) :
    (s.1.clock.budget + (Timing.maxCharge - 1)) / Timing.maxCharge ≤ n := by
  have hpaid : ((iteration observe)^[n] s).1.clock.budget ≤ 0 :=
    Int.not_lt.1 fun hunits => hidle ⟨hunits, hs⟩
  have hdear := (iterate_budget observe n s).2
  rw [Timing.maxCharge_eq] at hdear ⊢
  omega

theorem settle_iterate_of_debt (hbusy : ∀ k < n, ((iteration observe)^[k] s).1.Busy)
    (h : s.1.clock.budget ≤ 0) :
    ((iteration observe)^[n] s).1.settle.clock.budget = s.1.clock.budget := by
  have hidle : ¬ s.1.Busy := fun hb => Int.not_lt.2 h hb.1
  obtain rfl := eq_zero_of_idle hbusy hidle
  rw [Function.iterate_zero_apply, settle_budget_of_idle hidle, Int.min_eq_left h]

theorem le_settle_iterate (hbusy : ∀ k < n, ((iteration observe)^[k] s).1.Busy)
    (hidle : ¬ ((iteration observe)^[n] s).1.Busy) (h : 0 < s.1.clock.budget) :
    -(Timing.maxCharge - 1 : Int) ≤ ((iteration observe)^[n] s).1.settle.clock.budget := by
  have hcharge := Timing.maxCharge_eq
  rw [settle_budget_of_idle hidle]
  rcases Nat.eq_zero_or_pos n with rfl | hn
  · rw [Function.iterate_zero_apply]
    omega
  · have hdebt := (iterate_budget_of_busy hn hbusy).2
    omega

end

end Core

/-! ### Runs -/

namespace Machine

variable {σ ω : Type} [Device σ] (observe : ω → Event → ω)

/-- A run for a number of ticks ends, after a number of iterations that each take one turn and lower
the budget by two units to `maxCharge`. It makes none without units to spend or with a stopped
processor, and otherwise at least one and at most one for every two units, rounded up; unless the
processor stops, it makes enough of them to use up the units. What is left is nothing or a debt:
the debt there was if it was not paid off, and else less than one charge. -/
theorem runFor_length (m : Machine σ) (seen : ω) (ticks : UInt32) :
    let start := ({ m.core with clock := m.core.clock.deliver ticks }, m.bus, seen)
    let units := start.1.clock.budget
    let r := (m.call observe seen (.runFor ticks)).2
    let left := r.1.core.clock.budget
    ∃ n : Nat,
      let state (k : Nat) := (Core.iteration observe)^[k] start
      r = ({ core := (state n).1.settle, bus := (state n).2.1 }, (state n).2.2) ∧
      (∀ k < n,
        (state k).1.Busy ∧
        (∃ t : Turn, t.Permitted (state k).1.processor ∧
          Turns observe ((state k).1.processor, (state k).2) [((state k).1.processor, t)]
            ((state (k + 1)).1.processor, (state (k + 1)).2)) ∧
        2 ≤ (state k).1.clock.budget - (state (k + 1)).1.clock.budget ∧
        (state k).1.clock.budget - (state (k + 1)).1.clock.budget ≤ Timing.maxCharge) ∧
      ¬ (state n).1.Busy ∧
      (units ≤ 0 ∨ m.core.processor.stopped = true → n = 0) ∧
      (0 < units → m.core.processor.stopped = false → 1 ≤ n ∧ (n : Int) ≤ (units + 1) / 2) ∧
      left ≤ 0 ∧
      (units ≤ 0 → left = units) ∧
      (0 < units → -(Timing.maxCharge - 1 : Int) ≤ left) ∧
      (r.1.core.processor.stopped = false →
        (units + (Timing.maxCharge - 1)) / Timing.maxCharge ≤ n) := by
  intro start units r left
  obtain ⟨n, hbusy, hidle, hrun⟩ := Core.spend_iterate observe start
  let last := (Core.iteration observe)^[n] start
  have hr : r = ({ core := last.1.settle, bus := last.2.1 }, last.2.2) := by
    refine (call_runFor observe m seen ticks).trans ?_
    simp only [runTicks, Core.runTicks, run_bind]
    exact congrArg (fun s : Core × Bus σ × ω => (Machine.mk s.1.settle s.2.1, s.2.2)) hrun
  have hleft : left = last.1.settle.clock.budget := congrArg (·.1.core.clock.budget) hr
  refine ⟨n, hr, fun k hk => ⟨hbusy k hk, ?_, ?_⟩, hidle, ?_, ?_, ?_, ?_, ?_, ?_⟩
  · simp only [Function.iterate_succ_apply']
    exact Core.iteration_turns observe (hbusy k hk)
  · simp only [Function.iterate_succ_apply']
    exact Core.iteration_budget observe _
  · rintro (hunits | hs)
    · exact Core.eq_zero_of_idle hbusy fun hb => Int.not_lt.2 hunits hb.1
    · exact Core.eq_zero_of_idle hbusy fun hb => Bool.noConfusion (hs.symm.trans hb.2)
  · intro hunits hs
    have hn := Core.pos_of_busy hidle ⟨hunits, hs⟩
    have hmost := (Core.iterate_budget_of_busy hn hbusy).1
    omega
  · rw [hleft, Core.settle_budget_of_idle hidle]
    exact Int.min_le_right _ _
  · intro hunits
    rw [hleft]
    exact Core.settle_iterate_of_debt hbusy hunits
  · intro hunits
    rw [hleft]
    exact Core.le_settle_iterate hbusy hidle hunits
  · intro hs
    rw [hr] at hs
    exact Core.le_iterations hidle hs

/-- A device that asks for an interrupt and never takes its request back. -/
structure Insistent where

instance : Device Insistent where
  read insistent _ := (openBus, insistent)
  write insistent _ _ := insistent
  requestsInterrupt _ := true

/-- Twenty units for a handler that enables interrupts at once, under a request that stays, and no
unit at all. -/
theorem runFor_length_insistent :
    let m := (fresh ({} : Insistent)).after (.setRom reentrantImage)
    let start (ticks : UInt32) :=
      ({ m.core with clock := m.core.clock.deliver ticks }, m.bus, ([] : List Event))
    (start 80).1.clock.budget = 20 ∧ m.core.processor.stopped = false ∧
      (m.call trace [] (.runFor 80)).2.1.core.processor.stopped = false ∧
      (start 3).1.clock.budget ≤ 0 ∧
      (∃ n : Nat, 3 ≤ n ∧ (n : Int) ≤ 10 ∧
        (m.call trace [] (.runFor 80)).2.1.core =
          ((Core.iteration trace)^[n] (start 80)).1.settle ∧
        (∃ t : Turn, t.Permitted m.core.processor) ∧
        (m.call trace [] (.runFor 80)).2.1.core.clock.budget ≤ 0 ∧
        -8 ≤ (m.call trace [] (.runFor 80)).2.1.core.clock.budget) ∧
      (m.call trace [] (.runFor 3)).2.1.core = (start 3).1.settle ∧
      (m.call trace [] (.runFor 3)).2.1.core.clock.budget = (start 3).1.clock.budget := by
  intro m start
  have hunits : (start 80).1.clock.budget = 20 := by decide +kernel
  have hpos : 0 < (start 80).1.clock.budget := by rw [hunits]; decide
  have hs : m.core.processor.stopped = false := by decide +kernel
  -- naming the run would have the kernel compare its name with the run by running it
  have hend : (m.call trace [] (.runFor 80)).2.1.core.processor.stopped = false := by
    decide +kernel
  have hnone : (start 3).1.clock.budget ≤ 0 := by decide +kernel
  refine ⟨hunits, hs, hend, hnone, ?_, ?_⟩
  · obtain ⟨n, hr, hturns, -, -, hmost, hleft, -, hdebt, hleast⟩ := runFor_length trace m [] 80
    obtain ⟨hone, hn⟩ := hmost hpos hs
    obtain ⟨-, ⟨t, ht, -⟩, -⟩ := hturns 0 hone
    have hl := hleast hend
    have hd := hdebt hpos
    rw [Timing.maxCharge_eq] at hl hd
    rw [show (m.core.clock.deliver 80).budget = 20 from hunits] at hn hl
    exact ⟨n, by omega, hn, congrArg (·.1.core) hr, ⟨t, ht⟩, hleft, hd⟩
  · obtain ⟨n, hr, -, -, hnone', -, -, hkept, -⟩ := runFor_length trace m [] 3
    obtain rfl := hnone' (.inl hnone)
    exact ⟨congrArg (·.1.core) hr, hkept hnone⟩

end Machine

end M740
