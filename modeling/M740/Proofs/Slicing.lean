import M740.Proofs.Reachable

/-!
# Slices of time

How a host cuts time into slices does not matter. Ticks delivered in two calls are the ticks
delivered in one (`Clock.receive_receive`), and a run can be interrupted between any two turns to
receive more (`Core.spend_receive`). Only a stopped processor loses units at the end of a slice,
and it would lose them later all the same. So the calls for a list of slices do what one run for
all of their ticks does (`Machine.calls_runFor`).
-/

namespace M740

open Program

namespace Clock

theorem ext_val {c d : Clock} (hb : c.budget = d.budget) (hr : c.remainder.val = d.remainder.val)
    (hc : c.cycles = d.cycles) : c = d := by
  cases c; cases d
  simp_all [Fin.ext_iff]

/-- Adds the whole units in any number of ticks and in what remained of earlier ones. -/
def receive (c : Clock) (ticks : Nat) : Clock :=
  let total := c.remainder.val + ticks
  { c with
    budget := c.budget + total / Timing.ticksPerUnit
    remainder := leftOver total }

theorem receive_budget (c : Clock) (ticks : Nat) :
    (c.receive ticks).budget = c.budget + (c.remainder.val + ticks : Nat) / 4 := rfl

theorem receive_remainder (c : Clock) (ticks : Nat) :
    (c.receive ticks).remainder.val = (c.remainder.val + ticks) % 4 := rfl

theorem receive_receive (c : Clock) (m n : Nat) :
    (c.receive m).receive n = c.receive (m + n) := by
  apply ext_val
  · simp only [receive_budget, receive_remainder]; omega
  · simp only [receive_remainder]; omega
  · rfl

theorem receive_zero (c : Clock) : c.receive 0 = c := by
  have : c.remainder.val < 4 := c.remainder.isLt
  apply ext_val
  · simp only [receive_budget]; omega
  · simp only [receive_remainder]; omega
  · rfl

theorem budget_le_receive (c : Clock) (ticks : Nat) : c.budget ≤ (c.receive ticks).budget := by
  simp only [receive_budget]
  omega

theorem charge_receive (c : Clock) (charge : Charge) (ticks : Nat) :
    (c.charge charge).receive ticks = (c.receive ticks).charge charge := by
  apply ext_val
  · simp only [receive_budget, Clock.charge, count]; omega
  · rfl
  · rfl

theorem forfeit_receive_forfeit (c : Clock) (ticks : Nat) :
    (c.forfeit.receive ticks).forfeit = (c.receive ticks).forfeit := by
  apply ext_val
  · simp only [forfeit, receive_budget]; omega
  · rfl
  · rfl

end Clock

namespace Core

def receive (c : Core) (ticks : Nat) : Core := { c with clock := c.clock.receive ticks }

/-- A stopped processor keeps no units for later. -/
def settle (c : Core) : Core :=
  { c with clock := if c.processor.stopped then c.clock.forfeit else c.clock }

@[simp]
theorem settle_processor (c : Core) : c.settle.processor = c.processor := rfl

@[simp]
theorem settle_cycles (c : Core) : c.settle.clock.cycles = c.clock.cycles := by
  simp only [settle]
  split <;> rfl

@[simp]
theorem settle_remainder (c : Core) : c.settle.clock.remainder = c.clock.remainder := by
  simp only [settle]
  split <;> rfl

theorem settle_budget (c : Core) :
    c.settle.clock.budget =
      if c.processor.stopped ∧ 0 < c.clock.budget then 0 else c.clock.budget := by
  cases hs : c.processor.stopped with
  | false => simp [settle, hs]
  | true =>
    simp only [settle, hs, if_true, Clock.forfeit, true_and]
    split <;> omega

theorem min_le_settle_budget (c : Core) : min c.clock.budget 0 ≤ c.settle.clock.budget := by
  rw [settle_budget]
  split <;> omega

/-- One run for any number of ticks. -/
def runTicks (c : Core) (ticks : Nat) : Program Core := do
  let c ← (c.receive ticks).spend
  return c.settle

theorem runFor_eq_runTicks (c : Core) (ticks : UInt32) : c.runFor ticks = c.runTicks ticks.toNat :=
  rfl

/-- A run that receives more ticks at its end goes on as if it had had them from the start. -/
theorem spend_receive (c : Core) (ticks : Nat) :
    (c.receive ticks).spend = c.spend >>= fun c => (c.receive ticks).spend := by
  induction c using spend.induct with
  | case1 c hb ih =>
    have hr : (c.receive ticks).Busy :=
      ⟨Int.lt_of_lt_of_le hb.1 (c.clock.budget_le_receive ticks), hb.2⟩
    rw [spend_of_busy hb, spend_of_busy hr, bind_assoc]
    refine bind_congr fun r => ?_
    simp only [receive] at ih ⊢
    rw [← ih r.1 r.2, Clock.charge_receive]
  | case2 c hb => rw [spend_of_not_busy hb, done_bind]

/-- What a stopped processor forfeits at the end of a slice it would have forfeited later. -/
theorem runTicks_settle (c : Core) (ticks : Nat) :
    c.settle.runTicks ticks = c.runTicks ticks := by
  cases hs : c.processor.stopped with
  | false => simp [settle, hs]
  | true =>
    have idle : ∀ clock, ¬ Busy { c with clock } := fun _ h => Bool.noConfusion (hs.symm.trans h.2)
    simp only [runTicks, settle, hs, if_true, receive, spend_of_not_busy (idle _), done_bind,
      Clock.forfeit_receive_forfeit]

theorem runTicks_add (c : Core) (m n : Nat) :
    c.runTicks (m + n) = c.runTicks m >>= fun c => c.runTicks n := by
  have hr : c.receive (m + n) = (c.receive m).receive n := by
    simp only [receive, Clock.receive_receive]
  calc c.runTicks (m + n)
    _ = (c.receive m).spend >>= fun c => c.runTicks n := by
      simp only [runTicks, hr, spend_receive (c.receive m) n, bind_assoc]
    _ = (c.receive m).spend >>= fun c => c.settle.runTicks n := by simp only [runTicks_settle]
    _ = c.runTicks m >>= fun c => c.runTicks n := by simp [runTicks, bind_assoc]

theorem runTicks_zero (c : Core) (h : c.clock.budget ≤ 0) : c.runTicks 0 = .done c := by
  have hb : ¬ c.Busy := fun hb => Int.not_lt.2 h hb.1
  have hf : c.clock.forfeit = c.clock := by simp only [Clock.forfeit, Int.min_eq_left h]
  simp only [runTicks, receive, Clock.receive_zero, spend_of_not_busy hb, done_bind, settle, hf,
    ite_self, pure_eq]

end Core

namespace Machine

variable {σ ω : Type} [Device σ]

/-- One run for any number of ticks. -/
def runTicks (observe : ω → Event → ω) (m : Machine σ) (seen : ω) (ticks : Nat) :
    Machine σ × ω :=
  let (core, bus, seen) := (m.core.runTicks ticks).run observe m.bus seen
  ({ core, bus }, seen)

theorem call_runFor (observe : ω → Event → ω) (m : Machine σ) (seen : ω) (ticks : UInt32) :
    (m.call observe seen (.runFor ticks)).2 = m.runTicks observe seen ticks.toNat := by
  simp only [call, Core.answer, Core.runFor_eq_runTicks, run_bind, runTicks]
  rfl

theorem runTicks_add (observe : ω → Event → ω) (m : Machine σ) (seen : ω) (k n : Nat) :
    m.runTicks observe seen (k + n) =
      (m.runTicks observe seen k).1.runTicks observe (m.runTicks observe seen k).2 n := by
  simp only [runTicks, Core.runTicks_add, run_bind]

theorem runTicks_zero (observe : ω → Event → ω) (m : Machine σ) (seen : ω)
    (h : m.core.clock.budget ≤ 0) : m.runTicks observe seen 0 = (m, seen) := by
  simp only [runTicks, Core.runTicks_zero _ h, run]

/-- Ticks of the slices of a list, all together. -/
def totalTicks : List UInt32 → Nat
  | [] => 0
  | slice :: rest => slice.toNat + totalTicks rest

/-- Calls for the slices of a list, after a run for `ticks` more. -/
theorem runTicks_calls (observe : ω → Event → ω) (m : Machine σ) (seen : ω) (ticks : Nat)
    (slices : List UInt32) :
    ((m.runTicks observe seen ticks).1.calls observe (m.runTicks observe seen ticks).2
      (slices.map .runFor)).2 = m.runTicks observe seen (ticks + totalTicks slices) := by
  induction slices generalizing ticks with
  | nil => rfl
  | cons slice rest ih =>
    rw [totalTicks, ← Nat.add_assoc, ← ih, runTicks_add, ← call_runFor]
    rfl

theorem calls_runFor (observe : ω → Event → ω) (m : Machine σ) (seen : ω)
    (h : m.core.clock.budget ≤ 0) (slices : List UInt32) :
    (m.calls observe seen (slices.map .runFor)).2 =
      m.runTicks observe seen (totalTicks slices) := by
  have := runTicks_calls observe m seen 0 slices
  rwa [runTicks_zero observe m seen h, Nat.zero_add] at this

/-- Two ways to cut the same time into slices leave the same machine, and whoever watches the
bus sees the same. -/
theorem slices_eq_of_totalTicks_eq {m : Machine σ} (hm : m.Reachable) (observe : ω → Event → ω)
    (seen : ω) {slices slices' : List UInt32} (h : totalTicks slices = totalTicks slices') :
    (m.calls observe seen (slices.map .runFor)).2 =
      (m.calls observe seen (slices'.map .runFor)).2 := by
  rw [calls_runFor observe m seen hm.budget_nonpos, calls_runFor observe m seen hm.budget_nonpos, h]

/-- The image stops the processor in its first instruction. -/
theorem slices_eq_on_stop :
    let m := (fresh ({} : Unconnected)).after
      (.setRom [0x42, 0, 0, 0, 0, 0, 0, 0, 0, 0, 0, 0xF3, 0x1F])
    let observe := fun (seen : List Event) event => seen ++ [event]
    m.Reachable ∧ totalTicks [3, 0, 5] = totalTicks [8] ∧
      (m.calls observe [] ([3, 0, 5].map .runFor)).2 =
        (m.calls observe [] ([8].map .runFor)).2 :=
  have hm := (Reachable.fresh ({} : Unconnected)).call _
  ⟨hm, by decide, slices_eq_of_totalTicks_eq hm _ _ (by decide)⟩

end Machine

end M740
