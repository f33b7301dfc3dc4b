import M740.Proofs.Metering
import M740.Proofs.Saving

/-!
# Conservation of time

The ticks that a host delivers are charged, left in the budget or in the remainder, or dropped by a
stopped processor; what a single step is charged, the host has paid for. No call creates time or
loses any (`Metered.Balanced`), so over any history the account comes out even
(`Machine.calls_conserve_time`).
-/

namespace M740

open Program

/-- The host ticks that a call delivers. -/
def Call.ticks : Call → Nat
  | .runFor ticks => ticks.toNat
  | _ => 0

/-- The units that a single step was answered with. -/
def Answer.stepped : Answer → Nat
  | .units n => n
  | _ => 0

/-- Ticks that calls deliver, all together. -/
def totalDelivered : List Call → Nat
  | [] => 0
  | call :: rest => call.ticks + totalDelivered rest

/-- Units that single steps were answered with, all together. -/
def totalStepped : List Answer → Nat
  | [] => 0
  | answer :: rest => answer.stepped + totalStepped rest

namespace Metered

/-- All time that a metered core knows of, in ticks. -/
def time (m : Metered) : Int :=
  4 * (m.account.charged + m.core.clock.budget + m.account.dropped) + m.core.clock.remainder.val

/-- What the cycle total showed before the account was opened. -/
def cyclesBefore (m : Metered) : UInt64 :=
  m.core.clock.cycles - UInt64.ofNat m.account.charged

/-- From `m` to `m'` so many ticks came in, and the cycle total agrees with the account. -/
structure Balanced (m : Metered) (gain : Int) (m' : Metered) : Prop where
  time : m'.time = m.time + gain
  cycles : m'.cyclesBefore = m.cyclesBefore

namespace Balanced

variable {m m' m'' : Metered} {gain gain' sum : Int}

theorem refl (m : Metered) : m.Balanced 0 m := ⟨(Int.add_zero _).symm, rfl⟩

theorem trans (h : m.Balanced gain m') (h' : m'.Balanced gain' m'') (hsum : gain + gain' = sum) :
    m.Balanced sum m'' :=
  ⟨by rw [h'.time, h.time, Int.add_assoc, hsum], h'.cycles.trans h.cycles⟩

/-- Calls that leave the clock alone are no matter of time. -/
theorem of_clock_eq {core : Core} (h : core.clock = m.core.clock) :
    m.Balanced 0 { m with core } := by
  constructor
  · simp only [Metered.time, h, Int.add_zero]
  · simp only [cyclesBefore, h]

end Balanced

/-! ### The four ways to change the clock -/

theorem balanced_deliver (m : Metered) (ticks : UInt32) :
    m.Balanced ticks.toNat (m.deliver ticks) := by
  constructor
  · simp only [Metered.time, deliver, Clock.deliver, Clock.leftOver, Timing.ticksPerUnit]
    omega
  · rfl

theorem cyclesBefore_add (cycles : UInt64) (charged units : Nat) :
    cycles + UInt64.ofNat units - UInt64.ofNat (charged + units) =
      cycles - UInt64.ofNat charged := by
  rw [UInt64.ofNat_add]
  grind

theorem balanced_charge (m : Metered) (p : Processor) (u : Charge) :
    m.Balanced 0 (m.charge p u) := by
  constructor
  · simp only [Metered.time, charge, Clock.charge, Clock.count]
    omega
  · exact cyclesBefore_add _ _ _

theorem balanced_count (m : Metered) (p : Processor) (u : Charge) :
    m.Balanced (4 * u.units) (m.count p u) := by
  constructor
  · simp only [Metered.time, count, Clock.count]
    omega
  · exact cyclesBefore_add _ _ _

theorem balanced_forfeit (m : Metered) : m.Balanced 0 m.forfeit := by
  constructor
  · simp only [Metered.time, forfeit, Clock.forfeit]
    omega
  · rfl

/-! ### Calls -/

theorem step_balanced (m : Metered) :
    m.step.Ensures fun r => m.Balanced (4 * r.1) r.2 ∧ r.2.account.dropped = m.account.dropped := by
  unfold step
  split
  · exact ⟨.refl m, rfl⟩
  · simp only [ensures_bind, ensures_pure]
    exact ensures_of_forall fun r => ⟨m.balanced_count r.1 r.2, rfl⟩

theorem interrupt_balanced (m : Metered) :
    m.interrupt.Ensures fun r => m.Balanced 0 r.2 ∧ r.2.account.dropped = m.account.dropped := by
  unfold interrupt
  split
  · simp only [ensures_bind, ensures_pure]
    exact ensures_of_forall fun p => ⟨m.balanced_charge p .interrupt, rfl⟩
  · exact ⟨.refl m, rfl⟩

theorem spend_balanced (m : Metered) :
    m.spend.Ensures fun m' => m.Balanced 0 m' ∧ m'.account.dropped = m.account.dropped := by
  induction m using spend.induct with
  | case1 m hb ih =>
    rw [spend, if_pos hb, ensures_bind]
    refine ensures_of_forall fun r => (ih r.1 r.2).imp fun m' hm => ?_
    exact ⟨(m.balanced_charge r.1 r.2).trans hm.1 rfl, hm.2⟩
  | case2 m hb =>
    rw [spend, if_neg hb]
    exact ⟨.refl m, rfl⟩

/-- A run drops units only if it leaves the processor stopped. -/
theorem runFor_balanced (m : Metered) (ticks : UInt32) :
    (m.runFor ticks).Ensures fun m' =>
      m.Balanced ticks.toNat m' ∧
        (m'.core.processor.stopped = false → m'.account.dropped = m.account.dropped) := by
  simp only [runFor, ensures_bind, ensures_pure]
  refine (m.deliver ticks).spend_balanced.imp fun m' hspend => ?_
  obtain ⟨hm, hdropped⟩ := hspend
  have hspent : m.Balanced ticks.toNat m' := (m.balanced_deliver ticks).trans hm (Int.add_zero _)
  cases hs : m'.core.processor.stopped with
  | false => exact ⟨hspent, fun _ => hdropped⟩
  | true =>
    refine ⟨hspent.trans m'.balanced_forfeit (Int.add_zero _), fun hf => ?_⟩
    exact Bool.noConfusion (hf.symm.trans hs)

/-- What a call does to the account. Only runs that leave the processor stopped drop units. -/
theorem answer_balanced (m : Metered) {call : Call} (hd : call.drives) :
    (m.answer call).Ensures fun r =>
      m.Balanced (call.ticks + 4 * r.1.stepped) r.2 ∧
        ((∀ ticks, call = .runFor ticks → r.2.core.processor.stopped = false) →
          r.2.account.dropped = m.account.dropped) := by
  cases call with
  | runFor ticks =>
    simp only [answer, ensures_bind, ensures_pure]
    exact (m.runFor_balanced ticks).imp fun m' hm =>
      ⟨(Int.add_zero _).symm ▸ hm.1, fun hs => hm.2 (hs ticks rfl)⟩
  | step =>
    simp only [answer, ensures_bind, ensures_pure]
    exact m.step_balanced.imp fun _ h => ⟨(Int.zero_add _).symm ▸ h.1, fun _ => h.2⟩
  | interrupt =>
    simp only [answer, ensures_bind, ensures_pure]
    exact m.interrupt_balanced.imp fun _ h => ⟨h.1, fun _ => h.2⟩
  | setRom image =>
    simp only [answer, uncharged, Core.answer, ensures_bind, ensures_pure]
    exact (m.core.startRom_clock _ _).imp fun _ hc => ⟨.of_clock_eq hc, fun _ => trivial⟩
  | reset =>
    simp only [answer, uncharged, Core.answer, ensures_bind, ensures_pure]
    exact m.core.reset_clock.imp fun _ hc => ⟨.of_clock_eq hc, fun _ => trivial⟩
  | read | write | set | restore => cases hd

end Metered

/-! ### Histories -/

namespace Machine

variable {σ ω : Type} [Device σ] (observe : ω → Event → ω)

theorem callMetered_machine (m : Machine σ) (account : Account) (seen : ω) (call : Call) :
    (m.callMetered observe account seen call).2.1 = m.after call := by
  have h := m.callMetered_eq observe account seen call
  exact (congrArg (·.2.1) h).trans (m.call_machine observe seen call)

theorem callMetered_balanced (m : Machine σ) (account : Account) (seen : ω) {call : Call}
    (hd : call.drives) :
    let r := m.callMetered observe account seen call
    (⟨m.core, account⟩ : Metered).Balanced (call.ticks + 4 * r.1.stepped) ⟨r.2.1.core, r.2.2.1⟩ ∧
      ((∀ ticks, call = .runFor ticks → r.2.1.core.processor.stopped = false) →
        r.2.2.1.dropped = account.dropped) :=
  ((⟨m.core, account⟩ : Metered).answer_balanced hd).run observe (m.bus.prepare call) seen

theorem callsMetered_balanced (m : Machine σ) (account : Account) (seen : ω) {calls : List Call}
    (hd : ∀ call ∈ calls, call.drives) :
    let r := m.callsMetered observe account seen calls
    (⟨m.core, account⟩ : Metered).Balanced (totalDelivered calls + 4 * totalStepped r.1)
        ⟨r.2.1.core, r.2.2.1⟩ ∧
      ((∀ front ticks, front ++ [.runFor ticks] <+: calls →
          (m.afterAll (front ++ [.runFor ticks])).core.processor.stopped = false) →
        r.2.2.1.dropped = account.dropped) := by
  induction calls generalizing m account seen with
  | nil => exact ⟨.refl _, fun _ => rfl⟩
  | cons call rest ih =>
    have hfirst := m.callMetered_balanced observe account seen (hd call List.mem_cons_self)
    have hmachine := m.callMetered_machine observe account seen call
    simp only [callsMetered]
    generalize m.callMetered observe account seen call = first at hfirst hmachine ⊢
    obtain ⟨answer, m', account', seen'⟩ := first
    obtain rfl : m' = m.after call := hmachine
    obtain ⟨hbalanced, hkept⟩ := hfirst
    obtain ⟨hbalanced', hkept'⟩ := ih _ account' seen' fun c hc => hd c (List.mem_cons_of_mem _ hc)
    refine ⟨hbalanced.trans hbalanced' ?_, fun hruns => (hkept' ?_).trans (hkept ?_)⟩
    · simp only [totalDelivered, totalStepped]
      omega
    · intro front ticks hp
      exact hruns (call :: front) ticks (List.cons_prefix_cons.2 ⟨rfl, hp⟩)
    · rintro ticks rfl
      exact hruns [] ticks (List.cons_prefix_cons.2 ⟨rfl, List.nil_prefix⟩)

/-- Four times the units that were charged, put into the budget or dropped, and the ticks put into
the remainder, are the ticks delivered and four times what single steps were answered with. The
cycle total is the charged units modulo 2^64, and nothing is dropped as long as no run leaves the
processor stopped. -/
theorem calls_conserve_time (m : Machine σ) (seen : ω) {calls : List Call}
    (hd : ∀ call ∈ calls, call.drives) :
    let r := m.callsMetered observe {} seen calls
    let m' := r.2.1
    let account := r.2.2.1
    (r.1, m', r.2.2.2) = m.calls observe seen calls ∧
      4 * (account.charged + m'.core.clock.budget - m.core.clock.budget + account.dropped) +
          m'.core.clock.remainder.val - m.core.clock.remainder.val =
        totalDelivered calls + 4 * totalStepped r.1 ∧
      m'.core.clock.cycles.toNat = (m.core.clock.cycles.toNat + account.charged) % 2 ^ 64 ∧
      m'.core.clock.remainder.val < 4 ∧
      ((∀ front ticks, front ++ [.runFor ticks] <+: calls →
          (m.afterAll (front ++ [.runFor ticks])).core.processor.stopped = false) →
        account.dropped = 0) := by
  have hsame := m.callsMetered_eq observe {} seen calls
  have hbalanced := m.callsMetered_balanced observe {} seen hd
  generalize m.callsMetered observe {} seen calls = r at hsame hbalanced ⊢
  obtain ⟨⟨htime, hcycles⟩, hdropped⟩ := hbalanced
  refine ⟨hsame, ?_, ?_, Fin.isLt _, hdropped⟩
  · simp only [Metered.time] at htime
    omega
  · simp only [Metered.cyclesBefore] at hcycles
    rw [UInt64.sub_eq_iff_eq_add.1 hcycles, UInt64.toNat_add, UInt64.toNat_ofNat', Nat.add_mod_mod,
      show UInt64.ofNat 0 = 0 from rfl, UInt64.sub_zero]

/-- A step, a run, an interrupt, and a run that is stopped with almost all of its units left. -/
theorem calls_conserve_time_stop :
    let m := (fresh ({} : Unconnected)).after (.setRom
      [0x58, 0xEA, 0x42, 0x42, 0xF2, 0x1F, 0, 0, 0, 0, 0, 0, 0, 0, 0xF0, 0x1F])
    let calls : List Call := [.step, .runFor 5, .interrupt, .runFor 4000]
    let r := m.callsMetered (fun seen _ => seen) {} () calls
    (∀ call ∈ calls, call.drives) ∧
      r.2.2.1 = ⟨13, 990⟩ ∧
      4 * (r.2.2.1.charged + r.2.1.core.clock.budget - m.core.clock.budget + r.2.2.1.dropped) +
          r.2.1.core.clock.remainder.val - m.core.clock.remainder.val =
        totalDelivered calls + 4 * totalStepped r.1 := by
  intro m calls
  have hd : ∀ call ∈ calls, call.drives := by decide
  have htime := (calls_conserve_time (fun seen _ => seen) m () hd).2.1
  exact ⟨hd, by decide +kernel, htime⟩

end Machine

end M740
