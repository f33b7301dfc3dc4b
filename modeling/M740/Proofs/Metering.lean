import M740.Proofs.Calls

/-!
# Metered machines

A clock forgets: its cycle total wraps around, and the units that a stopped processor forfeits
leave no trace. A metered core keeps an account of both beside its clock. Nothing ever looks at the
account, so a metered machine does what the machine does (`Machine.callsMetered_eq`).
-/

namespace M740

open Program

instance (c : Core) : Decidable c.Busy := inferInstanceAs (Decidable (_ ∧ _))

/-- What has become of the units that a clock was given. -/
structure Account where
  /-- All units ever charged. -/
  charged : Nat := 0
  /-- The units that were left when a run ended with the processor stopped. -/
  dropped : Nat := 0
  deriving DecidableEq, Repr

/-- A core that keeps an account of its units. -/
structure Metered where
  core : Core
  account : Account := {}

namespace Metered

def deliver (m : Metered) (ticks : UInt32) : Metered :=
  { m with core := { m.core with clock := m.core.clock.deliver ticks } }

/-- The processor has moved on, and the charge is counted. -/
def count (m : Metered) (processor : Processor) (charge : Charge) : Metered where
  core := { processor, clock := m.core.clock.count charge }
  account := { m.account with charged := m.account.charged + charge.units }

/-- The processor has moved on, and the budget pays for it. -/
def charge (m : Metered) (processor : Processor) (charge : Charge) : Metered where
  core := { processor, clock := m.core.clock.charge charge }
  account := { m.account with charged := m.account.charged + charge.units }

def forfeit (m : Metered) : Metered where
  core := { m.core with clock := m.core.clock.forfeit }
  account := { m.account with dropped := m.account.dropped + m.core.clock.budget.toNat }

/-! ### The calls that take time -/

def step (m : Metered) : Program (Nat × Metered) :=
  if m.core.processor.stopped then return (0, m)
  else do
    let (processor, charge) ← m.core.processor.performNext
    return (charge.units, m.count processor charge)

def interrupt (m : Metered) : Program (Bool × Metered) :=
  if m.core.processor.acceptsInterrupt then do
    let processor ← m.core.processor.takeInterrupt
    return (true, m.charge processor Charge.interrupt)
  else return (false, m)

def spend (m : Metered) : Program Metered :=
  if m.core.Busy then
    m.core.processor.turn >>= fun (processor, charge) => spend (m.charge processor charge)
  else return m
termination_by m.core.clock.budget.toNat
decreasing_by
  rename_i h
  exact Clock.budget_charge_lt _ _ h.1

def runFor (m : Metered) (ticks : UInt32) : Program Metered := do
  let m ← spend (m.deliver ticks)
  return if m.core.processor.stopped then m.forfeit else m

/-- What the core does on a call that takes no time. -/
def uncharged (m : Metered) (call : Call) : Program (Answer × Metered) := do
  let (answer, core) ← m.core.answer call
  return (answer, { m with core })

/-- What the metered core does on a call. -/
def answer (m : Metered) (call : Call) : Program (Answer × Metered) :=
  match call with
  | .runFor ticks => return (.nothing, ← m.runFor ticks)
  | .step => do
    let (units, m) ← m.step
    return (.units units, m)
  | .interrupt => do
    let (taken, m) ← m.interrupt
    return (.taken taken, m)
  | .setRom _ | .reset | .read _ | .write .. | .set _ | .restore _ => m.uncharged call

/-! ### The core under the account -/

theorem step_core (m : Metered) : Prod.map id core <$> m.step = m.core.step := by
  unfold step Core.step
  split
  · rfl
  · rw [map_bind]
    rfl

theorem interrupt_core (m : Metered) : Prod.map id core <$> m.interrupt = m.core.interrupt := by
  unfold interrupt Core.interrupt
  split
  · rw [map_bind]
    rfl
  · rfl

theorem spend_core (m : Metered) : core <$> m.spend = m.core.spend := by
  induction m using spend.induct with
  | case1 m hb ih =>
    rw [spend, if_pos hb, Core.spend_of_busy hb, map_bind]
    exact bind_congr fun r => ih r.1 r.2
  | case2 m hb =>
    rw [spend, if_neg hb, Core.spend_of_not_busy hb]
    rfl

theorem runFor_core (m : Metered) (ticks : UInt32) :
    core <$> m.runFor ticks = m.core.runFor ticks := by
  have hspend : ({ m.core with clock := m.core.clock.deliver ticks } : Core).spend =
      core <$> (m.deliver ticks).spend := (spend_core (m.deliver ticks)).symm
  rw [runFor, Core.runFor, hspend, map_bind, bind_map_left]
  refine bind_congr fun m => ?_
  split
  · rfl
  · rfl

theorem answer_core (m : Metered) (call : Call) :
    Prod.map id core <$> m.answer call = m.core.answer call := by
  cases call with
  | runFor ticks =>
    simp only [answer, Core.answer, map_bind, ← runFor_core, bind_map_left]
    rfl
  | step =>
    simp only [answer, Core.answer, map_bind, ← step_core, bind_map_left]
    rfl
  | interrupt =>
    simp only [answer, Core.answer, map_bind, ← interrupt_core, bind_map_left]
    rfl
  | setRom | reset | read | write | set | restore =>
    simp only [answer, uncharged, map_bind]
    exact bind_done _

end Metered

/-! ### Machines -/

theorem Program.run_map {σ α β ω : Type} [Device σ] (observe : ω → Event → ω) (f : α → β)
    (p : Program α) (bus : Bus σ) (seen : ω) :
    (f <$> p).run observe bus seen =
      (f (p.run observe bus seen).1, (p.run observe bus seen).2) := by
  rw [map_eq_pure_bind, run_bind]
  rfl

namespace Machine

variable {σ ω : Type} [Device σ] (observe : ω → Event → ω)

/-- Makes one call, on an account. -/
def callMetered (m : Machine σ) (account : Account) (seen : ω) (c : Call) :
    Answer × Machine σ × Account × ω :=
  let ((answer, metered), bus, seen) :=
    ((⟨m.core, account⟩ : Metered).answer c).run observe (m.bus.prepare c) seen
  (answer, { core := metered.core, bus }, metered.account, seen)

/-- Makes calls one after the other, on one account. -/
def callsMetered (m : Machine σ) (account : Account) (seen : ω) :
    List Call → List Answer × Machine σ × Account × ω
  | [] => ([], m, account, seen)
  | c :: rest =>
    let (answer, m, account, seen) := m.callMetered observe account seen c
    let (answers, m, account, seen) := callsMetered m account seen rest
    (answer :: answers, m, account, seen)

/-- The account changes nothing of a call. -/
theorem callMetered_eq (m : Machine σ) (account : Account) (seen : ω) (c : Call) :
    let r := m.callMetered observe account seen c
    (r.1, r.2.1, r.2.2.2) = m.call observe seen c := by
  simp only [callMetered, call, ← (⟨m.core, account⟩ : Metered).answer_core c, run_map]
  rfl

/-- The account changes nothing of any calls. -/
theorem callsMetered_eq (m : Machine σ) (account : Account) (seen : ω) (cs : List Call) :
    let r := m.callsMetered observe account seen cs
    (r.1, r.2.1, r.2.2.2) = m.calls observe seen cs := by
  induction cs generalizing m account seen with
  | nil => rfl
  | cons c rest ih =>
    have hc := m.callMetered_eq observe account seen c
    have hrest := ih (m.callMetered observe account seen c).2.1
      (m.callMetered observe account seen c).2.2.1 (m.callMetered observe account seen c).2.2.2
    simp only [callsMetered, calls, ← hc, ← hrest]

end Machine

end M740
