import M740.Machine
import M740.Proofs.ClockedRun

/-!
# Reachable machines

`m.after call` is the machine that a call leaves behind, whoever watches. `Reachable m` says that
a host can bring about `m`: by calls on a fresh machine, and by anything it does to the bus itself,
which it may also exchange. In every reachable machine the budget is used up.
-/

namespace M740

open Program

namespace Core

theorem reset_clock (c : Core) : c.reset.Ensures fun c' => c'.clock = c.clock := by
  simp [reset]

theorem startRom_clock (c : Core) (size installed : Nat) :
    (c.startRom size installed).Ensures fun c' => c'.clock = c.clock := by
  unfold startRom
  split <;> simp only [ensures_bind, ensures_report, c.reset_clock]

/-- Single steps do not touch the budget. -/
theorem step_budget (c : Core) : c.step.Ensures fun r => r.2.clock.budget = c.clock.budget := by
  unfold step
  split
  · rfl
  · simp only [ensures_bind, ensures_pure]
    exact ensures_of_forall fun _ => rfl

theorem interrupt_budget_le (c : Core) :
    c.interrupt.Ensures fun r => r.2.clock.budget ≤ c.clock.budget := by
  unfold interrupt
  split
  · simp only [ensures_bind, ensures_pure]
    exact ensures_of_forall fun _ => by simp only [Clock.charge]; omega
  · exact Int.le_refl _

/-- No call leaves units unspent. -/
theorem answer_budget_nonpos (c : Core) (call : Call) (h : c.clock.budget ≤ 0) :
    (c.answer call).Ensures fun r => r.2.clock.budget ≤ 0 := by
  cases call with
  | setRom image =>
    simp only [answer, ensures_bind, ensures_pure]
    exact (c.startRom_clock _ _).imp fun _ hc => hc ▸ h
  | reset =>
    simp only [answer, ensures_bind, ensures_pure]
    exact c.reset_clock.imp fun _ hc => hc ▸ h
  | runFor ticks =>
    simp only [answer, ensures_bind, ensures_pure]
    exact c.runFor_budget_nonpos ticks
  | step =>
    simp only [answer, ensures_bind, ensures_pure]
    exact c.step_budget.imp fun _ hc => hc ▸ h
  | interrupt =>
    simp only [answer, ensures_bind, ensures_pure]
    exact c.interrupt_budget_le.imp fun _ hc => Int.le_trans hc h
  | read => exact fun _ => h
  | write => exact h
  | set => exact h
  | restore snapshot =>
    show Snapshot.clampBudget snapshot.budget.toInt ≤ 0
    simp only [Snapshot.clampBudget]
    omega

end Core

namespace Machine

variable {σ ω : Type} [Device σ]

/-- The machine after a call. -/
def after (m : Machine σ) (call : Call) : Machine σ := (m.call (fun seen _ => seen) () call).2.1

/-- The machine after calls made one after the other. -/
def afterAll (m : Machine σ) (calls : List Call) : Machine σ := calls.foldl after m

theorem afterAll_cons (m : Machine σ) (call : Call) (rest : List Call) :
    m.afterAll (call :: rest) = (m.after call).afterAll rest := rfl

theorem call_machine (observe : ω → Event → ω) (m : Machine σ) (seen : ω) (call : Call) :
    (m.call observe seen call).2.1 = m.after call := by
  obtain ⟨hcore, hbus⟩ := run_observer observe (fun seen _ => seen) (m.core.answer call)
    (m.bus.prepare call) seen ()
  simp only [after, Machine.call, hcore, hbus]

theorem calls_machine (observe : ω → Event → ω) (m : Machine σ) (seen : ω) (calls : List Call) :
    (m.calls observe seen calls).2.1 = m.afterAll calls := by
  induction calls generalizing m seen with
  | nil => rfl
  | cons call rest ih => simp only [Machine.calls, ih, call_machine, afterAll, List.foldl_cons]

/-- What the core ensures on a call holds after the call. -/
theorem after_core {P : Core → Prop} {m : Machine σ} {call : Call}
    (h : (m.core.answer call).Ensures fun r => P r.2) : P (m.after call).core :=
  h.run _ _ _

/-- What every call of a kind preserves holds after any number of them. -/
theorem afterAll_core {I : Core → Prop} {kind : Call → Prop}
    (answer : ∀ c call, kind call → I c → (c.answer call).Ensures fun r => I r.2)
    {m : Machine σ} (h : I m.core) {calls : List Call} (hk : ∀ call ∈ calls, kind call) :
    I (m.afterAll calls).core := by
  induction calls generalizing m with
  | nil => exact h
  | cons call rest ih =>
    have hc := after_core (answer _ call (hk call List.mem_cons_self) h)
    exact ih hc fun c hm => hk c (List.mem_cons_of_mem _ hm)

/-- The machines that a host can bring about. -/
inductive Reachable : Machine σ → Prop
  | fresh (devices : σ) : Reachable (fresh devices)
  | call {m : Machine σ} (call : Call) : Reachable m → Reachable (m.after call)
  /-- The bus is the host's to change. -/
  | bus {m : Machine σ} (bus : Bus σ) : Reachable m → Reachable { m with bus }

theorem Reachable.budget_nonpos {m : Machine σ} (hm : m.Reachable) : m.core.clock.budget ≤ 0 := by
  induction hm with
  | fresh => exact Int.le_refl 0
  | call call _ ih =>
    exact after_core (P := (·.clock.budget ≤ 0)) (Core.answer_budget_nonpos _ call ih)
  | bus _ _ ih => exact ih

theorem Reachable.afterAll {m : Machine σ} (hm : m.Reachable) (calls : List Call) :
    (m.afterAll calls).Reachable := by
  induction calls generalizing m with
  | nil => exact hm
  | cons call _ ih => exact ih (hm.call call)

end Machine

end M740
