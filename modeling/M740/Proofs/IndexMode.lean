import M740.Proofs.Accesses
import M740.Proofs.ClockIndependence
import M740.Proofs.FixedState
import M740.Proofs.Redirection
import M740.Proofs.Unindexed

/-!
# Index mode

What T changes. A step of an accumulator operation in index mode is a step without it on a machine
that has the byte at X in A, with the result written to X at the end (`Machine.Redirects`). A step
of any other instruction does not depend on T (`Machine.Indifferent`).
-/

namespace M740

namespace Event

/-- Notes aside. -/
def isTransaction : Event → Bool
  | .read .. | .write .. => true
  | .note _ => false

/-- An access to a device register. -/
def atDevice : Event → Bool
  | .read address _ | .write address _ => address.deviceRegister?.isSome
  | .note _ => false

/-- Devices see nothing of the byte that takes the place of A, unless it is theirs. -/
theorem filter_target {cell : Address} (h : cell.deviceRegister? = none) (op : Accumulate)
    (value value' : Byte) :
    ((if op.readsTarget then [read cell value] else []) ++
      if op = .cmp then [] else [write cell value']).filter atDevice = [] := by
  have hread : (read cell value).atDevice = false := by rw [atDevice, h]; rfl
  have hwrite : (write cell value').atDevice = false := by rw [atDevice, h]; rfl
  cases op <;> simp [hread, hwrite]

end Event

/-- The surcharge is all that index mode changes about the clock. -/
theorem Clock.count_indexMode (c : Clock) {opcode : Byte} {extra : Nat}
    (hcost : Timing.cost opcode true = Timing.cost opcode false + extra) :
    c.count (Opcode.charge opcode true false) =
      (c.count (Opcode.charge opcode false false)).ahead (UInt64.ofNat extra) := by
  have hunits : (Opcode.charge opcode true false).units =
      (Opcode.charge opcode false false).units + extra := hcost
  simp only [Clock.count, Clock.ahead, hunits, UInt64.ofNat_add, UInt64.add_assoc]

variable {σ : Type}

/-- What is written where nothing keeps it is lost. -/
theorem Bus.write_of_nowhere [Device σ] (b : Bus σ) {a : Address} (value : Byte)
    (h : a.deviceRegister? = none) (hram : ramSize ≤ a.toNat) : b.write a value = b := by
  rw [b.write_eq, ← a.deviceRegister?_eq, h]
  exact dif_neg (Nat.not_le.2 hram)

namespace Machine

/-- The same machine with another processor. -/
def withProcessor (m : Machine σ) (p : Processor) : Machine σ :=
  { m with core := { m.core with processor := p } }

/-- Without index mode, and with the byte at X in A. -/
def direct (m : Machine σ) : Machine σ :=
  let p := m.core.processor
  m.withProcessor (p.direct (m.bus.peek (Address.zeroPage p.x)))

/-- The same machine with T clear. -/
def unindexed (m : Machine σ) : Machine σ := m.withProcessor m.core.processor.unindexed

variable [Device σ]

/-- A step without index mode on the byte at X. What it leaves in A goes to X, unless it was a
comparison, and A and T are put back. -/
def redirect (m : Machine σ) (op : Accumulate) : Machine σ :=
  let stepped := m.direct.after .step
  let q := stepped.core.processor
  { core := { stepped.core with processor := q.restored m.core.processor }
    bus :=
      if op = .cmp then stepped.bus
      else stepped.bus.write (Address.zeroPage m.core.processor.x) q.a }

/-- The step is the redirected one and costs `extra` units more. Devices see the same accesses, A
has no part in it, and a result that goes nowhere is lost. -/
structure Redirects (m : Machine σ) (op : Accumulate) (extra : Nat) : Prop where
  machine : m.after .step = (m.redirect op).ahead (UInt64.ofNat extra)
  cost : ∃ units, (m.direct.call trace [] .step).1 = .units units ∧
    (m.call trace [] .step).1 = .units (units + extra)
  devices : (m.call trace [] .step).2.2.filter Event.atDevice =
    (m.direct.call trace [] .step).2.2.filter Event.atDevice
  kept : (m.after .step).core.processor.a = m.core.processor.a
  unread : ∀ a,
    let r := m.call trace [] .step
    let r' := (m.withProcessor { m.core.processor with a }).call trace [] .step
    r'.1 = r.1 ∧ r'.2.1 = r.2.1.withProcessor { r.2.1.core.processor with a } ∧
      r'.2.2.filter Event.isTransaction = r.2.2.filter Event.isTransaction
  lost : ramSize ≤ m.core.processor.x.toNat →
    (m.after .step).bus = (m.direct.after .step).bus

/-- The step is the same without T, but for T itself and for a status byte that it pushes. -/
structure Indifferent (m : Machine σ) : Prop where
  cost : (m.unindexed.call trace [] .step).1 = (m.call trace [] .step).1
  core : (m.unindexed.after .step).unindexed.core = (m.after .step).unindexed.core
  bus :
    let r := m.call trace [] .step
    let r' := m.unindexed.call trace [] .step
    match m.instruction.operation.pushedStatus? m.core.processor with
    | none => r'.2.1.bus = r.2.1.bus ∧
      r'.2.2.filter Event.isTransaction = r.2.2.filter Event.isTransaction
    | some (cell, status) => ∃ (bus : Bus σ) (before behind : List Event),
      let status' := status &&& ~~~Flag.indexMode.mask
      r.2.1.bus = bus.write cell status ∧ r'.2.1.bus = bus.write cell status' ∧
        r.2.2.filter Event.isTransaction = before ++ .write cell status :: behind ∧
        r'.2.2.filter Event.isTransaction = before ++ .write cell status' :: behind

/-! ### Redirection -/

/-- The accumulator and the flags have no part in loading the operand. -/
theorem loadOperand_withProcessor (m : Machine σ) (a : Byte) (flags : Flags) :
    (m.withProcessor { m.core.processor with a, flags }).loadOperand = m.loadOperand :=
  congrArg (fun load : Program Byte => load.run trace (m.bus.read m.core.processor.pc).2 [])
    (Mode.load_congr _ m.core.processor a flags)

section
variable {m : Machine σ} {op : Accumulate} (hs : m.core.processor.stopped = false)
  (hop : m.instruction.operation = .read (.accumulate op))
include hs hop

theorem call_step_direct :
    let p := m.core.processor
    let operand := m.loadOperand
    let q := op.onA operand.1
      ((p.advance m.instruction.size).direct (m.bus.peek (Address.zeroPage p.x)))
    m.direct.call trace [] .step =
      (.units (Timing.cost m.opcode false),
        { core :=
            { processor := q, clock := m.core.clock.count (Opcode.charge m.opcode false false) }
          bus := operand.2.1 },
        .read p.pc m.opcode :: .note (.fetch m.direct.core.processor m.opcode) :: operand.2.2) := by
  have hstep := step_of_clear (m := m.direct) hs hop rfl
  have hoperand : m.direct.loadOperand = m.loadOperand := m.loadOperand_withProcessor ..
  rw [hoperand] at hstep
  exact hstep

/-- Where X does not lead to a device, the byte there is what a look at it shows before the step. -/
theorem call_step_of_set (ht : m.core.processor.flags.t = true)
    (hx : (Address.zeroPage m.core.processor.x).deviceRegister? = none) :
    let p := m.core.processor
    let operand := m.loadOperand
    let cell := Address.zeroPage p.x
    let q := op.onA operand.1 ((p.advance m.instruction.size).direct (m.bus.peek cell))
    m.call trace [] .step =
      (.units (Timing.cost m.opcode true),
        { core :=
            { processor := q.restored p
              clock := m.core.clock.count (Opcode.charge m.opcode true false) }
          bus := if op = .cmp then operand.2.1 else operand.2.1.write cell q.a },
        .read p.pc m.opcode :: .note (.fetch p m.opcode) ::
          (operand.2.2 ++ ((if op.readsTarget then [.read cell (m.bus.peek cell)] else []) ++
            if op = .cmp then [] else [.write cell q.a]))) := by
  have hread : m.loadOperand.2.1.read (Address.zeroPage m.core.processor.x) =
      (m.bus.peek (Address.zeroPage m.core.processor.x), m.loadOperand.2.1) := by
    rw [Bus.read_of_not_device _ hx, m.peek_loadOperand]
  rw [step_of_set hs hop ht, Accumulate.takeTarget, hread]
  -- LDA does not look at the byte, whatever it is
  cases op <;> rfl

theorem redirects (ht : m.core.processor.flags.t = true)
    (hx : (Address.zeroPage m.core.processor.x).deviceRegister? = none) {extra : Nat}
    (hcost : Timing.cost m.opcode true = Timing.cost m.opcode false + extra) :
    m.Redirects op extra := by
  have hstep := call_step_of_set hs hop ht hx
  have hdirect := call_step_direct hs hop
  have hafter : m.after .step = (m.call trace [] .step).2.1 := (m.call_machine trace [] .step).symm
  have hafter' : m.direct.after .step = (m.direct.call trace [] .step).2.1 :=
    (m.direct.call_machine trace [] .step).symm
  have hmachine : m.after .step = (m.redirect op).ahead (UInt64.ofNat extra) := by
    rw [redirect, hafter, hafter', hstep, hdirect, Clock.count_indexMode _ hcost]
    rfl
  refine ⟨hmachine, ⟨_, by rw [hdirect], ?_⟩, ?_, ?_, fun a => ?_, fun hram => ?_⟩
  · rw [hstep, hcost]
  · rw [hstep, hdirect]
    simp only [List.filter_cons, List.filter_append, Event.filter_target hx, List.append_nil]
    rfl
  · rw [hmachine]
    rfl
  · have hstep' := call_step_of_set (m := m.withProcessor { m.core.processor with a }) hs hop ht hx
    have hoperand : (m.withProcessor { m.core.processor with a }).loadOperand = m.loadOperand :=
      m.loadOperand_withProcessor a m.core.processor.flags
    rw [hoperand] at hstep'
    rw [hstep, hstep']
    exact ⟨rfl, rfl, rfl⟩
  · have hlost (value : Byte) : m.loadOperand.2.1.write (Address.zeroPage m.core.processor.x) value =
        m.loadOperand.2.1 := Bus.write_of_nowhere _ value hx (by rwa [Address.toNat_zeroPage])
    rw [hafter, hafter', hstep, hdirect]
    dsimp only
    rw [hlost, ite_self]

end

/-! ### Indifference -/

/-- Only accumulator operations cost more in index mode. -/
theorem charge_of_not_usesIndexMode {opcode : Byte}
    (h : (Opcode.instruction opcode).operation.usesIndexMode = false) (t branched : Bool) :
    Opcode.charge opcode t branched = Opcode.charge opcode false branched := by
  have hsurcharge : (Opcode.instruction opcode).operation.surcharge = 0 := by
    unfold Operation.surcharge
    split
    · rename_i heq
      rw [heq] at h
      cases h
    · rfl
  have hcost : Timing.cost opcode t = Timing.cost opcode false := by
    rw [Opcode.cost_eq, hsurcharge, ite_self, Nat.add_zero]
  simp only [Opcode.charge, hcost]

/-- The transactions of a step are the fetch of the opcode and those of the instruction. -/
theorem transactions_step {m : Machine σ} (hs : m.core.processor.stopped = false) :
    (m.call trace [] .step).2.2.filter Event.isTransaction =
      .read m.core.processor.pc m.opcode ::
        ((Opcode.perform m.opcode m.core.processor).run trace (m.bus.read m.core.processor.pc).2
          []).2.2.filter Event.isTransaction := by
  rw [step_trace hs]
  rfl

theorem indifferent {m : Machine σ} (hs : m.core.processor.stopped = false)
    (h : m.instruction.operation.usesIndexMode = false) : m.Indifferent := by
  let bus := (m.bus.read m.core.processor.pc).2
  let r := (Opcode.perform m.opcode m.core.processor).run trace bus []
  let r' := (Opcode.perform m.opcode m.core.processor.unindexed).run trace bus []
  have hstep : m.call trace [] .step = _ := step_trace hs
  have hstep' : m.unindexed.call trace [] .step = _ := step_trace (m := m.unindexed) hs
  have hrun : match m.instruction.operation.pushedStatus? m.core.processor with
    | none => r'.1.unindexed = r.1.unindexed ∧ r'.2 = r.2
    | some (cell, status) => PushesStatus cell status r r' :=
      Opcode.run_unindexed h m.core.processor bus
  have houtcome : r'.1.unindexed = r.1.unindexed := by
    split at hrun
    · exact hrun.1
    · exact hrun.outcome
  obtain ⟨hprocessor, hbranched⟩ : r'.1.processor.unindexed = r.1.processor.unindexed ∧
      r'.1.branched = r.1.branched := Outcome.mk.inj houtcome
  have hcharge : Opcode.charge m.opcode false r'.1.branched =
      Opcode.charge m.opcode m.core.processor.flags.t r.1.branched := by
    rw [hbranched, charge_of_not_usesIndexMode h m.core.processor.flags.t]
  refine ⟨?_, ?_, ?_⟩
  · rw [hstep, hstep']
    exact congrArg (fun c : Charge => Answer.units c.units) hcharge
  · rw [← m.call_machine trace [], ← m.unindexed.call_machine trace [], hstep, hstep']
    exact congrArg₂ Core.mk hprocessor (congrArg m.core.clock.count hcharge)
  · have hbus : (m.call trace [] .step).2.1.bus = r.2.1 := by rw [hstep]
    have hbus' : (m.unindexed.call trace [] .step).2.1.bus = r'.2.1 := by rw [hstep']; rfl
    have hevents : (m.call trace [] .step).2.2.filter Event.isTransaction =
        .read m.core.processor.pc m.opcode :: r.2.2.filter Event.isTransaction :=
      transactions_step hs
    have hevents' : (m.unindexed.call trace [] .step).2.2.filter Event.isTransaction =
        .read m.core.processor.pc m.opcode :: r'.2.2.filter Event.isTransaction :=
      transactions_step (m := m.unindexed) hs
    dsimp only
    rw [hbus, hbus', hevents, hevents']
    cases hp : m.instruction.operation.pushedStatus? m.core.processor with
    | none =>
      rw [hp] at hrun
      have hsame : r'.2 = r.2 := hrun.2
      rw [hsame]
      exact ⟨rfl, rfl⟩
    | some pushed =>
      rw [hp] at hrun
      obtain ⟨pushing, before, behind, hr, hr'⟩ := hrun.pushed
      rw [hr, hr', List.filter_append, List.filter_append]
      exact ⟨pushing, .read m.core.processor.pc m.opcode :: before.filter Event.isTransaction,
        behind.filter Event.isTransaction, rfl, rfl, rfl, rfl⟩

/-- Index mode redirects accumulator operations from A to the byte at X, at a surcharge, and makes
no difference to any other instruction. -/
theorem step_index_mode {m : Machine σ} (hs : m.core.processor.stopped = false)
    (ht : m.core.processor.flags.t = true) :
    (∀ op, m.instruction.operation = .read (.accumulate op) →
      (Address.zeroPage m.core.processor.x).deviceRegister? = none →
      m.Redirects op (match op with | .lda => 2 | .cmp => 1 | _ => 3)) ∧
    ((∀ op, m.instruction.operation ≠ .read (.accumulate op)) → m.Indifferent) := by
  refine ⟨fun op hop hx => redirects hs hop ht hx ?_, fun hother => indifferent hs ?_⟩
  · have hcost := Opcode.cost_eq m.opcode true
    rw [if_pos rfl] at hcost
    rw [hcost]
    congr 1
    have hsurcharge : (Opcode.instruction m.opcode).operation.surcharge =
        Timing.indexModeSurcharge op := congrArg Operation.surcharge hop
    rw [hsurcharge]
    cases op <;> rfl
  · cases hoperation : m.instruction.operation with
    | read op =>
      cases op with
      | accumulate op => exact absurd hoperation (hother op)
      | load | compare | bit | test => rfl
    | store | storeImmediate | modify | jump | branchOnBit | implied => rfl

/-- At a push of the status, in index mode. -/
def pushing : Machine Unconnected :=
  (fresh {}).afterAll [.setRom [0x08, 0xFD, 0x1F], .set (.flag .indexMode true)]

/-- An addition goes to the byte at X, and a status that is pushed shows T. -/
theorem step_index_mode_indexed :
    (indexed.core.processor.stopped = false ∧ indexed.core.processor.flags.t = true) ∧
      indexed.Redirects .adc 3 ∧
      (pushing.core.processor.stopped = false ∧ pushing.core.processor.flags.t = true) ∧
      pushing.Indifferent ∧
      pushing.instruction.operation.pushedStatus? pushing.core.processor = some (0x5F, 0x24) := by
  obtain ⟨hs, ht, hop, hx⟩ : indexed.core.processor.stopped = false ∧
      indexed.core.processor.flags.t = true ∧
      indexed.instruction.operation = .read (.accumulate .adc) ∧
      (Address.zeroPage indexed.core.processor.x).deviceRegister? = none := by decide +kernel
  obtain ⟨hs', ht', hop', hpushed⟩ : pushing.core.processor.stopped = false ∧
      pushing.core.processor.flags.t = true ∧
      pushing.instruction.operation = .implied (.stack .php) ∧
      pushing.instruction.operation.pushedStatus? pushing.core.processor = some (0x5F, 0x24) := by
    decide +kernel
  exact ⟨⟨hs, ht⟩, (step_index_mode hs ht).1 .adc hop hx, ⟨hs', ht'⟩,
    (step_index_mode hs' ht').2 (fun op h => nomatch hop'.symm.trans h), hpushed⟩

end Machine

end M740
