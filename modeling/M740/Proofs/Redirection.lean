import M740.Proofs.Operands

/-!
# Accumulator operations

An accumulator operation works on A, and in index mode on the byte at X in its place. The work is
the same: in index mode the operation reads the byte, does what it would do if A held it, and writes
back what A would hold then (`Accumulate.perform_of_set`).
-/

namespace M740

open Program

namespace Alu

variable (f : Flags) (t : Bool) (target value : Byte)

theorem add_t :
    add { f with t } target value =
      ((add f target value).1, { (add f target value).2 with t }) := by
  unfold add
  dsimp only
  split <;> rfl

theorem subtract_t :
    subtract { f with t } target value =
      ((subtract f target value).1, { (subtract f target value).2 with t }) := by
  unfold subtract
  dsimp only
  split <;> rfl

end Alu

namespace Processor

/-- Without index mode, and with another byte in A. -/
def direct (p : Processor) (a : Byte) : Processor :=
  { p with a, flags := { p.flags with t := false } }

/-- In index mode, and with A as `p` has it. -/
def restored (q p : Processor) : Processor :=
  { q with a := p.a, flags := { q.flags with t := true } }

end Processor

namespace Accumulate

variable (op : Accumulate) (value : Byte)

/-- T has no part in the work. -/
theorem apply_t (f : Flags) (t : Bool) (target : Byte) :
    op.apply { f with t } target value =
      ((op.apply f target value).1, { (op.apply f target value).2 with t }) := by
  cases op with
  | adc => exact congrArg (Prod.map some id) (Alu.add_t f t target value)
  | sbc => exact congrArg (Prod.map some id) (Alu.subtract_t f t target value)
  | ora | and | eor | lda | cmp => rfl

theorem apply_of_set {f : Flags} (ht : f.t = true) (target : Byte) :
    op.apply f target value =
      let r := op.apply { f with t := false } target value
      (r.1, { r.2 with t := true }) := by
  have hflags : { { f with t := false } with t := true } = f := by rw [← ht]
  have h := op.apply_t value { f with t := false } true target
  rwa [hflags] at h

/-- Only a comparison has no result. -/
theorem apply_eq_some {op : Accumulate} (hcmp : op ≠ .cmp) (f : Flags)
    (target value default : Byte) :
    (op.apply f target value).1 = some ((op.apply f target value).1.getD default) := by
  cases op with
  | cmp => exact absurd rfl hcmp
  | ora | and | eor | adc | sbc | lda => rfl

/-- What the operation makes of a processor whose A it works on. -/
def onA (p : Processor) : Processor :=
  let r := op.apply p.flags p.a value
  { p with a := r.1.getD p.a, flags := r.2 }

variable {value} {p : Processor}

theorem perform_of_clear (ht : p.flags.t = false) : op.perform value p = pure (op.onA value p) := by
  unfold perform onA
  rw [ht]
  cases op <;> rfl

theorem perform_of_set (ht : p.flags.t = true) :
    op.perform value p = do
      let target ← if op.readsTarget then fetch (Address.zeroPage p.x) else pure 0
      let q := op.onA value (p.direct target)
      if op ≠ .cmp then store (Address.zeroPage p.x) q.a
      return q.restored p := by
  unfold perform
  rw [if_pos ht]
  simp only [op.apply_of_set value ht]
  cases op <;> rfl

/-- The byte that takes the place of A, with the bus that this leaves. Not every operation looks at
it. -/
def takeTarget {σ : Type} [Device σ] (bus : Bus σ) (cell : Address) : Byte × Bus σ :=
  if op.readsTarget then bus.read cell else (0, bus)

theorem run_of_set {σ : Type} [Device σ] (ht : p.flags.t = true) (bus : Bus σ) :
    let cell := Address.zeroPage p.x
    let target := op.takeTarget bus cell
    let q := op.onA value (p.direct target.1)
    (op.perform value p).run trace bus [] =
      (q.restored p, if op = .cmp then target.2 else target.2.write cell q.a,
        (if op.readsTarget then [.read cell target.1] else []) ++
          if op = .cmp then [] else [.write cell q.a]) := by
  rw [op.perform_of_set ht]
  cases op <;> rfl

end Accumulate

namespace Machine

variable {σ : Type} [Device σ] {m : Machine σ} {op : Accumulate}

/-- Without index mode the work is on A. -/
theorem step_of_clear (hs : m.core.processor.stopped = false)
    (hop : m.instruction.operation = .read (.accumulate op))
    (ht : m.core.processor.flags.t = false) :
    let p := m.core.processor
    let operand := m.loadOperand
    m.call trace [] .step =
      (.units (Timing.cost m.opcode false),
        { core :=
            { processor := op.onA operand.1 (p.advance m.instruction.size)
              clock := m.core.clock.count (Opcode.charge m.opcode false false) }
          bus := operand.2.1 },
        .read p.pc m.opcode :: .note (.fetch p m.opcode) :: operand.2.2) := by
  have hadvance : (m.core.processor.advance m.instruction.size).flags.t = false := ht
  rw [step_read hs hop, ht]
  simp only [Reading.perform, op.perform_of_clear hadvance, pure_eq, run, List.append_nil]

/-- In index mode the work is on the byte at X. -/
theorem step_of_set (hs : m.core.processor.stopped = false)
    (hop : m.instruction.operation = .read (.accumulate op))
    (ht : m.core.processor.flags.t = true) :
    let p := m.core.processor
    let operand := m.loadOperand
    let cell := Address.zeroPage p.x
    let target := op.takeTarget operand.2.1 cell
    let q := op.onA operand.1 ((p.advance m.instruction.size).direct target.1)
    m.call trace [] .step =
      (.units (Timing.cost m.opcode true),
        { core :=
            { processor := q.restored p
              clock := m.core.clock.count (Opcode.charge m.opcode true false) }
          bus := if op = .cmp then target.2 else target.2.write cell q.a },
        .read p.pc m.opcode :: .note (.fetch p m.opcode) ::
          (operand.2.2 ++ ((if op.readsTarget then [.read cell target.1] else []) ++
            if op = .cmp then [] else [.write cell q.a]))) := by
  have hadvance : (m.core.processor.advance m.instruction.size).flags.t = true := ht
  rw [step_read hs hop, ht]
  simp only [Reading.perform, op.run_of_set hadvance]
  rfl

/-- What an accumulator operation finds in the place of its target: A, or the byte at X. -/
def target (m : Machine σ) : Byte :=
  if m.core.processor.flags.t then
    (m.loadOperand.2.1.read (Address.zeroPage m.core.processor.x)).1
  else m.core.processor.a

/-- What a step leaves in A, or in index mode writes to X at its end. -/
def result? (m : Machine σ) : Option Byte :=
  let r := m.call trace [] .step
  if m.core.processor.flags.t then
    match r.2.2.getLast? with
    | some (.write address value) =>
      if address = Address.zeroPage m.core.processor.x then some value else none
    | _ => none
  else some r.2.1.core.processor.a

/-- In index mode a result is written at the end of the step. -/
theorem getLast?_step_of_set (hs : m.core.processor.stopped = false)
    (hop : m.instruction.operation = .read (.accumulate op)) (hcmp : op ≠ .cmp)
    (ht : m.core.processor.flags.t = true) :
    let p := m.core.processor
    let operand := m.loadOperand
    let cell := Address.zeroPage p.x
    let target := op.takeTarget operand.2.1 cell
    let q := op.onA operand.1 ((p.advance m.instruction.size).direct target.1)
    (m.call trace [] .step).2.2.getLast? = some (.write cell q.a) := by
  rw [step_of_set hs hop ht]
  dsimp only
  rw [if_neg hcmp, ← List.append_assoc, ← List.cons_append, ← List.cons_append,
    List.getLast?_concat]

/-- An operation that has a result leaves it where it found its target. -/
theorem result?_step (hs : m.core.processor.stopped = false)
    (hop : m.instruction.operation = .read (.accumulate op)) (hcmp : op ≠ .cmp) :
    let r := op.apply m.core.processor.flags m.target m.loadOperand.1
    m.result? = r.1 ∧ (m.call trace [] .step).2.1.core.processor.flags = r.2 := by
  intro r
  unfold result?
  cases ht : m.core.processor.flags.t with
  | false =>
    have htarget : m.target = m.core.processor.a := if_neg (by rw [ht]; decide)
    have hresult := Accumulate.apply_eq_some hcmp m.core.processor.flags m.core.processor.a
      m.loadOperand.1 m.core.processor.a
    dsimp only [r]
    rw [htarget, hresult, step_of_clear hs hop ht]
    exact ⟨rfl, rfl⟩
  | true =>
    let target := op.takeTarget m.loadOperand.2.1 (Address.zeroPage m.core.processor.x)
    have hr : r = op.apply m.core.processor.flags target.1 m.loadOperand.1 := by
      have htarget : m.target = (m.loadOperand.2.1.read (Address.zeroPage m.core.processor.x)).1 :=
        if_pos ht
      dsimp only [r]
      rw [htarget]
      -- LDA does not look at the target, and its work does not depend on it
      cases op <;> rfl
    have hresult := Accumulate.apply_eq_some hcmp { m.core.processor.flags with t := false }
      target.1 m.loadOperand.1 target.1
    rw [hr, op.apply_of_set _ ht]
    dsimp only
    rw [getLast?_step_of_set hs hop hcmp ht, step_of_set hs hop ht, hresult, if_pos rfl]
    exact ⟨if_pos rfl, rfl⟩

end Machine

end M740
