import M740.Proofs.Branching
import M740.Proofs.Calls

/-!
# Operands

An instruction that reads an operand first loads it and then works on it. Loading depends on the
program counter and the index registers and disturbs nothing but devices, so a step of such an
instruction comes apart into the operand and the work (`Machine.step_read`).
-/

namespace M740

open Program

/-! ### Programs that only read -/

namespace Program

variable {σ α β ω : Type}

/-- Nothing is written. -/
def ReadOnly : Program α → Prop
  | .done _ => True
  | .read _ next => ∀ value, (next value).ReadOnly
  | .write .. => False
  | .poll next => ∀ level, (next level).ReadOnly
  | .note _ next => next.ReadOnly

theorem ReadOnly.bind {p : Program α} {f : α → Program β} (hp : p.ReadOnly)
    (hf : ∀ a, (f a).ReadOnly) : (p >>= f).ReadOnly := by
  induction p with
  | done a => exact hf a
  | read _ _ ih => exact fun v => ih v (hp v)
  | write => cases hp
  | poll _ ih => exact fun b => ih b (hp b)
  | note _ _ ih => exact ih hp

/-- What only reads changes no memory. -/
theorem ReadOnly.peek_run [Device σ] {p : Program α} (hp : p.ReadOnly) (observe : ω → Event → ω)
    (bus : Bus σ) (seen : ω) (a : Address) : (p.run observe bus seen).2.1.peek a = bus.peek a := by
  induction p generalizing bus seen with
  | done => rfl
  | read address _ ih => exact (ih _ (hp _) _ _).trans (bus.peek_read address a)
  | write => cases hp
  | poll _ ih => exact ih _ (hp _) _ _
  | note _ _ ih => exact ih hp _ _

end Program

/-! ### Loading -/

/-- Loads the operand: from behind the opcode, or from where the mode leads. -/
def Mode.load (m : Mode) (p : Processor) : Program Byte :=
  match m.locator? with
  | some l => l.locate p >>= Program.fetch
  | none => Program.fetch (p.operandAddress 1)

theorem Locator.locator?_mode (l : Locator) : l.mode.locator? = some l := by
  cases l with
  | zeroPage index | absolute index => rcases index with _ | _ | _ <;> rfl
  | xIndirect | indirectY | zeroPageIndirect | absoluteIndirect | relative | specialPage => rfl

theorem Locator.locate_readOnly (l : Locator) (p : Processor) : (l.locate p).ReadOnly := by
  cases l with
  | zeroPage | relative | specialPage => exact fun _ => trivial
  | absolute => exact fun _ _ => trivial
  | xIndirect | indirectY | zeroPageIndirect => exact fun _ _ _ => trivial
  | absoluteIndirect => exact fun _ _ _ _ => trivial

theorem Mode.load_readOnly (m : Mode) (p : Processor) : (m.load p).ReadOnly := by
  unfold load
  split
  · exact (Locator.locate_readOnly _ p).bind fun _ _ => trivial
  · exact fun _ => trivial

/-- The accumulator and the flags have no part in finding an address. -/
theorem Locator.locate_congr (l : Locator) (p : Processor) (a : Byte) (flags : Flags) :
    l.locate { p with a, flags } = l.locate p := by
  cases l with
  | zeroPage index | absolute index => rcases index with _ | _ | _ <;> rfl
  | xIndirect | indirectY | zeroPageIndirect | absoluteIndirect | relative | specialPage => rfl

/-- The accumulator and the flags have no part in loading. -/
theorem Mode.load_congr (m : Mode) (p : Processor) (a : Byte) (flags : Flags) :
    m.load { p with a, flags } = m.load p := by
  unfold load
  simp only [Locator.locate_congr]
  rfl

namespace Opcode

/-- An instruction that reads an operand loads it and works on it. -/
theorem perform_read {opcode : Byte} {op : Reading}
    (h : (instruction opcode).operation = .read op) (p : Processor) :
    perform opcode p = do
      let value ← (instruction opcode).mode.load p
      return { processor := ← op.perform value (p.advance (instruction opcode).size) } := by
  have hoperation := (operation_plan opcode).trans h
  unfold perform
  rw [← mode_plan]
  cases hplan : plan opcode with
  | readImmediate op' =>
    rw [hplan] at hoperation
    cases hoperation
    rfl
  | read op' l =>
    rw [hplan] at hoperation
    cases hoperation
    simp only [Plan.perform, Plan.mode, Mode.load, l.locator?_mode, bind_assoc]
  | implied | modifyA | store | modify | jump | storeImmediate | branchOnBitOfA
  | branchOnBitOfCell =>
    rw [hplan] at hoperation
    cases hoperation

end Opcode

namespace Machine

variable {σ : Type} [Device σ]

/-- The byte at the program counter, as a step reads it. -/
def opcode (m : Machine σ) : Byte := (m.bus.read m.core.processor.pc).1

/-- The instruction that a step performs. -/
def instruction (m : Machine σ) : Instruction := Opcode.instruction m.opcode

/-- The operand that a step loads, with the bus that this leaves and what happens on the way. -/
def loadOperand (m : Machine σ) : Byte × Bus σ × List Event :=
  (m.instruction.mode.load m.core.processor).run trace (m.bus.read m.core.processor.pc).2 []

/-- Loading the operand disturbs devices only. -/
theorem peek_loadOperand (m : Machine σ) (a : Address) :
    m.loadOperand.2.1.peek a = m.bus.peek a :=
  ((Mode.load_readOnly _ _).peek_run ..).trans (m.bus.peek_read ..)

/-- A step fetches the opcode and performs what it stands for. -/
theorem step_trace {m : Machine σ} (hs : m.core.processor.stopped = false) :
    let p := m.core.processor
    let r := (Opcode.perform m.opcode p).run trace (m.bus.read p.pc).2 []
    let charge := Opcode.charge m.opcode p.flags.t r.1.branched
    m.call trace [] .step =
      (.units charge.units,
        { core := { processor := r.1.processor, clock := m.core.clock.count charge }
          bus := r.2.1 },
        .read p.pc m.opcode :: .note (.fetch p m.opcode) :: r.2.2) := by
  rw [call_step trace [] hs, Processor.performNext_trace]
  rfl

/-- A step of an instruction that reads an operand loads it and works on it. -/
theorem step_read {m : Machine σ} (hs : m.core.processor.stopped = false) {op : Reading}
    (hop : m.instruction.operation = .read op) :
    let p := m.core.processor
    let operand := m.loadOperand
    let r := (op.perform operand.1 (p.advance m.instruction.size)).run trace operand.2.1 []
    m.call trace [] .step =
      (.units (Timing.cost m.opcode p.flags.t),
        { core :=
            { processor := r.1
              clock := m.core.clock.count (Opcode.charge m.opcode p.flags.t false) }
          bus := r.2.1 },
        .read p.pc m.opcode :: .note (.fetch p m.opcode) :: (operand.2.2 ++ r.2.2)) := by
  intro p operand r
  have hrun : (Opcode.perform m.opcode p).run trace (m.bus.read p.pc).2 [] =
      ({ processor := r.1 }, r.2.1, operand.2.2 ++ r.2.2) := by
    have hwork := run_trace (op.perform operand.1 (p.advance m.instruction.size)) operand.2.1
      operand.2.2
    rw [Opcode.perform_read hop, run_bind, run_bind]
    exact congrArg (fun r => (({ processor := r.1 } : Outcome), r.2)) hwork
  rw [step_trace hs, hrun]
  rfl

end Machine

end M740
