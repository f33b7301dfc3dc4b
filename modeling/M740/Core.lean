import M740.Clock
import M740.Execution

/-!
# The core

The processor with its clock: reset, single steps, interrupts and clocked runs. All of them are
programs of bus transactions, so they are the same whatever memory and devices are attached.
-/

namespace M740

namespace Opcode

/-- The base cost, and the penalty if a branch was taken. -/
def charge (opcode : Byte) (indexMode branched : Bool) : Charge where
  units := Timing.cost opcode indexMode + if branched then Timing.branchPenalty else 0
  pos := Nat.lt_of_lt_of_le (by decide)
    (Nat.le_trans (Timing.two_le_cost opcode indexMode) (Nat.le_add_right _ _))

end Opcode

/-- The charge for entering a hardware interrupt. -/
def Charge.interrupt : Charge := ⟨Timing.interruptCost, by decide⟩

namespace Processor

/-- Goes to the address in the reset vector with interrupts disabled. Other registers keep what
they hold. -/
def reset (p : Processor) : Program Processor := do
  let start ← Program.fetchWord resetVector
  let p := { p with
    pc := Address.ofWord start
    flags := { p.flags with i := true, t := false }
    stopped := false }
  Program.report (.reset p.pc)
  return p

/-- Performs the instruction at the program counter. The charge depends on index mode as it is
before the instruction. -/
def performNext (p : Processor) : Program (Processor × Charge) := do
  let opcode ← Program.fetch p.pc
  Program.report (.fetch p opcode)
  let outcome ← Opcode.perform opcode p
  return (outcome.processor, Opcode.charge opcode p.flags.t outcome.branched)

/-- Enters the handler of a hardware interrupt. -/
def takeInterrupt (p : Processor) : Program Processor := do
  let p ← p.enterHandler 0
  Program.report (.interrupt p.pc)
  return p

/-- One turn of a clocked run: an interrupt if one is requested and accepted, else an
instruction. -/
def turn (p : Processor) : Program (Processor × Charge) := do
  if (← Program.interruptLine) && p.acceptsInterrupt then
    return (← p.takeInterrupt, Charge.interrupt)
  else
    p.performNext

end Processor

structure Core where
  processor : Processor := {}
  clock : Clock := {}
  deriving DecidableEq, Repr

namespace Core

def reset (c : Core) : Program Core := do
  return { c with processor := ← c.processor.reset }

/-- Performs one instruction on the side: it is counted, but the budget does not pay for it.
A stopped processor does nothing, at no cost. -/
def step (c : Core) : Program (Nat × Core) :=
  if c.processor.stopped then return (0, c)
  else do
    let (processor, charge) ← c.processor.performNext
    return (charge.units, { processor, clock := c.clock.count charge })

/-- Requests a hardware interrupt; the answer tells whether it was taken. -/
def interrupt (c : Core) : Program (Bool × Core) :=
  if c.processor.acceptsInterrupt then do
    let processor ← c.processor.takeInterrupt
    return (true, { processor, clock := c.clock.charge Charge.interrupt })
  else return (false, c)

/-- Takes turns while units are left and the processor is not stopped. -/
def spend (c : Core) : Program Core :=
  if 0 < c.clock.budget ∧ c.processor.stopped = false then
    c.processor.turn >>= fun (processor, charge) =>
      spend { processor, clock := c.clock.charge charge }
  else return c
termination_by c.clock.budget.toNat
decreasing_by
  rename_i h
  exact Clock.budget_charge_lt _ _ h.1

/-- Delivers host ticks and spends them. A stopped processor keeps no units for later. -/
def runFor (c : Core) (ticks : UInt32) : Program Core := do
  let c ← spend { c with clock := c.clock.deliver ticks }
  return { c with clock := if c.processor.stopped then c.clock.forfeit else c.clock }

end Core

end M740
