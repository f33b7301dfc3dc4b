import M740.EffectiveAddress
import M740.Stack
import M740.Timing

/-!
# Execution

An instruction runs by a `Plan`, which pairs an operation with a place for its operand that the
operation can use. Pairs of operation and mode that make no sense have no plan; every instruction
that an opcode stands for has one.
-/

namespace M740

/-! ### Operations on an operand -/

/-- In index mode the byte at X takes the place of the accumulator, which is left alone. -/
def Accumulate.perform (op : Accumulate) (value : Byte) (p : Processor) : Program Processor :=
  if p.flags.t then do
    let target ← if op.readsTarget then Program.fetch (Address.zeroPage p.x) else pure 0
    match op.apply p.flags target value with
    | (some result, flags) =>
      Program.store (Address.zeroPage p.x) result
      return { p with flags }
    | (none, flags) => return { p with flags }
  else
    match op.apply p.flags p.a value with
    | (some result, flags) => return { p with a := result, flags }
    | (none, flags) => return { p with flags }

def Reading.perform (op : Reading) (value : Byte) (p : Processor) : Program Processor :=
  match op with
  | .accumulate op => op.perform value p
  | .load i => return p.load value i.register
  | .compare i => return { p with flags := Alu.compare p.flags (p.index i) value }
  | .bit => return { p with flags := Alu.bitTest p.flags p.a value }
  | .test => return { p with flags := p.flags.describing value }

def Modifying.performOnA (op : Modifying) (p : Processor) : Processor :=
  let (result, flags) := op.apply p.flags p.a
  { p with a := result, flags }

/-- Reads the byte and writes its replacement to the same address. -/
def Modifying.performAt (op : Modifying) (address : Address) (p : Processor) :
    Program Processor := do
  let value ← Program.fetch address
  let (result, flags) := op.apply p.flags value
  Program.store address result
  return { p with flags }

/-- What an instruction leaves behind. -/
structure Outcome where
  processor : Processor
  /-- A conditional branch was taken, wherever it led. -/
  branched : Bool := false
  deriving DecidableEq, Repr

/-- Goes to `target` if the condition of a branch holds. -/
def Processor.branchIf (p : Processor) (condition : Bool) (target : Address) : Outcome :=
  if condition then { processor := { p with pc := target }, branched := true }
  else { processor := p }

/-- A call saves the address of its own last byte. -/
def Jumping.perform (op : Jumping) (target : Address) (p : Processor) : Program Outcome :=
  match op with
  | .branch condition => return p.branchIf (condition.holds p.flags) target
  | .always | .jump => return { processor := { p with pc := target } }
  | .call => do
    let p ← p.pushWord p.previous
    return { processor := { p with pc := target } }

/-- The software break saves the address after the byte that follows its opcode. -/
def Implied.perform (op : Implied) (p : Processor) : Program Processor :=
  match op with
  | .brk => (p.advance 1).enterHandler breakMarker
  | .rti => do
    let p ← p.pullFlags
    let (target, p) ← p.pullWord
    return { p with pc := Address.ofWord target }
  | .rts => do
    let (last, p) ← p.pullWord
    return { p with pc := Address.ofWord (last + 1) }
  | .stp => do
    Program.report (.stop p.previous)
    return { p with stopped := true }
  | .nop => return p
  | .flag change => return { p with flags := change.apply p.flags }
  | .count step => return step.apply p
  | .stack op => op.perform p
  | .transfer op => return op.apply p
  | .clock select => do
    Program.report (.ignored select)
    return p

/-! ### Plans -/

inductive Plan where
  | implied (op : Implied)
  | modifyA (op : Modifying)
  | readImmediate (op : Reading)
  | read (op : Reading) (locator : Locator)
  | store (register : Register) (locator : Locator)
  | modify (op : Modifying) (locator : Locator)
  | jump (op : Jumping) (locator : Locator)
  | storeImmediate
  | branchOnBitOfA (bit : Byte) (whenSet : Bool)
  | branchOnBitOfCell (bit : Byte) (whenSet : Bool)
  deriving DecidableEq, Repr

/-- How to run the instruction, if its operation can use its mode. -/
def Instruction.plan? (i : Instruction) : Option Plan :=
  match i.operation, i.mode with
  | .implied op, .implied => some (.implied op)
  | .modify op, .accumulator => some (.modifyA op)
  | .read op, .immediate => some (.readImmediate op)
  | .storeImmediate, .immediateZeroPage => some .storeImmediate
  | .branchOnBit bit whenSet, .accumulatorRelative => some (.branchOnBitOfA bit whenSet)
  | .branchOnBit bit whenSet, .zeroPageRelative => some (.branchOnBitOfCell bit whenSet)
  | .read op, mode => mode.locator?.map (.read op)
  | .store register, mode => mode.locator?.map (.store register)
  | .modify op, mode => mode.locator?.map (.modify op)
  | .jump op, mode => mode.locator?.map (.jump op)
  | _, _ => none

/-- Runs an instruction of `size` bytes that starts at the program counter. The operation sees the
program counter already past the instruction. -/
def Plan.perform (plan : Plan) (size : Nat) (p : Processor) : Program Outcome :=
  let next := p.advance size
  match plan with
  | .implied op => do
    return { processor := ← op.perform next }
  | .modifyA op => return { processor := op.performOnA next }
  | .readImmediate op => do
    let value ← Program.fetch (p.operandAddress 1)
    return { processor := ← op.perform value next }
  | .read op locator => do
    let address ← locator.locate p
    let value ← Program.fetch address
    return { processor := ← op.perform value next }
  | .store register locator => do
    let address ← locator.locate p
    Program.store address (p.register register)
    return { processor := next }
  | .modify op locator => do
    let address ← locator.locate p
    return { processor := ← op.performAt address next }
  | .jump op locator => do
    let target ← locator.locate p
    op.perform target next
  | .storeImmediate => do
    let value ← Program.fetch (p.operandAddress 1)
    let cell ← Program.fetch (p.operandAddress 2)
    Program.store (Address.zeroPage cell) value
    return { processor := next }
  | .branchOnBitOfA bit whenSet => do
    let displacement ← Program.fetch (p.operandAddress 1)
    return next.branchIf (Alu.testBit p.a bit == whenSet) (Address.displaced next.pc displacement)
  | .branchOnBitOfCell bit whenSet => do
    let cell ← Program.fetch (p.operandAddress 1)
    let value ← Program.fetch (Address.zeroPage cell)
    let displacement ← Program.fetch (p.operandAddress 2)
    return next.branchIf (Alu.testBit value bit == whenSet) (Address.displaced next.pc displacement)

/-! ### Opcodes -/

namespace Opcode

theorem plan?_isSome : ∀ opcode : Byte, (instruction opcode).plan?.isSome := by
  decide +kernel

/-- How the opcode runs. -/
def plan (opcode : Byte) : Plan := (instruction opcode).plan?.get (plan?_isSome opcode)

/-- Runs the instruction that `opcode`, found at the program counter, stands for. -/
def perform (opcode : Byte) (p : Processor) : Program Outcome :=
  (plan opcode).perform (instruction opcode).size p

end Opcode

end M740
