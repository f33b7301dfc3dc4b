import M740.Checked.Alu
import M740.Execution

/-!
# Checked execution

An instruction that runs from its operation and its mode alone. The mode is resolved to an operand,
the operand is routed by the way the operation uses it, and each dispatcher on the way looks up the
operation anew: none of them knows which pairs the others let through.
-/

namespace M740.Checked

/-! ### Operands -/

/-- Where an operation finds its operand. -/
inductive Operand where
  | implied
  | accumulator
  | immediate (value : Byte)
  | address (address : Address)
  deriving DecidableEq, Repr

def operandByte (p : Processor) (position : Nat) : Guarded Byte :=
  Program.fetch (p.operandAddress position)

/-- Reads a little-endian word from the instruction. -/
def operandWord (p : Processor) (position : Nat) : Guarded Word := do
  let lo ← operandByte p position
  let hi ← operandByte p (← add UInt16.size position 1)
  return Word.ofBytes lo hi

/-- Bytes of an instruction in the mode. -/
def size (m : Mode) : Checked Nat := add UInt16.size 1 m.operandLength

/-- Finds the operand. -/
def operand (m : Mode) (p : Processor) : Guarded Operand :=
  match m with
  | .implied => return .implied
  | .accumulator => return .accumulator
  | .immediate => return .immediate (← operandByte p 1)
  | .zeroPage => return .address (Address.zeroPage (← operandByte p 1))
  | .zeroPageX => return .address (Address.zeroPage ((← operandByte p 1) + p.x))
  | .zeroPageY => return .address (Address.zeroPage ((← operandByte p 1) + p.y))
  | .absolute => return .address (Address.ofWord (← operandWord p 1))
  | .absoluteX => return .address (Address.ofWord (← operandWord p 1) + Address.zeroPage p.x)
  | .absoluteY => return .address (Address.ofWord (← operandWord p 1) + Address.zeroPage p.y)
  | .xIndirect => do
    let pointer ← Program.fetchPointer ((← operandByte p 1) + p.x)
    return .address (Address.ofWord pointer)
  | .indirectY => do
    let pointer ← Program.fetchPointer (← operandByte p 1)
    return .address (Address.ofWord pointer + Address.zeroPage p.y)
  | .zeroPageIndirect => do
    let pointer ← Program.fetchPointer (← operandByte p 1)
    return .address (Address.ofWord pointer)
  | .absoluteIndirect => do
    let pointer ← Program.fetchWord (Address.ofWord (← operandWord p 1))
    return .address (Address.ofWord pointer)
  | .relative => do
    let displacement ← operandByte p 1
    return .address (Address.displaced (p.operandAddress (← size m)) displacement)
  | .specialPage => return .address (Address.specialPage (← operandByte p 1))
  | .immediateZeroPage | .accumulatorRelative | .zeroPageRelative => throw (.noCase .resolver)

/-- Finds the operand, and moves the program counter past the instruction. -/
def resolve (m : Mode) (p : Processor) : Guarded (Operand × Processor) := do
  let found ← operand m p
  return (found, p.advance (← size m))

/-! ### Operations on an operand -/

/-- An accumulator operation, on A or, in index mode, on the byte at X. -/
def accumulate (o : Operation) (value : Byte) (p : Processor) : Guarded Processor :=
  if p.flags.t then do
    let target ← if o = .read (.accumulate .lda) then pure 0
      else Program.fetch (Address.zeroPage p.x)
    match ← accumulateInto o p.flags target value with
    | (some result, flags) =>
      Program.store (Address.zeroPage p.x) result
      return { p with flags }
    | (none, flags) => return { p with flags }
  else do
    match ← accumulateInto o p.flags p.a value with
    | (some result, flags) => return { p with a := result, flags }
    | (none, flags) => return { p with flags }

/-- An operation that reads a byte. -/
def consume (o : Operation) (value : Byte) (p : Processor) : Guarded Processor :=
  match o with
  | .read (.accumulate _) => accumulate o value p
  | .read (.load .x) => return p.load value .x
  | .read (.load .y) => return p.load value .y
  | .read (.compare .x) => return { p with flags := Alu.compare p.flags p.x value }
  | .read (.compare .y) => return { p with flags := Alu.compare p.flags p.y value }
  | .read .bit => return { p with flags := Alu.bitTest p.flags p.a value }
  | .read .test => return { p with flags := p.flags.describing value }
  | _ => throw (.noCase .reading)

/-- The byte that an operation stores. -/
def stored (o : Operation) (p : Processor) : Checked Byte :=
  match o with
  | .store .a => pure p.a
  | .store .x => pure p.x
  | .store .y => pure p.y
  | _ => .error (.noCase .storing)

/-- An operation that takes the operand as an address to go to. -/
def jump (o : Operation) (target : Address) (p : Processor) : Guarded Outcome :=
  match o with
  | .jump (.branch .plus) => return p.branchIf (!p.flags.n) target
  | .jump (.branch .minus) => return p.branchIf p.flags.n target
  | .jump (.branch .overflowClear) => return p.branchIf (!p.flags.v) target
  | .jump (.branch .overflowSet) => return p.branchIf p.flags.v target
  | .jump (.branch .carryClear) => return p.branchIf (!p.flags.c) target
  | .jump (.branch .carrySet) => return p.branchIf p.flags.c target
  | .jump (.branch .notEqual) => return p.branchIf (!p.flags.z) target
  | .jump (.branch .equal) => return p.branchIf p.flags.z target
  | .jump .always | .jump .jump => return { processor := { p with pc := target } }
  | .jump .call => do
    let p ← p.pushWord p.previous
    return { processor := { p with pc := target } }
  | _ => throw (.noCase .jumping)

/-- An operation without an operand. -/
def implied (o : Operation) (p : Processor) : Guarded Processor :=
  match o with
  | .implied .brk => Implied.brk.perform p
  | .implied .rti => Implied.rti.perform p
  | .implied .rts => Implied.rts.perform p
  | .implied .stp => Implied.stp.perform p
  | .implied (.flag _) => do return { p with flags := ← changeFlag o p.flags }
  | .implied (.count (.up .x)) => return (Count.up .x).apply p
  | .implied (.count (.up .y)) => return (Count.up .y).apply p
  | .implied (.count (.down .x)) => return (Count.down .x).apply p
  | .implied (.count (.down .y)) => return (Count.down .y).apply p
  | .implied (.stack .pha) => StackOp.pha.perform p
  | .implied (.stack .php) => StackOp.php.perform p
  | .implied (.stack .pla) => StackOp.pla.perform p
  | .implied (.stack .plp) => StackOp.plp.perform p
  | .implied (.transfer .tax) => return Transfer.tax.apply p
  | .implied (.transfer .tay) => return Transfer.tay.apply p
  | .implied (.transfer .txa) => return Transfer.txa.apply p
  | .implied (.transfer .tya) => return Transfer.tya.apply p
  | .implied (.transfer .tsx) => return Transfer.tsx.apply p
  | .implied (.transfer .txs) => return Transfer.txs.apply p
  | .implied (.clock .fast) => (Implied.clock .fast).perform p
  | .implied (.clock .slow) => (Implied.clock .slow).perform p
  | .implied .nop => return p
  | _ => throw (.noCase .implied)

/-- Routes an operand by the way the operation uses it. -/
def execute (o : Operation) (operand : Operand) (p : Processor) : Guarded Outcome :=
  match operand with
  | .implied => do return { processor := ← implied o p }
  | .accumulator => do
    let (result, flags) ← modify o p.flags p.a
    return { processor := { p with a := result, flags } }
  | .immediate value => do return { processor := ← consume o value p }
  | .address address =>
    match o.access with
    | .read => do
      let value ← Program.fetch address
      return { processor := ← consume o value p }
    | .write => do
      let value ← stored o p
      Program.store address value
      return { processor := p }
    | .readModifyWrite => do
      let value ← Program.fetch address
      let (result, flags) ← modify o p.flags value
      Program.store address result
      return { processor := { p with flags } }
    | .jump => jump o address p
    | .none => throw (.noCase .executor)

/-! ### Operations with a sequence of their own -/

/-- Stores the constant among its own operand bytes. -/
def storeImmediate (p : Processor) : Guarded Outcome := do
  let value ← operandByte p 1
  let cell ← operandByte p 2
  let next := p.advance (← size .immediateZeroPage)
  Program.store (Address.zeroPage cell) value
  return { processor := next }

/-- Branches when a bit has the value `whenSet`. -/
def branchOnBit (m : Mode) (bit : Byte) (whenSet : Bool) (p : Processor) : Guarded Outcome := do
  let value ← match m with
    | .accumulatorRelative => pure p.a
    | .zeroPageRelative => do Program.fetch (Address.zeroPage (← operandByte p 1))
    | _ => throw (.noCase .bitBranch)
  let displacement ← operandByte p m.operandLength
  let next := p.advance (← size m)
  let isSet ← testBit value bit
  return next.branchIf (isSet == whenSet) (Address.displaced next.pc displacement)

/-! ### Instructions -/

/-- Runs an instruction that starts at the program counter. -/
def perform (i : Instruction) (p : Processor) : Guarded Outcome :=
  match i.operation with
  | .storeImmediate => storeImmediate p
  | .branchOnBit bit whenSet => branchOnBit i.mode bit whenSet p
  | _ => do
    let (operand, p) ← resolve i.mode p
    execute i.operation operand p

/-- What an opcode is bound to: encodings without a meaning are bound to the no-operation. -/
def bound (opcode : Byte) : Checked Instruction :=
  match Opcode.decode? opcode with
  | some i => pure i
  | none =>
    match Opcode.decode? Opcode.nop with
    | some i => pure i
    | none => .error (.noCase .executor)

/-- The table that the opcode is looked up in. -/
def performer (opcode : Byte) : Checked Instruction := do
  bound (← element ((List.range 256).map UInt8.ofNat) opcode.toNat)

/-- The cost of an instruction, in 32 bits. Both costs of it must be defined, whichever is paid. -/
def cost (i : Instruction) (indexMode : Bool) : Checked Nat := do
  let plain ← defined (Timing.cost? i.operation i.mode false)
  let indexed ← defined (Timing.cost? i.operation i.mode true)
  return if indexMode then indexed else plain
where
  defined : Option Nat → Checked Nat
    | some units => unsigned UInt32.size units
    | none => .error .noCost

end M740.Checked
