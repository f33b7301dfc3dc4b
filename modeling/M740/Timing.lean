import M740.Opcode

/-!
# Timing

Costs are whole units, one unit for every four ticks of the host clock. An instruction is charged
once, for all of it: a base cost, a surcharge when index mode redirects an accumulator operation,
and a penalty when a conditional branch is taken.
-/

namespace M740.Timing

/-- Host clock ticks in a unit. -/
def ticksPerUnit : Nat := 4

/-- What a taken conditional branch pays on top of its base cost. -/
def branchPenalty : Nat := 2

/-- What entering a hardware interrupt costs. -/
def interruptCost : Nat := 7

/-- The price of the extra accesses to the byte at X in index mode. -/
def indexModeSurcharge : Accumulate → Nat
  | .lda => 2
  | .cmp => 1
  | _ => 3

def accumulateCost? : Mode → Option Nat
  | .immediate => some 2
  | .zeroPage => some 3
  | .zeroPageX | .absolute => some 4
  | .absoluteX | .absoluteY => some 5
  | .xIndirect | .indirectY => some 6
  | _ => none

/-- Loads and comparisons of index registers, and the test of A against memory. -/
def registerReadCost? : Mode → Option Nat
  | .immediate => some 2
  | .zeroPage => some 3
  | .zeroPageX | .zeroPageY | .absolute => some 4
  | .absoluteX | .absoluteY => some 5
  | _ => none

def storeCost? : Mode → Option Nat
  | .zeroPage => some 4
  | .zeroPageX | .zeroPageY | .absolute => some 5
  | .absoluteX | .absoluteY => some 6
  | .xIndirect | .indirectY => some 7
  | _ => none

/-- Shifts, rotations and counting in place. -/
def shiftCost? : Mode → Option Nat
  | .accumulator => some 2
  | .zeroPage => some 5
  | .zeroPageX | .absolute => some 6
  | .absoluteX => some 7
  | _ => none

def bitChangeCost? : Mode → Option Nat
  | .accumulator => some 2
  | .zeroPage => some 5
  | _ => none

def bitBranchCost? : Mode → Option Nat
  | .accumulatorRelative => some 4
  | .zeroPageRelative => some 5
  | _ => none

def jumpCost? : Mode → Option Nat
  | .absolute => some 3
  | .zeroPageIndirect => some 4
  | .absoluteIndirect => some 5
  | _ => none

def callCost? : Mode → Option Nat
  | .specialPage => some 5
  | .absolute => some 6
  | .zeroPageIndirect => some 7
  | _ => none

def impliedCost : Implied → Nat
  | .brk => 7
  | .rti | .rts => 6
  | .stack .pha | .stack .php => 3
  | .stack .pla | .stack .plp => 4
  | _ => 2

/-- The base cost of an operation in a mode, with the surcharge if `indexMode` is set when it
starts. Operations with a single mode cost the same whatever mode is asked about; `none` for a
pair that has no cost. -/
def cost? (operation : Operation) (mode : Mode) (indexMode : Bool) : Option Nat :=
  match operation with
  | .read (.accumulate op) =>
    (accumulateCost? mode).map fun base =>
      if indexMode then base + indexModeSurcharge op else base
  | .read .test => some 3
  | .read _ => registerReadCost? mode
  | .store _ => storeCost? mode
  | .storeImmediate => some 4
  | .modify (.setBit _) | .modify (.clearBit _) => bitChangeCost? mode
  | .modify .complement => some 5
  | .modify .rotateNibbles => some 8
  | .modify _ => shiftCost? mode
  | .jump (.branch _) => some 2
  | .jump .always => some 4
  | .jump .jump => jumpCost? mode
  | .jump .call => callCost? mode
  | .branchOnBit .. => bitBranchCost? mode
  | .implied op => some (impliedCost op)

/-- What is reported about a pair that has no cost. -/
def noCostMessage : String := "no cost defined for this operation and addressing mode"

theorem cost?_instruction_isSome :
    ∀ (opcode : Byte) (indexMode : Bool),
      (cost? (Opcode.instruction opcode).operation (Opcode.instruction opcode).mode
        indexMode).isSome := by
  decide +kernel

/-- The base cost of the instruction an opcode runs. -/
def cost (opcode : Byte) (indexMode : Bool) : Nat :=
  (cost? (Opcode.instruction opcode).operation (Opcode.instruction opcode).mode indexMode).get
    (cost?_instruction_isSome opcode indexMode)

/-- No instruction is free, so a run that is charged for each one ends. -/
theorem two_le_cost : ∀ (opcode : Byte) (indexMode : Bool), 2 ≤ cost opcode indexMode := by
  decide +kernel

/-- The most an opcode can be charged: in index mode, with its branch taken. -/
def worst (opcode : Byte) : Nat :=
  cost opcode true +
    if (Opcode.instruction opcode).operation.isConditional then branchPenalty else 0

/-- The most any instruction can be charged. -/
def maxCharge : Nat := ((List.range 256).map fun n => worst (UInt8.ofNat n)).foldl max 0

theorem maxCharge_eq : maxCharge = 9 := by decide +kernel

end M740.Timing
