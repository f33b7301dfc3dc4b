import M740.Mode
import M740.Program

/-!
# Effective addresses

The modes that lead to an address on the bus, and how each one finds it. Additions on page zero
wrap within the page; all others wrap with the bus.
-/

namespace M740

/-- A way to find an address, starting from the operand bytes. -/
inductive Locator where
  | zeroPage (index : Option Index)
  | absolute (index : Option Index)
  | xIndirect
  | indirectY
  | zeroPageIndirect
  | absoluteIndirect
  | relative
  | specialPage
  deriving DecidableEq, Repr

/-- How the mode finds its address, if it has one. -/
def Mode.locator? : Mode → Option Locator
  | .zeroPage => some (.zeroPage none)
  | .zeroPageX => some (.zeroPage (some .x))
  | .zeroPageY => some (.zeroPage (some .y))
  | .absolute => some (.absolute none)
  | .absoluteX => some (.absolute (some .x))
  | .absoluteY => some (.absolute (some .y))
  | .xIndirect => some .xIndirect
  | .indirectY => some .indirectY
  | .zeroPageIndirect => some .zeroPageIndirect
  | .absoluteIndirect => some .absoluteIndirect
  | .relative => some .relative
  | .specialPage => some .specialPage
  | .implied | .accumulator | .immediate | .immediateZeroPage | .accumulatorRelative
  | .zeroPageRelative => none

namespace Processor

/-- The byte to add for an optional index register. -/
def offset (p : Processor) : Option Index → Byte
  | none => 0
  | some i => p.index i

/-- The address of an operand byte of the instruction at the program counter. -/
def operandAddress (p : Processor) (position : Nat) : Address :=
  p.pc + BitVec.ofNat 13 position

end Processor

/-- Finds the address for the instruction at the program counter. -/
def Locator.locate (l : Locator) (p : Processor) : Program Address :=
  let operand := p.operandAddress 1
  match l with
  | .zeroPage index => do
    let base ← Program.fetch operand
    return Address.zeroPage (base + p.offset index)
  | .absolute index => do
    let base ← Program.fetchWord operand
    return Address.ofWord base + Address.zeroPage (p.offset index)
  | .xIndirect => do
    let base ← Program.fetch operand
    return Address.ofWord (← Program.fetchPointer (base + p.x))
  | .indirectY => do
    let base ← Program.fetch operand
    return Address.ofWord (← Program.fetchPointer base) + Address.zeroPage p.y
  | .zeroPageIndirect => do
    let base ← Program.fetch operand
    return Address.ofWord (← Program.fetchPointer base)
  | .absoluteIndirect => do
    let pointer ← Program.fetchWord operand
    return Address.ofWord (← Program.fetchWord (Address.ofWord pointer))
  | .relative => do
    let displacement ← Program.fetch operand
    return Address.displaced (p.operandAddress 2) displacement
  | .specialPage => do
    let operand ← Program.fetch operand
    return Address.specialPage operand

end M740
