import M740.Word

/-!
# Addressing modes

A mode says how many operand bytes follow the opcode and what they mean.
-/

namespace M740

inductive Mode where
  | implied
  | accumulator
  | immediate
  /-- A constant, then the page-zero cell it is stored to. -/
  | immediateZeroPage
  | zeroPage
  | zeroPageX
  | zeroPageY
  | absolute
  | absoluteX
  | absoluteY
  /-- A pointer at the page-zero operand plus X. -/
  | xIndirect
  /-- A pointer at the page-zero operand, then plus Y. -/
  | indirectY
  | zeroPageIndirect
  | absoluteIndirect
  /-- A signed displacement from the next instruction. -/
  | relative
  | specialPage
  /-- A test of the accumulator, then a displacement. -/
  | accumulatorRelative
  /-- A page-zero cell to test, then a displacement. -/
  | zeroPageRelative
  deriving DecidableEq, Repr

namespace Mode

def all : List Mode :=
  [.implied, .accumulator, .immediate, .immediateZeroPage, .zeroPage, .zeroPageX, .zeroPageY,
    .absolute, .absoluteX, .absoluteY, .xIndirect, .indirectY, .zeroPageIndirect,
    .absoluteIndirect, .relative, .specialPage, .accumulatorRelative, .zeroPageRelative]

/-- Operand bytes after the opcode. -/
def operandLength : Mode → Nat
  | .implied | .accumulator => 0
  | .immediate | .zeroPage | .zeroPageX | .zeroPageY | .xIndirect | .indirectY
  | .zeroPageIndirect | .relative | .specialPage | .accumulatorRelative => 1
  | .immediateZeroPage | .absolute | .absoluteX | .absoluteY | .absoluteIndirect
  | .zeroPageRelative => 2

/-- Bytes of an instruction, opcode included. -/
def size (m : Mode) : Nat := 1 + m.operandLength

theorem mem_all (m : Mode) : m ∈ all := by cases m <;> decide

end Mode

end M740
