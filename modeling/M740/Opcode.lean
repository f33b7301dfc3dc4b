import M740.Mode
import M740.Operation

/-!
# Opcodes

The low two bits of an opcode choose one of four groups; the top three bits are a row and the
three between them a column. Two groups are regular: one pairs seven accumulator operations and
the store of A with eight modes, the other is the bit family, whose row is the bit index. The
other two are tables with gaps.
-/

namespace M740

/-- An operation together with the mode that finds its operand. -/
structure Instruction where
  operation : Operation
  mode : Mode
  deriving DecidableEq, Repr

/-- Bytes of the instruction, opcode included. -/
def Instruction.size (i : Instruction) : Nat := i.mode.size

namespace Opcode

def row (opcode : Byte) : Fin 8 := Fin.ofNat 8 (opcode.toNat / 32)

def column (opcode : Byte) : Fin 8 := Fin.ofNat 8 (opcode.toNat / 4)

/-! ### The regular groups -/

/-- The operation of each row of the accumulator group. -/
def accumulatorRow : Vector Operation 8 :=
  #v[.read (.accumulate .ora), .read (.accumulate .and), .read (.accumulate .eor),
    .read (.accumulate .adc), .store .a, .read (.accumulate .lda), .read (.accumulate .cmp),
    .read (.accumulate .sbc)]

/-- The mode of each column of the accumulator group. -/
def accumulatorColumn : Vector Mode 8 :=
  #v[.xIndirect, .zeroPage, .immediate, .absolute, .indirectY, .zeroPageX, .absoluteY, .absoluteX]

/-- The accumulator group; a store to a constant has no meaning. -/
def accumulatorGroup (row column : Fin 8) : Option Instruction :=
  let i : Instruction := ⟨accumulatorRow[row], accumulatorColumn[column]⟩
  if i = ⟨.store .a, .immediate⟩ then none else some i

/-- The bit family, on the bit that the row names. -/
def bitGroup (bit : Byte) : Vector Instruction 8 :=
  #v[⟨.branchOnBit bit true, .accumulatorRelative⟩, ⟨.branchOnBit bit true, .zeroPageRelative⟩,
    ⟨.modify (.setBit bit), .accumulator⟩, ⟨.modify (.setBit bit), .zeroPage⟩,
    ⟨.branchOnBit bit false, .accumulatorRelative⟩, ⟨.branchOnBit bit false, .zeroPageRelative⟩,
    ⟨.modify (.clearBit bit), .accumulator⟩, ⟨.modify (.clearBit bit), .zeroPage⟩]

/-! ### The tables -/

def implied (op : Implied) : Option Instruction := some ⟨.implied op, .implied⟩

def branch (condition : Condition) : Option Instruction :=
  some ⟨.jump (.branch condition), .relative⟩

def jump (op : Jumping) (mode : Mode) : Option Instruction := some ⟨.jump op, mode⟩

def read (op : Reading) (mode : Mode) : Option Instruction := some ⟨.read op, mode⟩

def store (register : Register) (mode : Mode) : Option Instruction := some ⟨.store register, mode⟩

def modify (op : Modifying) (mode : Mode) : Option Instruction := some ⟨.modify op, mode⟩

/-- Opcodes divisible by four: control flow, flags, Y and the comparisons of index registers. -/
def controlTable : Vector (Vector (Option Instruction) 8) 8 :=
  #v[
    #v[implied .brk, none, implied (.stack .php), none,
      branch .plus, none, implied (.flag .clc), none],
    #v[jump .call .absolute, read .bit .zeroPage, implied (.stack .plp), read .bit .absolute,
      branch .minus, none, implied (.flag .sec), some ⟨.storeImmediate, .immediateZeroPage⟩],
    #v[implied .rti, modify .complement .zeroPage, implied (.stack .pha), jump .jump .absolute,
      branch .overflowClear, none, implied (.flag .cli), none],
    #v[implied .rts, read .test .zeroPage, implied (.stack .pla), jump .jump .absoluteIndirect,
      branch .overflowSet, none, implied (.flag .sei), none],
    #v[jump .always .relative, store .y .zeroPage, implied (.count (.down .y)), store .y .absolute,
      branch .carryClear, store .y .zeroPageX, implied (.transfer .tya), none],
    #v[read (.load .y) .immediate, read (.load .y) .zeroPage, implied (.transfer .tay),
      read (.load .y) .absolute,
      branch .carrySet, read (.load .y) .zeroPageX, implied (.flag .clv),
      read (.load .y) .absoluteX],
    #v[read (.compare .y) .immediate, read (.compare .y) .zeroPage, implied (.count (.up .y)),
      read (.compare .y) .absolute,
      branch .notEqual, none, implied (.flag .cld), none],
    #v[read (.compare .x) .immediate, read (.compare .x) .zeroPage, implied (.count (.up .x)),
      read (.compare .x) .absolute,
      branch .equal, none, implied (.flag .sed), none]]

/-- Opcodes that leave two when divided by four: shifts, counting in place and X. -/
def shiftTable : Vector (Vector (Option Instruction) 8) 8 :=
  #v[
    #v[jump .call .zeroPageIndirect, modify .asl .zeroPage, modify .asl .accumulator,
      modify .asl .absolute,
      implied (.flag .clt), modify .asl .zeroPageX, modify .dec .accumulator,
      modify .asl .absoluteX],
    #v[jump .call .specialPage, modify .rol .zeroPage, modify .rol .accumulator,
      modify .rol .absolute,
      implied (.flag .set), modify .rol .zeroPageX, modify .inc .accumulator,
      modify .rol .absoluteX],
    #v[implied .stp, modify .lsr .zeroPage, modify .lsr .accumulator, modify .lsr .absolute,
      none, modify .lsr .zeroPageX, none, modify .lsr .absoluteX],
    #v[none, modify .ror .zeroPage, modify .ror .accumulator, modify .ror .absolute,
      none, modify .ror .zeroPageX, none, modify .ror .absoluteX],
    #v[modify .rotateNibbles .zeroPage, store .x .zeroPage, implied (.transfer .txa),
      store .x .absolute,
      none, store .x .zeroPageY, implied (.transfer .txs), none],
    #v[read (.load .x) .immediate, read (.load .x) .zeroPage, implied (.transfer .tax),
      read (.load .x) .absolute,
      jump .jump .zeroPageIndirect, read (.load .x) .zeroPageY, implied (.transfer .tsx),
      read (.load .x) .absoluteY],
    #v[implied (.clock .slow), modify .dec .zeroPage, implied (.count (.down .x)),
      modify .dec .absolute,
      none, modify .dec .zeroPageX, none, modify .dec .absoluteX],
    #v[implied (.clock .fast), modify .inc .zeroPage, implied .nop, modify .inc .absolute,
      none, modify .inc .zeroPageX, none, modify .inc .absoluteX]]

/-! ### Decoding -/

/-- The instruction an opcode stands for, if it has a meaning. -/
def decode? (opcode : Byte) : Option Instruction :=
  let row := row opcode
  let column := column opcode
  match opcode.toNat % 4 with
  | 0 => controlTable[row][column]
  | 1 => accumulatorGroup row column
  | 2 => shiftTable[row][column]
  | _ => some (bitGroup (UInt8.ofNat row))[column]

/-- The canonical no-operation. -/
def nop : Byte := 0xEA

/-- The instruction that runs: encodings without a meaning run as the no-operation. -/
def instruction (opcode : Byte) : Instruction :=
  (decode? opcode).getD ⟨.implied .nop, .implied⟩

theorem decode?_nop : decode? nop = some ⟨.implied .nop, .implied⟩ := by decide

end Opcode

end M740
