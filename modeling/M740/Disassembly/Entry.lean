import M740.Hex
import M740.Timing

/-!
# Listing entries

An entry of a listing is an instruction with its operand bytes, or a single byte of data. Its text
is in the assembler's notation: bit operations name the bit first, a stored constant comes before
the cell it goes to, and calls into the special page carry a backslash.
-/

namespace M740

structure Entry where
  address : Word
  opcode : Byte
  /-- What the opcode stands for; nothing for a byte of data. -/
  instruction : Option Instruction
  operands : List Byte := []
  /-- Bytes the entry takes up. -/
  size : Byte := 1
  /-- The base cost outside index mode. -/
  cycles : Nat := 0
  deriving DecidableEq, Repr

namespace Entry

def isData (e : Entry) : Bool := e.instruction.isNone

/-- A byte that starts no complete instruction. -/
def data (address : Word) (value : Byte) : Entry where
  address
  opcode := value
  instruction := none

/-- The instruction at the start of `bytes`, if its opcode has a meaning and all its operand bytes
are there. -/
def ofBytes? (address : Word) : List Byte → Option Entry
  | [] => none
  | opcode :: rest => do
    let i ← Opcode.decode? opcode
    let count := i.mode.operandLength
    if rest.length < count then none
    else some {
      address
      opcode
      instruction := some i
      operands := rest.take count
      size := UInt8.ofNat i.size
      cycles := Timing.cost opcode false }

/-! ### Text -/

/-- Where a branch leads, by the displacement in its last operand byte. -/
def target (e : Entry) : Address :=
  Address.displaced (Address.ofWord e.address + Address.zeroPage e.size)
    (e.operands.getLast?.getD 0)

def byteText (b : Byte) : String := "$" ++ Hex.byte b

def wordText (w : Word) : String := "$" ++ Hex.word w

def targetText (e : Entry) : String := wordText (Address.toWord e.target)

/-- The operand in the notation of a mode; nothing if an operand byte it shows is missing. -/
def operandText? (e : Entry) : Mode → Option String
  | .implied => some ""
  | .accumulator => some "A"
  | .immediate => byte0.map fun b => "#" ++ byteText b
  | .immediateZeroPage => do
    return "#" ++ byteText (← byte0) ++ "," ++ byteText (← byte1)
  | .zeroPage => byte0.map byteText
  | .zeroPageX => byte0.map fun b => byteText b ++ ",X"
  | .zeroPageY => byte0.map fun b => byteText b ++ ",Y"
  | .absolute => word.map wordText
  | .absoluteX => word.map fun w => wordText w ++ ",X"
  | .absoluteY => word.map fun w => wordText w ++ ",Y"
  | .xIndirect => byte0.map fun b => "(" ++ byteText b ++ ",X)"
  | .indirectY => byte0.map fun b => "(" ++ byteText b ++ "),Y"
  | .zeroPageIndirect => byte0.map fun b => "(" ++ byteText b ++ ")"
  | .absoluteIndirect => word.map fun w => "(" ++ wordText w ++ ")"
  | .relative => some e.targetText
  | .specialPage => byte0.map fun b => "\\" ++ wordText (Address.toWord (Address.specialPage b))
  | .accumulatorRelative => some ("A," ++ e.targetText)
  | .zeroPageRelative => byte0.map fun b => byteText b ++ "," ++ e.targetText
where
  byte0 := e.operands[0]?
  byte1 := e.operands[1]?
  word := do return Word.ofBytes (← byte0) (← byte1)

/-- The operand behind the bit index, if there is one. -/
def withBit (bit : Option Byte) (operand : String) : String :=
  match bit with
  | none => operand
  | some b => if operand.isEmpty then toString b.toNat else toString b.toNat ++ "," ++ operand

/-- A line of assembly; nothing if an operand byte it shows is missing. -/
def text? (e : Entry) : Option String :=
  match e.instruction with
  | none => some (".byte " ++ byteText e.opcode)
  | some i => do
    let operand := withBit i.operation.bit? (← e.operandText? i.mode)
    return if operand.isEmpty then i.operation.mnemonic
      else i.operation.mnemonic ++ " " ++ operand

end Entry

end M740
