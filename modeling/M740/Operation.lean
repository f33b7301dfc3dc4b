import M740.Word

/-!
# Operations

Operations are grouped by how they use the operand that the addressing mode finds: they read it,
write it, modify it in place, jump to it, branch on one of its bits, or have none.
-/

namespace M740

/-- The two index registers. -/
inductive Index where
  | x
  | y
  deriving DecidableEq, Repr

/-- The registers a store can write out. -/
inductive Register where
  | a
  | x
  | y
  deriving DecidableEq, Repr

/-- The accumulator class: index mode redirects these to the byte at X. -/
inductive Accumulate where
  | ora
  | and
  | eor
  | adc
  | sbc
  | cmp
  | lda
  deriving DecidableEq, Repr

/-- Operations that read one operand byte. -/
inductive Reading where
  | accumulate (op : Accumulate)
  | load (index : Index)
  | compare (index : Index)
  | bit
  | test
  deriving DecidableEq, Repr

/-- Operations that replace a byte by a function of itself. -/
inductive Modifying where
  | asl
  | lsr
  | rol
  | ror
  | inc
  | dec
  | complement
  /-- Exchanges the nibbles. -/
  | rotateNibbles
  | setBit (bit : Byte)
  | clearBit (bit : Byte)
  deriving DecidableEq, Repr

/-- What a conditional branch waits for. -/
inductive Condition where
  | plus
  | minus
  | overflowClear
  | overflowSet
  | carryClear
  | carrySet
  | notEqual
  | equal
  deriving DecidableEq, Repr

/-- Operations that take the operand's address as a new program counter. -/
inductive Jumping where
  | branch (condition : Condition)
  | always
  | jump
  | call
  deriving DecidableEq, Repr

/-- Flags set or cleared by name. -/
inductive FlagChange where
  | clc
  | sec
  | cli
  | sei
  | cld
  | sed
  | clv
  | clt
  | set
  deriving DecidableEq, Repr

/-- Counting an index register up or down. -/
inductive Count where
  | up (index : Index)
  | down (index : Index)
  deriving DecidableEq, Repr

inductive Transfer where
  | tax
  | tay
  | txa
  | tya
  | tsx
  | txs
  deriving DecidableEq, Repr

inductive StackOp where
  | pha
  | php
  | pla
  | plp
  deriving DecidableEq, Repr

/-- Choices of the clock source; they have no effect on execution. -/
inductive ClockSelect where
  | fast
  | slow
  deriving DecidableEq, Repr

/-- Operations without an operand. -/
inductive Implied where
  | brk
  | rti
  | rts
  | stp
  | nop
  | flag (change : FlagChange)
  | count (step : Count)
  | stack (op : StackOp)
  | transfer (op : Transfer)
  | clock (select : ClockSelect)
  deriving DecidableEq, Repr

inductive Operation where
  | read (op : Reading)
  | store (register : Register)
  /-- Stores the constant among its own operand bytes. -/
  | storeImmediate
  | modify (op : Modifying)
  | jump (op : Jumping)
  /-- Branches when the bit has the value `whenSet`. -/
  | branchOnBit (bit : Byte) (whenSet : Bool)
  | implied (op : Implied)
  deriving DecidableEq, Repr

/-- How an operation uses the place its addressing mode finds. -/
inductive Access where
  | none
  | read
  | write
  | readModifyWrite
  | jump
  deriving DecidableEq, Repr

/-! ### Mnemonics -/

def Accumulate.mnemonic : Accumulate → String
  | .ora => "ORA"
  | .and => "AND"
  | .eor => "EOR"
  | .adc => "ADC"
  | .sbc => "SBC"
  | .cmp => "CMP"
  | .lda => "LDA"

def Reading.mnemonic : Reading → String
  | .accumulate op => op.mnemonic
  | .load .x => "LDX"
  | .load .y => "LDY"
  | .compare .x => "CPX"
  | .compare .y => "CPY"
  | .bit => "BIT"
  | .test => "TST"

def Register.storeMnemonic : Register → String
  | .a => "STA"
  | .x => "STX"
  | .y => "STY"

def Modifying.mnemonic : Modifying → String
  | .asl => "ASL"
  | .lsr => "LSR"
  | .rol => "ROL"
  | .ror => "ROR"
  | .inc => "INC"
  | .dec => "DEC"
  | .complement => "COM"
  | .rotateNibbles => "RRF"
  | .setBit _ => "SEB"
  | .clearBit _ => "CLB"

def Condition.mnemonic : Condition → String
  | .plus => "BPL"
  | .minus => "BMI"
  | .overflowClear => "BVC"
  | .overflowSet => "BVS"
  | .carryClear => "BCC"
  | .carrySet => "BCS"
  | .notEqual => "BNE"
  | .equal => "BEQ"

def Jumping.mnemonic : Jumping → String
  | .branch condition => condition.mnemonic
  | .always => "BRA"
  | .jump => "JMP"
  | .call => "JSR"

def FlagChange.mnemonic : FlagChange → String
  | .clc => "CLC"
  | .sec => "SEC"
  | .cli => "CLI"
  | .sei => "SEI"
  | .cld => "CLD"
  | .sed => "SED"
  | .clv => "CLV"
  | .clt => "CLT"
  | .set => "SET"

def Count.mnemonic : Count → String
  | .up .x => "INX"
  | .up .y => "INY"
  | .down .x => "DEX"
  | .down .y => "DEY"

def Transfer.mnemonic : Transfer → String
  | .tax => "TAX"
  | .tay => "TAY"
  | .txa => "TXA"
  | .tya => "TYA"
  | .tsx => "TSX"
  | .txs => "TXS"

def StackOp.mnemonic : StackOp → String
  | .pha => "PHA"
  | .php => "PHP"
  | .pla => "PLA"
  | .plp => "PLP"

def ClockSelect.mnemonic : ClockSelect → String
  | .fast => "FST"
  | .slow => "SLW"

def Implied.mnemonic : Implied → String
  | .brk => "BRK"
  | .rti => "RTI"
  | .rts => "RTS"
  | .stp => "STP"
  | .nop => "NOP"
  | .flag change => change.mnemonic
  | .count step => step.mnemonic
  | .stack op => op.mnemonic
  | .transfer op => op.mnemonic
  | .clock select => select.mnemonic

namespace Operation

/-- The assembler's name, without any bit index. -/
def mnemonic : Operation → String
  | .read op => op.mnemonic
  | .store register => register.storeMnemonic
  | .storeImmediate => "LDM"
  | .modify op => op.mnemonic
  | .jump op => op.mnemonic
  | .branchOnBit _ true => "BBS"
  | .branchOnBit _ false => "BBC"
  | .implied op => op.mnemonic

/-- What is shown in place of a mnemonic for an encoding without a meaning. -/
def undefinedMnemonic : String := "???"

/-- The bit index that the bit family carries. -/
def bit? : Operation → Option Byte
  | .modify (.setBit b) | .modify (.clearBit b) | .branchOnBit b _ => some b
  | _ => none

def access : Operation → Access
  | .read _ => .read
  | .store _ | .storeImmediate => .write
  | .modify _ => .readModifyWrite
  | .jump _ | .branchOnBit .. => .jump
  | .implied _ => .none

/-- Whether the operation pays more when its branch is taken. -/
def isConditional : Operation → Bool
  | .jump (.branch _) | .branchOnBit .. => true
  | _ => false

/-- Whether index mode redirects the operation from A to the byte at X. -/
def usesIndexMode : Operation → Bool
  | .read (.accumulate _) => true
  | _ => false

/-- Every operation, the bit family with the given index. -/
def all (bit : Byte) : List Operation :=
  List.flatten [
    [Accumulate.ora, .and, .eor, .adc, .sbc, .cmp, .lda].map fun op => .read (.accumulate op),
    [Reading.load .x, .load .y, .compare .x, .compare .y, .bit, .test].map .read,
    [Register.a, .x, .y].map .store,
    [.storeImmediate],
    [Modifying.asl, .lsr, .rol, .ror, .inc, .dec, .complement, .rotateNibbles, .setBit bit,
      .clearBit bit].map .modify,
    [Condition.plus, .minus, .overflowClear, .overflowSet, .carryClear, .carrySet, .notEqual,
      .equal].map fun condition => .jump (.branch condition),
    [Jumping.always, .jump, .call].map .jump,
    [.branchOnBit bit true, .branchOnBit bit false],
    [Implied.brk, .rti, .rts, .stp, .nop].map .implied,
    [FlagChange.clc, .sec, .cli, .sei, .cld, .sed, .clv, .clt, .set].map fun change =>
      .implied (.flag change),
    [Count.up .x, .up .y, .down .x, .down .y].map fun step => .implied (.count step),
    [StackOp.pha, .php, .pla, .plp].map fun op => .implied (.stack op),
    [Transfer.tax, .tay, .txa, .tya, .tsx, .txs].map fun op => .implied (.transfer op),
    [ClockSelect.fast, .slow].map fun select => .implied (.clock select)]

/-- The operation an assembler means by `name`, in any of its addressing modes. -/
def ofMnemonic? (name : String) (bit : Byte) : Option Operation :=
  (all bit).find? fun op => op.mnemonic == name

end Operation

end M740
