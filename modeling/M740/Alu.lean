import M740.Alu.Arithmetic
import M740.Operation

/-!
# The arithmetic and logic unit

What each operation makes of its bytes and the flags. Nothing here knows where the bytes come from
or where the result goes: the same addition serves the accumulator and, in index mode, memory.
-/

namespace M740

namespace Alu

/-- A result that sets N and Z and nothing else. -/
def described (f : Flags) (result : Byte) : Byte × Flags := (result, f.describing result)

/-- A result that sets N and Z, with the bit that was moved out in C. -/
def shifted (f : Flags) (result : Byte) (out : Bool) : Byte × Flags :=
  (result, { f.describing result with c := out })

/-- The byte whose only set bit has the given index. -/
def bitMask (bit : Byte) : Byte := 1 <<< bit

/-- Whether the bit of `value` with the given index is set. -/
def testBit (value bit : Byte) : Bool := value &&& bitMask bit != 0

/-- The test of A against a byte: Z from both, N and V from the byte alone. -/
def bitTest (f : Flags) (a value : Byte) : Flags :=
  { f with
    z := a &&& value == 0
    n := value.negative
    v := value &&& 0x40 != 0 }

end Alu

/-- Whether the operation looks at the byte it replaces. -/
def Accumulate.readsTarget : Accumulate → Bool
  | .lda => false
  | _ => true

/-- The new target, unless the operation only sets flags, and the flags. -/
def Accumulate.apply (op : Accumulate) (f : Flags) (target value : Byte) : Option Byte × Flags :=
  match op with
  | .ora => (Alu.described f (target ||| value)).map some id
  | .and => (Alu.described f (target &&& value)).map some id
  | .eor => (Alu.described f (target ^^^ value)).map some id
  | .adc => (Alu.add f target value).map some id
  | .sbc => (Alu.subtract f target value).map some id
  | .lda => (Alu.described f value).map some id
  | .cmp => (none, Alu.compare f target value)

/-- The byte that replaces `value`, and the flags. -/
def Modifying.apply (op : Modifying) (f : Flags) (value : Byte) : Byte × Flags :=
  match op with
  | .asl => Alu.shifted f (value <<< 1) value.negative
  | .lsr => Alu.shifted f (value >>> 1) (value &&& 1 != 0)
  | .rol => Alu.shifted f (value <<< 1 ||| f.c.toUInt8) value.negative
  | .ror => Alu.shifted f (value >>> 1 ||| f.c.toUInt8 <<< 7) (value &&& 1 != 0)
  | .inc => Alu.described f (value + 1)
  | .dec => Alu.described f (value - 1)
  | .complement => Alu.described f (~~~value)
  | .rotateNibbles => (value >>> 4 ||| value <<< 4, f)
  | .setBit bit => (value ||| Alu.bitMask bit, f)
  | .clearBit bit => (value &&& ~~~Alu.bitMask bit, f)

/-- Whether a branch with this condition is taken. -/
def Condition.holds (condition : Condition) (f : Flags) : Bool :=
  match condition with
  | .plus => !f.n
  | .minus => f.n
  | .overflowClear => !f.v
  | .overflowSet => f.v
  | .carryClear => !f.c
  | .carrySet => f.c
  | .notEqual => !f.z
  | .equal => f.z

def FlagChange.apply (change : FlagChange) (f : Flags) : Flags :=
  match change with
  | .clc => { f with c := false }
  | .sec => { f with c := true }
  | .cli => { f with i := false }
  | .sei => { f with i := true }
  | .cld => { f with d := false }
  | .sed => { f with d := true }
  | .clv => { f with v := false }
  | .clt => { f with t := false }
  | .set => { f with t := true }

end M740
