import M740.Alu
import M740.Checked.Contract

/-!
# Checked arithmetic and logic

What the operations make of their bytes, with the sums in sixteen bits and every shift checked.
Differences of bytes wrap by design, so there is nothing to check in them.
-/

namespace M740.Checked

/-- Binary addition. -/
def addBinary (f : Flags) (target value : Byte) : Checked (Byte × Flags) := do
  let operands ← add UInt16.size target.toNat value.toNat
  let sum ← add UInt16.size operands f.c.toNat
  let result := UInt8.ofNat sum
  return (result, { f.describing result with
    c := 0xFF < sum
    v := ((target ^^^ result) &&& (value ^^^ result)).negative })

/-- Corrects the digit sum of the low digits. -/
def correctLow (sum : Nat) : Checked Nat :=
  if 0x0A ≤ sum then do add UInt16.size ((← add UInt16.size sum 0x06) % 0x10) 0x10 else pure sum

/-- Corrects the sum with the high digits in place. -/
def correctHigh (sum : Nat) : Checked Nat :=
  if 0xA0 ≤ sum then do add UInt16.size ((← add UInt16.size sum 0x60) % 0x100) 0x100 else pure sum

/-- Decimal addition, digit by digit. V is found in a sum of its own, of digits that are not
corrected. -/
def addDecimal (f : Flags) (target value : Byte) : Checked (Byte × Flags) := do
  let ones ← add UInt16.size (target.toNat % 16) (value.toNat % 16)
  let low ← add UInt16.size f.c.toNat ones
  let partialLow ← add UInt16.size 0 (low % 16)
  let corrected ← correctLow low
  let tens ← add UInt16.size (target.toNat / 16 * 16) (value.toNat / 16 * 16)
  let high ← add UInt16.size corrected tens
  let partials ← add UInt16.size partialLow (high / 16 % 16 * 16)
  let sum ← correctHigh high
  let result := UInt8.ofNat sum
  return (result, { f.describing result with
    c := sum / 0x100 % 2 = 1
    v := ((target ^^^ UInt8.ofNat partials) &&& (value ^^^ UInt8.ofNat partials)).negative })

/-- Addition in the mode that D selects. -/
def addInMode (f : Flags) (target value : Byte) : Checked (Byte × Flags) :=
  if f.d then addDecimal f target value else addBinary f target value

/-- Subtraction in the mode that D selects. In binary it is an addition. -/
def subtractInMode (f : Flags) (target value : Byte) : Checked (Byte × Flags) :=
  if f.d then pure (Alu.subtractDecimal f target value) else addBinary f target (~~~value)

/-- The new target, unless the operation only sets flags, and the flags. -/
def accumulateInto (o : Operation) (f : Flags) (target value : Byte) :
    Checked (Option Byte × Flags) :=
  match o with
  | .read (.accumulate .ora) => pure ((Alu.described f (target ||| value)).map some id)
  | .read (.accumulate .and) => pure ((Alu.described f (target &&& value)).map some id)
  | .read (.accumulate .eor) => pure ((Alu.described f (target ^^^ value)).map some id)
  | .read (.accumulate .adc) => do return (← addInMode f target value).map some id
  | .read (.accumulate .sbc) => do return (← subtractInMode f target value).map some id
  | .read (.accumulate .lda) => pure ((Alu.described f value).map some id)
  | .read (.accumulate .cmp) => pure (none, Alu.compare f target value)
  | _ => .error (.noCase .accumulating)

/-- The byte that replaces another, and the flags. -/
def modify (o : Operation) (f : Flags) (value : Byte) : Checked (Byte × Flags) :=
  match o with
  | .modify .asl => do return Alu.shifted f (← shiftLeft value 1) value.negative
  | .modify .lsr => do return Alu.shifted f (← shiftRight value 1) (value &&& 1 != 0)
  | .modify .rol => do return Alu.shifted f ((← shiftLeft value 1) ||| f.c.toUInt8) value.negative
  | .modify .ror => do
    let carry ← shiftLeft f.c.toUInt8 7
    return Alu.shifted f ((← shiftRight value 1) ||| carry) (value &&& 1 != 0)
  | .modify .inc => pure (Alu.described f (value + 1))
  | .modify .dec => pure (Alu.described f (value - 1))
  | .modify .complement => pure (Alu.described f (~~~value))
  | .modify .rotateNibbles => pure (value >>> 4 ||| value <<< 4, f)
  | .modify (.setBit bit) => do return (value ||| (← shiftLeft 1 bit), f)
  | .modify (.clearBit bit) => do return (value &&& ~~~(← shiftLeft 1 bit), f)
  | _ => .error (.noCase .modifying)

/-- Whether a bit of a byte is set. -/
def testBit (value bit : Byte) : Checked Bool := do
  return (← shiftRight value bit) &&& 1 != 0

/-- The flags after a change by name. -/
def changeFlag (o : Operation) (f : Flags) : Checked Flags :=
  match o with
  | .implied (.flag .clc) => pure { f with c := false }
  | .implied (.flag .sec) => pure { f with c := true }
  | .implied (.flag .cli) => pure { f with i := false }
  | .implied (.flag .sei) => pure { f with i := true }
  | .implied (.flag .cld) => pure { f with d := false }
  | .implied (.flag .sed) => pure { f with d := true }
  | .implied (.flag .clv) => pure { f with v := false }
  | .implied (.flag .clt) => pure { f with t := false }
  | .implied (.flag .set) => pure { f with t := true }
  | _ => .error (.noCase .flagChange)

end M740.Checked
