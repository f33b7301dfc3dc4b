import M740.Flags

/-!
# Addition and subtraction

Sums and differences of two bytes with carry, in binary and in decimal, and comparison. Decimal
arithmetic takes each byte as two decimal digits and corrects the digits one after the other; what
it does to bytes that are not two decimal digits follows from the same corrections.
-/

namespace M740.Alu

/-! ### Binary -/

/-- The sum with carry. V tells that two operands of one sign gave a result of the other. -/
def addBinary (f : Flags) (target value : Byte) : Byte × Flags :=
  let sum := target.toNat + value.toNat + f.c.toNat
  let result := UInt8.ofNat sum
  (result, { f.describing result with
    c := 0xFF < sum
    v := ((target ^^^ result) &&& (value ^^^ result)).negative })

/-- The difference, as the sum with the complement: C clear on entry and on exit is a borrow. -/
def subtractBinary (f : Flags) (target value : Byte) : Byte × Flags :=
  addBinary f target (~~~value)

/-! ### Decimal -/

/-- The digit sum of the low digits. From ten on it is corrected by six and carries. -/
def correctLow (sum : Nat) : Nat :=
  if 0x0A ≤ sum then (sum + 0x06) % 0x10 + 0x10 else sum

/-- The sum with the high digits in place. From ten tens on it is corrected and carries. -/
def correctHigh (sum : Nat) : Nat :=
  if 0xA0 ≤ sum then (sum + 0x60) % 0x100 + 0x100 else sum

/-- The decimal sum with carry. V looks at the high digits, with the carry from the low ones,
before they are corrected. -/
def addDecimal (f : Flags) (target value : Byte) : Byte × Flags :=
  let low := correctLow (target.toNat % 16 + value.toNat % 16 + f.c.toNat)
  let partialSum := low + target.toNat / 16 * 16 + value.toNat / 16 * 16
  let sum := correctHigh partialSum
  let result := UInt8.ofNat sum
  let high := UInt8.ofNat partialSum
  (result, { f.describing result with
    c := 0x100 ≤ sum
    v := ((target ^^^ high) &&& (value ^^^ high)).negative })

/-- The decimal difference with borrow. A low digit below zero is corrected by six and borrows
sixteen. The difference with the high digits in place is corrected below zero, and also when more
than fifteen sixteens are left. V is that of the binary difference. -/
def subtractDecimal (f : Flags) (target value : Byte) : Byte × Flags :=
  let borrow : Int := (!f.c).toNat
  let low : Int := (target.toNat % 16 : Nat) - (value.toNat % 16 : Nat) - borrow
  let lowDigit := (if low < 0 then low - 6 else low) % 16
  let lowBorrow := if low < 0 then 16 else 0
  let difference : Int :=
    lowDigit + (target.toNat / 16 * 16 : Nat) - (value.toNat / 16 * 16 : Nat) - lowBorrow
  let corrected :=
    if difference < 0 ∨ 0xF0 < difference then difference - 0x60 else difference
  let result := UInt8.ofNat (corrected % 0x100).toNat
  let binary := target - value - (!f.c).toUInt8
  (result, { f.describing result with
    c := 0 ≤ corrected
    v := ((binary ^^^ target) &&& (~~~binary ^^^ value)).negative })

/-! ### In the mode that D selects -/

def add (f : Flags) (target value : Byte) : Byte × Flags :=
  if f.d then addDecimal f target value else addBinary f target value

def subtract (f : Flags) (target value : Byte) : Byte × Flags :=
  if f.d then subtractDecimal f target value else subtractBinary f target value

/-- Comparison sets the flags of a difference and keeps V. It ignores D. -/
def compare (f : Flags) (register value : Byte) : Flags :=
  { f.describing (register - value) with c := value ≤ register }

end M740.Alu
