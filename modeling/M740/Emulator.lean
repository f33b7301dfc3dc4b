import M740.Machine

/-!
# The emulator

A machine without devices, for hosts that count in floating point: its cycle total is shown as the
nearest number with 53 significant bits.
-/

namespace M740

/-- A machine whose device registers are unconnected. -/
abbrev Emulator := Machine Unconnected

/-- The multiple of `unit` nearest to `n`; of two equally near ones the even multiple. -/
def roundToMultiple (unit n : Nat) : Nat :=
  let quotient := n / unit
  let rest := n % unit
  if 2 * rest < unit ∨ (2 * rest = unit ∧ quotient % 2 = 0) then quotient * unit
  else (quotient + 1) * unit

/-- The nearest number with at most `bits` significant bits. -/
def roundToBits (bits n : Nat) : Nat := roundToMultiple (1 <<< (n.log2 + 1 - bits)) n

namespace Emulator

def fresh : Emulator := Machine.fresh {}

/-- The cycle total as a floating-point host sees it. -/
def shownCycles (e : Emulator) : Nat := roundToBits 53 e.core.clock.cycles.toNat

/-- Takes over a stored snapshot; bytes that are none are refused, with the reason. -/
def loadState (data : List Byte) : ExceptT String (StateM Emulator) Unit := do
  let snapshot ← (Snapshot.decode data).mapError Snapshot.Error.message
  modify fun e => e.restore snapshot

end Emulator

end M740
