import M740.Program

/-!
# Contracts

The processor takes for granted that its dispatchers are only handed operations they have a case
for, that places exist and that numbers fit. Here each such assumption is a check, and where one
fails the violation is reported instead of a result.
-/

namespace M740

/-- Where an operation or a mode is told apart from others. -/
inductive Dispatcher where
  | resolver
  | executor
  | reading
  | accumulating
  | modifying
  | storing
  | jumping
  | implied
  | flagChange
  | bitBranch
  deriving DecidableEq, Repr

/-- An assumption that did not hold. -/
inductive Violation where
  /-- The dispatcher has no case for what it was handed. -/
  | noCase (dispatcher : Dispatcher)
  /-- An operation and a mode that have no cost. -/
  | noCost
  /-- A place that does not exist. -/
  | index
  /-- A shift by the width of the number or more. -/
  | shift
  /-- A result that the type of the number does not hold. -/
  | overflow
  /-- A turn of a run that was not charged. -/
  | free
  deriving DecidableEq, Repr

/-- A result, unless a contract was violated. -/
abbrev Checked := Except Violation

/-- A program that may find a contract violated. -/
abbrev Guarded := ExceptT Violation Program

namespace Checked

/-- A number in an unsigned type of so many values. -/
def unsigned (size n : Nat) : Checked Nat :=
  if n < size then .ok n else .error .overflow

/-- A sum in an unsigned type of so many values. -/
def add (size x y : Nat) : Checked Nat := unsigned size (x + y)

/-- A difference in an unsigned type. -/
def subtract (x y : Nat) : Checked Nat :=
  if y ≤ x then .ok (x - y) else .error .overflow

/-- A number in the signed type of 64 bits. -/
def int64 (n : Int) : Checked Int :=
  if Int64.minValue.toInt ≤ n ∧ n ≤ Int64.maxValue.toInt then .ok n else .error .overflow

def shiftLeft (value amount : Byte) : Checked Byte :=
  if amount < 8 then .ok (value <<< amount) else .error .shift

def shiftRight (value amount : Byte) : Checked Byte :=
  if amount < 8 then .ok (value >>> amount) else .error .shift

/-- The element at a place. -/
def element {α : Type} (l : List α) (place : Nat) : Checked α :=
  match l[place]? with
  | some a => .ok a
  | none => .error .index

/-- The elements from a place to before another. -/
def slice {α : Type} (l : List α) (start stop : Nat) : Checked (List α) :=
  if start ≤ stop ∧ stop ≤ l.length then .ok ((l.take stop).drop start) else .error .index

end Checked

end M740
