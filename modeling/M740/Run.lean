import M740.Memory.Bus
import M740.Program

/-!
# Running programs

A program runs against a bus. What happens on the way is a sequence of events, handed one by one
to whoever watches: an observer that keeps nothing makes a plain run.
-/

namespace M740

/-- One thing that happens in a run. -/
inductive Event where
  | read (address : Address) (value : Byte)
  | write (address : Address) (value : Byte)
  | note (note : Note)
  deriving DecidableEq, Repr

namespace Event

/-- What is reported about the event. Transactions are reported only at unimplemented registers
of the devices. -/
def note? (σ : Type) [Device σ] : Event → Option Note
  | .read address _ =>
    address.deviceRegister?.bind fun register =>
      if Device.unimplemented σ register then some (.unimplementedRead register) else none
  | .write address value =>
    address.deviceRegister?.bind fun register =>
      if Device.unimplemented σ register then some (.unimplementedWrite register value) else none
  | .note n => some n

end Event

namespace Program

variable {σ α ω : Type}

/-- Runs a program against a bus, showing each event to the observer. -/
def run [Device σ] (observe : ω → Event → ω) : Program α → Bus σ → ω → α × Bus σ × ω
  | .done result, bus, seen => (result, bus, seen)
  | .read address next, bus, seen =>
    let (value, bus) := bus.read address
    (next value).run observe bus (observe seen (.read address value))
  | .write address value next, bus, seen =>
    next.run observe (bus.write address value) (observe seen (.write address value))
  | .poll next, bus, seen => (next (Device.requestsInterrupt bus.devices)).run observe bus seen
  | .note n next, bus, seen => next.run observe bus (observe seen (.note n))

/-- A sequence of two programs runs as the second on what the first left. -/
theorem run_bind {β : Type} [Device σ] (observe : ω → Event → ω) (p : Program α)
    (f : α → Program β) (bus : Bus σ) (seen : ω) :
    (p >>= f).run observe bus seen =
      (f (p.run observe bus seen).1).run observe (p.run observe bus seen).2.1
        (p.run observe bus seen).2.2 := by
  induction p generalizing bus seen with
  | done => rfl
  | read _ _ ih => exact ih _ _ _
  | write _ _ _ ih => exact ih _ _
  | poll _ ih => exact ih _ _ _
  | note _ _ ih => exact ih _ _

end Program

end M740
