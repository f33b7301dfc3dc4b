import M740.Memory.Map

/-!
# Devices

What stands behind the device registers. Reading a register may change the device; asking for the
interrupt line may not.
-/

namespace M740

/-- Devices whose state is a `σ`. -/
class Device (σ : Type) where
  read : σ → DeviceRegister → Byte × σ
  write : σ → DeviceRegister → Byte → σ
  /-- The level of the interrupt line. -/
  requestsInterrupt : σ → Bool := fun _ => false
  /-- Registers that nothing implements: accesses to them are reported. -/
  unimplemented : DeviceRegister → Bool := fun _ => false

/-- No devices at all: every register reads as all ones and keeps nothing. -/
structure Unconnected where
  deriving DecidableEq, Repr

instance : Device Unconnected where
  read unconnected _ := (openBus, unconnected)
  write unconnected _ _ := unconnected
  unimplemented _ := true

end M740
