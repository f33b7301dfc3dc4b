import M740.Word

/-!
# The memory map

| Addresses     | Contents                                  |
|---------------|-------------------------------------------|
| `0000`–`005F` | internal RAM                              |
| `00D0`–`00DF` | bank R, sixteen four-bit registers        |
| `00E0`–`00E9` | banks P0–P3 and their direction registers |
| `00F9`–`00FF` | timers                                    |
| `1000`–`1FFF` | ROM                                       |

At every other address there is nothing.
-/

namespace M740

/-- Bytes of internal RAM. -/
def ramSize : Nat := 0x60

/-- Bytes of ROM. -/
def romSize : Nat := 0x1000

/-- Where the ROM begins. -/
def romStart : Nat := 0x1000

/-- What is read where nothing answers. -/
def openBus : Byte := 0xFF

/-- Where the address of the first instruction after a reset is kept. -/
def resetVector : Address := 0x1FFE

/-- Where the address of the interrupt handler is kept, for hardware and software breaks. -/
def interruptVector : Address := 0x1FF4

/-- The banks of device registers. -/
inductive Bank where
  | r
  | p
  | timers
  deriving DecidableEq, Repr

namespace Bank

def all : List Bank := [.r, .p, .timers]

/-- The address of the bank's first register. -/
def base : Bank → Nat
  | .r => 0xD0
  | .p => 0xE0
  | .timers => 0xF9

/-- Registers in the bank. -/
def size : Bank → Nat
  | .r => 16
  | .p => 10
  | .timers => 7

def text : Bank → String
  | .r => "port R"
  | .p => "ports P0-P3"
  | .timers => "timers"

end Bank

/-- A device register. -/
structure DeviceRegister where
  bank : Bank
  offset : Fin bank.size
  deriving DecidableEq, Repr

/-- What an address leads to. -/
inductive Place where
  | ram (cell : Fin ramSize)
  | rom (cell : Fin romSize)
  | device (register : DeviceRegister)
  | unmapped
  deriving DecidableEq, Repr

/-- The register of `bank` at an address, if it lies in the bank. -/
def Bank.register? (bank : Bank) (address : Nat) : Option DeviceRegister :=
  if h : bank.base ≤ address ∧ address < bank.base + bank.size then
    some ⟨bank, address - bank.base, by omega⟩
  else none

namespace Address

def deviceRegister? (a : Address) : Option DeviceRegister :=
  Bank.all.findSome? fun bank => bank.register? a.toNat

def place (a : Address) : Place :=
  if h : a.toNat < ramSize then .ram ⟨a.toNat, h⟩
  else if h : romStart ≤ a.toNat then
    .rom ⟨a.toNat - romStart, by
      have := a.isLt
      simp only [romStart, romSize] at *
      omega⟩
  else
    match deviceRegister? a with
    | some register => .device register
    | none => .unmapped

end Address

end M740
