import M740.Memory.Device

/-!
# The bus

RAM, ROM and the devices behind the memory map. Every access succeeds: what nothing answers reads
as all ones, and what nothing keeps is dropped.
-/

namespace M740

structure Bus (σ : Type) where
  ram : Vector Byte ramSize := Vector.replicate ramSize 0
  rom : Vector Byte romSize := Vector.replicate romSize 0
  devices : σ

/-- Bytes of an image that fit into the ROM. -/
def installedSize (image : List Byte) : Nat := min image.length romSize

namespace Bus

variable {σ : Type}

def read [Device σ] (b : Bus σ) (a : Address) : Byte × Bus σ :=
  match a.place with
  | .ram cell => (b.ram[cell], b)
  | .rom cell => (b.rom[cell], b)
  | .device register =>
    let (value, devices) := Device.read b.devices register
    (value, { b with devices })
  | .unmapped => (openBus, b)

def write [Device σ] (b : Bus σ) (a : Address) (value : Byte) : Bus σ :=
  match a.place with
  | .ram cell => { b with ram := b.ram.set cell value }
  | .device register => { b with devices := Device.write b.devices register value }
  | .rom _ | .unmapped => b

/-- Looks at an address without disturbing any device; device registers show as open. -/
def peek (b : Bus σ) (a : Address) : Byte :=
  match a.place with
  | .ram cell => b.ram[cell]
  | .rom cell => b.rom[cell]
  | .device _ | .unmapped => openBus

/-- Installs an image so that it ends at the top of the ROM. Of a longer one the first bytes are
taken; below a shorter one the old contents stay. -/
def install (b : Bus σ) (image : List Byte) : Bus σ :=
  let size := installedSize image
  let rom := b.rom.toList.take (romSize - size) ++ image.take size
  { b with rom := ⟨rom.toArray, by
      simp only [rom, size, installedSize, List.size_toArray, List.length_append, List.length_take,
        Vector.length_toList]
      omega⟩ }

end Bus

end M740
