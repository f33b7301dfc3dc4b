import M740.Core
import M740.LittleEndian

/-!
# Snapshots

All that a machine needs to go on where it was, apart from its ROM and its devices, and the form
in which it is stored: fixed fields behind a magic number and a version. A stored snapshot is
read back only if some machine could be in the state it describes.

| Offset | Bytes | Field                                |
|--------|-------|--------------------------------------|
| 0      | 4     | magic number                         |
| 4      | 4     | version                              |
| 8      | 4     | A, X, Y, S                           |
| 12     | 2     | program counter                      |
| 14     | 1     | packed status                        |
| 15     | 1     | stop latch, 0 or 1                   |
| 16     | 8     | budget, in two's complement          |
| 24     | 1     | ticks that do not make a unit yet    |
| 25     | 8     | cycle total                          |
| 33     | 96    | RAM                                  |

Numbers are little-endian.
-/

namespace M740

structure Snapshot where
  a : Byte := 0
  x : Byte := 0
  y : Byte := 0
  s : Byte := 0
  pc : Word := 0
  status : Byte := 0
  stopped : Bool := false
  budget : Int64 := 0
  clockRemainder : Byte := 0
  cycles : UInt64 := 0
  ram : Vector Byte ramSize := Vector.replicate ramSize 0
  deriving DecidableEq

namespace Snapshot

/-- The deepest debt that is stored: the last instruction of a run, and one interrupt after it. -/
def maxOverdraw : Nat := Timing.maxCharge + Timing.interruptCost

/-- The snapshot of a core with the given RAM. -/
def capture (c : Core) (ram : Vector Byte ramSize) : Snapshot where
  a := c.processor.a
  x := c.processor.x
  y := c.processor.y
  s := c.processor.s
  pc := Address.toWord c.processor.pc
  status := c.processor.status
  stopped := c.processor.stopped
  budget := Int64.ofInt c.clock.budget
  clockRemainder := UInt8.ofNat c.clock.remainder
  cycles := c.clock.cycles
  ram

/-- The nearest debt that can be stored. -/
def clampBudget (budget : Int) : Int := max (-maxOverdraw) (min budget 0)

/-- The core that a snapshot describes. Values that no core holds are brought into range. -/
def core (s : Snapshot) : Core where
  processor := {
    a := s.a
    x := s.x
    y := s.y
    s := s.s
    pc := Address.ofWord s.pc
    flags := Flags.unpack s.status
    stopped := s.stopped }
  clock := {
    budget := clampBudget s.budget.toInt
    remainder := Clock.leftOver s.clockRemainder.toNat
    cycles := s.cycles }

/-! ### The stored form -/

/-- The first bytes of a stored snapshot. -/
def magic : List Byte := [0x4D, 0x37, 0x34, 0x30]

/-- The version of the stored form. -/
def version : UInt32 := 1

/-- Bytes before the RAM. -/
def headerSize : Nat := 33

/-- Bytes of a stored snapshot. -/
def storedSize : Nat := headerSize + ramSize

def encode (s : Snapshot) : List Byte :=
  magic ++ LittleEndian.bytes 4 version.toNat ++
  [s.a, s.x, s.y, s.s] ++
  LittleEndian.bytes 2 s.pc.toNat ++
  [s.status, s.stopped.toUInt8] ++
  LittleEndian.bytes 8 s.budget.toUInt64.toNat ++
  [s.clockRemainder] ++
  LittleEndian.bytes 8 s.cycles.toNat ++
  s.ram.toList

/-- The fields whose value can be impossible. -/
inductive Field where
  | pc
  | status
  | stopped
  | clockRemainder
  | budget
  deriving DecidableEq, Repr

def Field.name : Field → String
  | .pc => "pc"
  | .status => "status"
  | .stopped => "stopped"
  | .clockRemainder => "clock_remainder"
  | .budget => "budget"

/-- Why bytes are not a stored snapshot. -/
inductive Error where
  | badMagic
  | wrongSize (found : Nat)
  | unsupportedVersion (version : UInt32)
  | impossible (field : Field)
  deriving DecidableEq, Repr

def Error.message : Error → String
  | .badMagic => "invalid snapshot magic number"
  | .wrongSize found => s!"snapshot is {found} bytes, expected {storedSize}"
  | .unsupportedVersion version => s!"unsupported snapshot version {version}"
  | .impossible field => s!"snapshot field `{field.name}` holds an impossible value"

/-- The number stored in `width` bytes at an offset. -/
def numberAt (data : List Byte) (offset width : Nat) : Nat :=
  LittleEndian.value ((data.drop offset).take width)

def byteAt (data : List Byte) (offset : Nat) : Byte := UInt8.ofNat (numberAt data offset 1)

/-- The stop latch as it is stored. -/
def latchAt (data : List Byte) : Byte := byteAt data 15

/-- The fields of a stored snapshot, whatever values they hold. -/
def fields (data : List Byte) (size : data.length = storedSize) : Snapshot where
  a := byteAt data 8
  x := byteAt data 9
  y := byteAt data 10
  s := byteAt data 11
  pc := UInt16.ofNat (numberAt data 12 2)
  status := byteAt data 14
  stopped := latchAt data != 0
  budget := (UInt64.ofNat (numberAt data 16 8)).toInt64
  clockRemainder := byteAt data 24
  cycles := UInt64.ofNat (numberAt data 25 8)
  ram := ⟨(data.drop headerSize).toArray, by
    simp only [List.size_toArray, List.length_drop, size, storedSize]
    omega⟩

/-- The first field that holds a value no machine has; `latch` is the stored stop latch. -/
def fault? (s : Snapshot) (latch : Byte) : Option Field :=
  if 0x1FFF < s.pc then some .pc
  else if s.status &&& breakMarker ≠ 0 then some .status
  else if 1 < latch then some .stopped
  else if Timing.ticksPerUnit ≤ s.clockRemainder.toNat then some .clockRemainder
  else if s.budget.toInt < -maxOverdraw ∨ 0 < s.budget.toInt then some .budget
  else none

/-- Reads a stored snapshot; of several faults the first one is named. -/
def decode (data : List Byte) : Except Error Snapshot :=
  if magic.length ≤ data.length ∧ data.take magic.length ≠ magic then .error .badMagic
  else if size : data.length = storedSize then
    let found := UInt32.ofNat (numberAt data 4 4)
    if found ≠ version then .error (.unsupportedVersion found)
    else
      let s := fields data size
      match s.fault? (latchAt data) with
      | some field => .error (.impossible field)
      | none => .ok s
  else .error (.wrongSize data.length)

end Snapshot

end M740
