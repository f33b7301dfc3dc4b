import M740.Hex
import M740.Memory.Map
import M740.Processor

/-!
# Notes

What the machine reports while it works, each at a level of detail. Notes never change what
happens.
-/

namespace M740

/-- Levels of detail, the coarsest first. -/
inductive Level where
  | info
  | debug
  | trace
  deriving DecidableEq, Repr

namespace Level

def name : Level → String
  | .info => "INFO"
  | .debug => "DEBUG"
  | .trace => "TRACE"

def detail : Level → Nat
  | .info => 0
  | .debug => 1
  | .trace => 2

/-- Whether a reader who asks for this level of detail sees notes at `level`. -/
def shows (limit level : Level) : Bool := level.detail ≤ limit.detail

end Level

inductive Note where
  | romTruncated (size installed : Nat)
  | romInstalled (installed : Nat)
  | reset (pc : Address)
  /-- An opcode was fetched by the processor in the given state. -/
  | fetch (processor : Processor) (opcode : Byte)
  /-- A hardware interrupt was entered; its handler starts at `pc`. -/
  | interrupt (pc : Address)
  /-- The processor stopped at the given address. -/
  | stop (address : Word)
  | ignored (select : ClockSelect)
  | unimplementedRead (register : DeviceRegister)
  | unimplementedWrite (register : DeviceRegister) (value : Byte)
  deriving DecidableEq, Repr

namespace Note

def level : Note → Level
  | .romInstalled _ | .reset _ => .info
  | .romTruncated .. | .stop _ | .unimplementedRead _ | .unimplementedWrite .. => .debug
  | .fetch .. | .interrupt _ | .ignored _ => .trace

def address (a : Address) : String := Hex.word (Address.toWord a)

/-- The registers, by name. -/
def registers (p : Processor) : String :=
  s!"A={Hex.byte p.a} X={Hex.byte p.x} Y={Hex.byte p.y} S={Hex.byte p.s} P={Hex.byte p.status}"

def text : Note → String
  | .romTruncated size installed => s!"ROM image truncated from {size} to {installed} bytes"
  | .romInstalled installed => s!"installed {installed}-byte ROM"
  | .reset pc => s!"reset: PC = 0x{address pc}"
  | .fetch p opcode => s!"{address p.pc}  {Hex.byte opcode}  {registers p}"
  | .interrupt pc => s!"interrupt taken, vectoring to 0x{address pc}"
  | .stop a => s!"STP at 0x{Hex.word a}"
  | .ignored select => s!"{select.mnemonic} ignored"
  | .unimplementedRead register =>
    s!"unimplemented {register.bank.text} read at offset {register.offset.val}"
  | .unimplementedWrite register value =>
    s!"unimplemented {register.bank.text} write of 0x{Hex.byte value} at offset {register.offset.val}"

/-- The level and the text. -/
def record (note : Note) : String := note.level.name ++ " " ++ note.text

end Note

end M740
