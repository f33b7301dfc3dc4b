import M740.Alu

/-!
# The processor

The state that instructions work on: the registers, the flags and the stop latch. Time and memory
are kept elsewhere.
-/

namespace M740

structure Processor where
  a : Byte := 0
  x : Byte := 0
  y : Byte := 0
  /-- The page-zero cell the next push goes to. -/
  s : Byte := 0x5F
  pc : Address := 0
  flags : Flags := { i := true }
  /-- Set by the stop instruction; nothing runs until a reset. -/
  stopped : Bool := false
  deriving DecidableEq, Repr

namespace Processor

def status (p : Processor) : Byte := p.flags.pack

def index (p : Processor) : Index → Byte
  | .x => p.x
  | .y => p.y

def register (p : Processor) : Register → Byte
  | .a => p.a
  | .x => p.x
  | .y => p.y

/-- Moves the program counter past an instruction of `size` bytes. -/
def advance (p : Processor) (size : Nat) : Processor :=
  { p with pc := p.pc + BitVec.ofNat 13 size }

/-- The byte as the new value of a register, described by N and Z. -/
def load (p : Processor) (value : Byte) : Register → Processor
  | .a => { p with a := value, flags := p.flags.describing value }
  | .x => { p with x := value, flags := p.flags.describing value }
  | .y => { p with y := value, flags := p.flags.describing value }

/-- Whether a request for a hardware interrupt is granted. -/
def acceptsInterrupt (p : Processor) : Bool := !p.flags.i && !p.stopped

/-- The address before the program counter, counted in sixteen bits: before address zero
comes `0xFFFF`. -/
def previous (p : Processor) : Word := Address.toWord p.pc - 1

end Processor

/-- The register an index register is. -/
def Index.register : Index → Register
  | .x => .x
  | .y => .y

/-- Counting sets N and Z. -/
def Count.apply (step : Count) (p : Processor) : Processor :=
  match step with
  | .up i => p.load (p.index i + 1) i.register
  | .down i => p.load (p.index i - 1) i.register

/-- Transfers set N and Z, except the one to S. -/
def Transfer.apply (op : Transfer) (p : Processor) : Processor :=
  match op with
  | .tax => p.load p.a .x
  | .tay => p.load p.a .y
  | .txa => p.load p.x .a
  | .tya => p.load p.y .a
  | .tsx => p.load p.s .x
  | .txs => { p with s := p.x }

end M740
