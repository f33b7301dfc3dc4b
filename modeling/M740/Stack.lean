import M740.Program

/-!
# The stack

The stack lies on page zero and grows downward. A push stores at S and then lowers it, a pull
raises S and then loads; both wrap within the page.
-/

namespace M740

namespace Processor

def push (p : Processor) (value : Byte) : Program Processor := do
  Program.store (Address.zeroPage p.s) value
  return { p with s := p.s - 1 }

def pull (p : Processor) : Program (Byte × Processor) := do
  let value ← Program.fetch (Address.zeroPage (p.s + 1))
  return (value, { p with s := p.s + 1 })

/-- Pushes the high byte, then the low byte. -/
def pushWord (p : Processor) (w : Word) : Program Processor := do
  let p ← p.push (Word.high w)
  p.push (Word.low w)

/-- Pulls the low byte, then the high byte. -/
def pullWord (p : Processor) : Program (Word × Processor) := do
  let (lo, p) ← p.pull
  let (hi, p) ← p.pull
  return (Word.ofBytes lo hi, p)

/-- Pulls a status byte into the flags. -/
def pullFlags (p : Processor) : Program Processor := do
  let (status, p) ← p.pull
  return { p with flags := Flags.unpack status }

/-- Saves the program counter and the status, with the given marker, and goes to the handler with
interrupts disabled. -/
def enterHandler (p : Processor) (marker : Byte) : Program Processor := do
  let p ← p.pushWord (Address.toWord p.pc)
  let p ← p.push (p.status ||| marker)
  let handler ← Program.fetchWord interruptVector
  return { p with pc := Address.ofWord handler, flags := { p.flags with i := true } }

end Processor

/-- Pushes save a register; pulls restore it, and a pulled A is described by N and Z. -/
def StackOp.perform (op : StackOp) (p : Processor) : Program Processor :=
  match op with
  | .pha => p.push p.a
  | .php => p.push p.status
  | .pla => do
    let (value, p) ← p.pull
    return p.load value .a
  | .plp => p.pullFlags

end M740
