import M740.Checked.Execution
import M740.Machine

/-!
# The checked machine

The calls that drive a machine, on the checked instructions: the budget is kept in 64 bits, memory
is looked up at places that may not exist, and an installed image is copied between slices that
must be of one length.
-/

namespace M740.Checked

/-! ### The core -/

/-- Takes units from the budget and counts them. -/
def charge (c : Clock) (units : Nat) : Checked Clock := do
  return { c with
    budget := ← int64 (c.budget - units)
    cycles := c.cycles + UInt64.ofNat units }

/-- Performs the instruction at the program counter. Its cost is charged first, and the penalty
for a branch when it is taken. -/
def performNext (c : Core) : Guarded Core := do
  let p := c.processor
  let opcode ← Program.fetch p.pc
  Program.report (.fetch p opcode)
  let i ← performer opcode
  let clock ← charge c.clock (← cost i p.flags.t)
  let outcome ← perform i p
  let clock ← if outcome.branched then charge clock Timing.branchPenalty else pure clock
  return { processor := outcome.processor, clock }

/-- Performs one instruction on the side: its cost is what the budget lost, and the budget is put
back. -/
def step (c : Core) : Guarded (Nat × Core) :=
  if c.processor.stopped then return (0, c)
  else do
    let after ← performNext c
    let units ← int64 (c.clock.budget - after.clock.budget)
    return ((units % UInt32.size).toNat, { after with
      clock := { after.clock with budget := c.clock.budget } })

/-- Requests a hardware interrupt; the answer tells whether it was taken. -/
def interrupt (c : Core) : Guarded (Bool × Core) :=
  if c.processor.flags.i || c.processor.stopped then return (false, c)
  else do
    let clock ← charge c.clock Timing.interruptCost
    let processor ← c.processor.takeInterrupt
    return (true, { processor, clock })

/-- One turn of a clocked run. -/
def turn (c : Core) : Guarded Core := do
  if ← Program.interruptLine then
    let (taken, after) ← interrupt c
    if taken then return after else performNext after
  else performNext c

/-- Takes turns while units are left and the processor is not stopped. -/
def spend (c : Core) : Guarded Core :=
  if _ : 0 < c.clock.budget ∧ c.processor.stopped = false then do
    let after ← turn c
    if _ : after.clock.budget < c.clock.budget then spend after else throw .free
  else return c
termination_by c.clock.budget.toNat
decreasing_by omega

/-- Delivers host ticks and spends them. -/
def runFor (c : Core) (ticks : UInt32) : Guarded Core := do
  let total ← add UInt64.size c.clock.remainder ticks.toNat
  let budget ← int64 (c.clock.budget + (total / Timing.ticksPerUnit : Nat))
  let clock := { c.clock with budget, remainder := Clock.leftOver total }
  let c ← spend { c with clock }
  if c.processor.stopped ∧ 0 < c.clock.budget then
    return { c with clock := { c.clock with budget := 0 } }
  else return c

/-- What the core does on a call. -/
def answer (c : Core) : Call → Guarded (Answer × Core)
  | .runFor ticks => return (.nothing, ← runFor c ticks)
  | .step => do
    let (units, c) ← step c
    return (.units units, c)
  | .interrupt => do
    let (taken, c) ← interrupt c
    return (.taken taken, c)
  | call => c.answer call

/-! ### The bus -/

/-- Addresses on the bus. -/
def addressSpace : Nat := 0x2000

section
variable {σ ω : Type}

/-- The register of a bank at an offset. -/
def register (bank : Bank) (offset : Nat) : Checked DeviceRegister :=
  if h : offset < bank.size then .ok ⟨bank, offset, h⟩ else .error .index

/-- What an address leads to. -/
def place (address : Nat) : Checked Place :=
  if address ≤ 0x5F then cellOf .ram address
  else if 0xD0 ≤ address ∧ address ≤ 0xDF then device .r address 0xD0
  else if 0xE0 ≤ address ∧ address ≤ 0xE9 then device .p address 0xE0
  else if 0xF9 ≤ address ∧ address ≤ 0xFF then device .timers address 0xF9
  else if romStart ≤ address then do cellOf .rom (← subtract address romStart)
  else pure .unmapped
where
  cellOf {n : Nat} (place : Fin n → Place) (i : Nat) : Checked Place :=
    if h : i < n then .ok (place ⟨i, h⟩) else .error .index
  device (bank : Bank) (address base : Nat) : Checked Place := do
    return .device (← register bank (← subtract address base))

/-- Installs an image so that it ends at the top of the address space. -/
def install (b : Bus σ) (image : List Byte) : Checked (Bus σ) := do
  let length := min image.length romSize
  let start ← subtract addressSpace length
  let source ← slice image 0 length
  let kept ← slice b.rom.toList 0 (← subtract start romStart)
  let rom := (kept ++ source).toArray
  if h : rom.size = romSize then return { b with rom := ⟨rom, h⟩ } else .error .index

variable [Device σ]

def read (b : Bus σ) (a : Address) : Checked (Byte × Bus σ) := do
  match ← place a.toNat with
  | .ram cell => return (b.ram.get cell, b)
  | .rom cell => return (b.rom.get cell, b)
  | .device register =>
    let (value, devices) := Device.read b.devices register
    return (value, { b with devices })
  | .unmapped => return (openBus, b)

def write (b : Bus σ) (a : Address) (value : Byte) : Checked (Bus σ) := do
  match ← place a.toNat with
  | .ram cell => return { b with ram := b.ram.set cell value cell.isLt }
  | .device register => return { b with devices := Device.write b.devices register value }
  | .rom _ | .unmapped => return b

/-- Runs a program against a bus, showing each event to the observer. -/
def run {α : Type} (observe : ω → Event → ω) : Program α → Bus σ → ω → Checked (α × Bus σ × ω)
  | .done result, bus, seen => pure (result, bus, seen)
  | .read address next, bus, seen => do
    let (value, bus) ← read bus address
    run observe (next value) bus (observe seen (.read address value))
  | .write address value next, bus, seen => do
    let bus ← write bus address value
    run observe next bus (observe seen (.write address value))
  | .poll next, bus, seen => run observe (next (Device.requestsInterrupt bus.devices)) bus seen
  | .note n next, bus, seen => run observe next bus (observe seen (.note n))

/-- What a call puts into the bus before the core acts on it. -/
def prepare (b : Bus σ) : Call → Checked (Bus σ)
  | .setRom image => install b image
  | call => pure (b.prepare call)

/-- Makes one call. -/
def call (observe : ω → Event → ω) (m : Machine σ) (seen : ω) (c : Call) :
    Checked (Answer × Machine σ × ω) := do
  let (result, bus, seen) ← run observe (answer m.core c).run (← prepare m.bus c) seen
  let (answer, core) ← result
  return (answer, { core, bus }, seen)

end

end M740.Checked
