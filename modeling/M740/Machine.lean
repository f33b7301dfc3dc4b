import M740.Run
import M740.Snapshot

/-!
# The machine

A core on a bus, and the calls a host can make on it. A call that touches the bus is a program of
the core, run against the machine's bus under the eyes of an observer.
-/

namespace M740

/-- A value that a host puts into the processor. -/
inductive Setting where
  | register (register : Register) (value : Byte)
  | stackPointer (value : Byte)
  | pc (value : Word)
  /-- The packed flags; bit 4 is ignored. -/
  | status (value : Byte)
  | flag (flag : Flag) (value : Bool)
  deriving DecidableEq, Repr

def Setting.apply (setting : Setting) (p : Processor) : Processor :=
  match setting with
  | .register .a v => { p with a := v }
  | .register .x v => { p with x := v }
  | .register .y v => { p with y := v }
  | .stackPointer v => { p with s := v }
  | .pc v => { p with pc := Address.ofWord v }
  | .status v => { p with flags := Flags.unpack v }
  | .flag f v => { p with flags := p.flags.set v f }

/-- A call of the host. -/
inductive Call where
  /-- Installs a ROM image and resets. -/
  | setRom (image : List Byte)
  | reset
  | runFor (ticks : UInt32)
  | step
  | interrupt
  | read (address : Word)
  | write (address : Word) (value : Byte)
  | set (setting : Setting)
  | restore (snapshot : Snapshot)
  deriving DecidableEq

/-- What the host gets back. -/
inductive Answer where
  | nothing
  | units (units : Nat)
  | taken (taken : Bool)
  | byte (value : Byte)
  deriving DecidableEq, Repr

namespace Core

/-- Reports a ROM image of which `installed` of `size` bytes fitted, and resets. -/
def startRom (c : Core) (size installed : Nat) : Program Core := do
  if installed < size then
    Program.report (.romTruncated size installed)
  Program.report (.romInstalled installed)
  c.reset

/-- What the core does on a call, once the bus holds the ROM or RAM that came with it. -/
def answer (c : Core) : Call → Program (Answer × Core)
  | .setRom image => return (.nothing, ← c.startRom image.length (installedSize image))
  | .reset => return (.nothing, ← c.reset)
  | .runFor ticks => return (.nothing, ← c.runFor ticks)
  | .step => do
    let (units, c) ← c.step
    return (.units units, c)
  | .interrupt => do
    let (taken, c) ← c.interrupt
    return (.taken taken, c)
  | .read address => return (.byte (← Program.fetch (Address.ofWord address)), c)
  | .write address value => do
    Program.store (Address.ofWord address) value
    return (.nothing, c)
  | .set setting => return (.nothing, { c with processor := setting.apply c.processor })
  | .restore snapshot => return (.nothing, snapshot.core)

end Core

/-- What a call puts into the bus before the core acts on it. -/
def Bus.prepare {σ : Type} (b : Bus σ) : Call → Bus σ
  | .setRom image => b.install image
  | .restore snapshot => { b with ram := snapshot.ram }
  | _ => b

structure Machine (σ : Type) where
  core : Core := {}
  bus : Bus σ

namespace Machine

variable {σ ω : Type}

/-- A machine that was just switched on: no ROM, no reset yet. -/
def fresh (devices : σ) : Machine σ := { bus := { devices } }

/-- Makes one call. -/
def call [Device σ] (observe : ω → Event → ω) (m : Machine σ) (seen : ω) (c : Call) :
    Answer × Machine σ × ω :=
  let ((answer, core), bus, seen) := (m.core.answer c).run observe (m.bus.prepare c) seen
  (answer, { core, bus }, seen)

/-- Makes calls one after the other. -/
def calls [Device σ] (observe : ω → Event → ω) (m : Machine σ) (seen : ω) :
    List Call → List Answer × Machine σ × ω
  | [] => ([], m, seen)
  | c :: rest =>
    let (answer, m, seen) := m.call observe seen c
    let (answers, m, seen) := calls observe m seen rest
    (answer :: answers, m, seen)

def peek (m : Machine σ) (address : Word) : Byte := m.bus.peek (Address.ofWord address)

def snapshot (m : Machine σ) : Snapshot := Snapshot.capture m.core m.bus.ram

def restore (m : Machine σ) (s : Snapshot) : Machine σ :=
  { core := s.core, bus := { m.bus with ram := s.ram } }

theorem call_restore [Device σ] (observe : ω → Event → ω) (m : Machine σ) (seen : ω)
    (s : Snapshot) : m.call observe seen (.restore s) = (.nothing, m.restore s, seen) := rfl

/-- Takes over a stored snapshot, if it is one. -/
def load (m : Machine σ) (data : List Byte) : Except Snapshot.Error (Machine σ) :=
  (Snapshot.decode data).map m.restore

end Machine

/-- The records that a reader who asks for a level of detail sees of the events. -/
def Event.records (σ : Type) [Device σ] (limit : Level) (events : List Event) : List String :=
  ((events.filterMap (note? σ)).filter fun n => limit.shows n.level).map Note.record

end M740
