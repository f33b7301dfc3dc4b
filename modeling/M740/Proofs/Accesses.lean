import M740.Proofs.Branching
import M740.Proofs.Signs
import M740.Proofs.Transcript

/-!
# Bus accesses

Reading a device register can change the device, so it matters what an instruction reads and writes,
in which order and how often. `Instruction.accesses` lists this for every operation and mode, as a
function of the processor and of the bytes that the reads return: the opcode, the operand and any
pointer, the effective address, the byte at X in index mode, the stack. Addresses are numbers here,
and every wrap is written out. A step makes the accesses that are listed and no others
(`Machine.step_accesses`).
-/

namespace M740

open Program

/-- An access to the bus. -/
inductive BusAccess where
  | read (address : Nat)
  | write (address : Nat)
  deriving DecidableEq, Repr

namespace Event

def access? : Event → Option BusAccess
  | .read address _ => some (.read address.toNat)
  | .write address _ => some (.write address.toNat)
  | .note _ => none

def loaded? : Event → Option Byte
  | .read _ value => some value
  | .write .. | .note _ => none

/-- The accesses to the bus, in order. -/
def accesses (events : List Event) : List BusAccess := events.filterMap access?

/-- The bytes that were read, in order. -/
def loads (events : List Event) : List Byte := events.filterMap loaded?

variable {events events' : List Event} {address : Address} {value : Byte} {n : Note}

@[simp]
theorem accesses_nil : accesses [] = [] := rfl

@[simp]
theorem accesses_read :
    accesses (.read address value :: events) = .read address.toNat :: accesses events := rfl

@[simp]
theorem accesses_write :
    accesses (.write address value :: events) = .write address.toNat :: accesses events := rfl

@[simp]
theorem accesses_note : accesses (.note n :: events) = accesses events := rfl

@[simp]
theorem accesses_append : accesses (events ++ events') = accesses events ++ accesses events' :=
  List.filterMap_append

@[simp]
theorem loads_nil : loads [] = [] := rfl

@[simp]
theorem loads_read : loads (.read address value :: events) = value :: loads events := rfl

@[simp]
theorem loads_write : loads (.write address value :: events) = loads events := rfl

@[simp]
theorem loads_note : loads (.note n :: events) = loads events := rfl

@[simp]
theorem loads_append : loads (events ++ events') = loads events ++ loads events' :=
  List.filterMap_append

end Event

/-- The bytes as numbers, by their position. -/
def numbers (bytes : List Byte) (k : Nat) : Nat := (bytes.getD k 0).toNat

@[simp]
theorem numbers_cons_zero (b : Byte) (bytes : List Byte) : numbers (b :: bytes) 0 = b.toNat := rfl

@[simp]
theorem numbers_cons_succ (b : Byte) (bytes : List Byte) (k : Nat) :
    numbers (b :: bytes) (k + 1) = numbers bytes k := rfl

/-! ### What an instruction accesses

In these tables `b k` is the byte that the read number `k` of the instruction returns; the opcode
is number 0. -/

namespace Mode

variable (m : Mode) (p : Processor) (b : Nat → Nat)

/-- What is read to find the operand: the bytes behind the opcode, and those of a pointer. Between
the two bytes of a branch on a bit in page zero comes the byte that is tested. -/
def lookups : List Nat :=
  let operand k := (p.pc.toNat + k) % 0x2000
  let word := b 1 + 256 * b 2
  match m with
  | .implied | .accumulator => []
  | .immediate | .zeroPage | .zeroPageX | .zeroPageY | .relative | .specialPage
  | .accumulatorRelative => [operand 1]
  | .immediateZeroPage | .absolute | .absoluteX | .absoluteY => [operand 1, operand 2]
  | .zeroPageRelative => [operand 1, b 1, operand 2]
  | .xIndirect => [operand 1, (b 1 + p.x.toNat) % 256, (b 1 + p.x.toNat + 1) % 256]
  | .indirectY | .zeroPageIndirect => [operand 1, b 1, (b 1 + 1) % 256]
  | .absoluteIndirect => [operand 1, operand 2, word % 0x2000, (word + 1) % 0x2000]

/-- The address that a displacement leads to. A displacement from `0x80` on is 256 less. -/
def displaced (next displacement : Nat) : Nat :=
  (next + displacement + if displacement < 0x80 then 0 else 0x2000 - 256) % 0x2000

/-- The address of the operand, or the target of a jump. -/
def effectiveAddress? : Option Nat :=
  let word := b 1 + 256 * b 2
  let pointer := b 2 + 256 * b 3
  match m with
  | .implied | .accumulator | .immediate => none
  | .immediateZeroPage => some (b 2)
  | .zeroPage => some (b 1)
  | .zeroPageX => some ((b 1 + p.x.toNat) % 256)
  | .zeroPageY => some ((b 1 + p.y.toNat) % 256)
  | .absolute => some (word % 0x2000)
  | .absoluteX => some ((word + p.x.toNat) % 0x2000)
  | .absoluteY => some ((word + p.y.toNat) % 0x2000)
  | .xIndirect | .zeroPageIndirect => some (pointer % 0x2000)
  | .indirectY => some ((pointer + p.y.toNat) % 0x2000)
  | .absoluteIndirect => some ((b 3 + 256 * b 4) % 0x2000)
  | .specialPage => some (0x1F00 + b 1)
  | .relative | .accumulatorRelative => some (displaced (p.pc.toNat + 2) (b 1))
  | .zeroPageRelative => some (displaced (p.pc.toNat + 3) (b 3))

end Mode

/-- The accesses at the effective address. -/
def Access.accesses (a : Access) (address : Nat) : List BusAccess :=
  match a with
  | .none | .jump => []
  | .read => [.read address]
  | .write => [.write address]
  | .readModifyWrite => [.read address, .write address]

/-- The accesses to the byte at X: LDA does not look at it, and CMP does not change it. -/
def Accumulate.targetAccesses (op : Accumulate) (x : Nat) : List BusAccess :=
  (if op = .lda then [] else [.read x]) ++ (if op = .cmp then [] else [.write x])

/-- The cell of the stack `k` above S. The stack wraps within page zero. -/
def stackCell (s : Byte) (k : Int) : Nat := ((s.toNat + k) % 256).toNat

/-- The accesses of an interrupt entry: PC and status are saved, then the vector is read. -/
def Processor.entryAccesses (p : Processor) : List BusAccess :=
  [.write (stackCell p.s 0), .write (stackCell p.s (-1)), .write (stackCell p.s (-2)),
    .read 0x1FF4, .read 0x1FF5]

namespace Operation

variable (o : Operation) (p : Processor)

def indexModeAccesses : List BusAccess :=
  match o with
  | .read (.accumulate op) => if p.flags.t then op.targetAccesses p.x.toNat else []
  | _ => []

def stackAccesses : List BusAccess :=
  match o with
  | .implied (.stack .pha) | .implied (.stack .php) => [.write (stackCell p.s 0)]
  | .implied (.stack .pla) | .implied (.stack .plp) => [.read (stackCell p.s 1)]
  | .jump .call => [.write (stackCell p.s 0), .write (stackCell p.s (-1))]
  | .implied .rts => [.read (stackCell p.s 1), .read (stackCell p.s 2)]
  | .implied .rti => [.read (stackCell p.s 1), .read (stackCell p.s 2), .read (stackCell p.s 3)]
  | .implied .brk => p.entryAccesses
  | _ => []

end Operation

namespace Instruction

variable (i : Instruction) (p : Processor) (b : Nat → Nat)

/-- All accesses of the instruction at the program counter. -/
def accesses : List BusAccess :=
  .read p.pc.toNat ::
    ((i.mode.lookups p b).map .read ++
      (i.mode.effectiveAddress? p b).elim [] i.operation.access.accesses ++
      i.operation.indexModeAccesses p ++ i.operation.stackAccesses p)

/-- Where a jump or branch leads. -/
def destinations : List Nat :=
  (i.mode.effectiveAddress? p b).toList ++
    if i.operation.isConditional then [(p.pc.toNat + i.size) % 0x2000] else []

end Instruction

/-! ### Addresses as numbers -/

namespace Address

@[simp]
theorem toNat_zeroPage (b : Byte) : (zeroPage b).toNat = b.toNat := by
  have := b.toNat_lt
  simp only [zeroPage, BitVec.toNat_ofNat]
  omega

@[simp]
theorem toNat_specialPage (b : Byte) : (specialPage b).toNat = 0x1F00 + b.toNat := by
  have := b.toNat_lt
  simp only [specialPage, BitVec.toNat_ofNat]
  omega

@[simp]
theorem toNat_ofWord_ofBytes (lo hi : Byte) :
    (ofWord (Word.ofBytes lo hi)).toNat = (lo.toNat + 256 * hi.toNat) % 0x2000 := by
  simp [ofWord, Word.ofBytes]

theorem toNat_displaced_eq (a : Address) (d : Byte) :
    (displaced a d).toNat = Mode.displaced a.toNat d.toNat := by
  have h := toNat_displaced a d
  have hd := d.toNat_lt
  rw [Byte.signed_eq] at h
  simp only [Mode.displaced]
  split at h <;> split <;> omega

end Address

@[simp]
theorem Mode.displaced_mod (next displacement : Nat) :
    displaced (next % 0x2000) displacement = displaced next displacement := by
  simp only [displaced]
  omega

@[simp]
theorem Processor.toNat_operandAddress (p : Processor) (k : Nat) :
    (p.operandAddress k).toNat = (p.pc.toNat + k) % 0x2000 := by
  simp [operandAddress]

theorem stackCell_zero (s : Byte) : stackCell s 0 = s.toNat := by
  have := s.toNat_lt
  simp only [stackCell]
  omega

theorem stackCell_add_one (s : Byte) (k : Int) : stackCell (s + 1) k = stackCell s (k + 1) := by
  simp only [stackCell, UInt8.toNat_add, UInt8.toNat_one]
  omega

theorem stackCell_sub_one (s : Byte) (k : Int) : stackCell (s - 1) k = stackCell s (k - 1) := by
  have := s.toNat_lt
  simp only [stackCell, UInt8.toNat_sub, UInt8.toNat_one]
  omega

@[simp]
theorem Processor.toNat_displaced (p : Processor) (k : Nat) (d : Byte) :
    (Address.displaced (p.operandAddress k) d).toNat =
      Mode.displaced (p.pc.toNat + k) d.toNat := by
  rw [Address.toNat_displaced_eq, toNat_operandAddress, Mode.displaced_mod]

/-! ### Operations -/

/-- A locator makes the reads of its mode, and the bytes they return give the address, whatever
bytes the instruction reads afterwards. -/
theorem Locator.locate_shows (l : Locator) (p : Processor) (opcode : Byte) :
    (l.locate p).Shows fun events address =>
      ∀ rest,
        let b := numbers (opcode :: (Event.loads events ++ rest))
        Event.accesses events = (l.mode.lookups p b).map .read ∧
          l.mode.effectiveAddress? p b = some address.toNat := by
  cases l with
  | zeroPage index | absolute index =>
    rcases index with _ | _ | _ <;>
      simp [locate, mode, Mode.lookups, Mode.effectiveAddress?, Processor.offset, Processor.index]
  | xIndirect | indirectY | zeroPageIndirect | absoluteIndirect | relative | specialPage =>
    simp [locate, mode, Mode.lookups, Mode.effectiveAddress?]

theorem Accumulate.perform_shows (op : Accumulate) (value : Byte) (p : Processor) :
    (op.perform value p).Shows fun events _ =>
      Event.accesses events = (Operation.read (.accumulate op)).indexModeAccesses p := by
  cases ht : p.flags.t with
  | false =>
    simp only [perform, ht, Operation.indexModeAccesses, Bool.false_eq_true, if_false]
    split <;> rfl
  | true =>
    have htarget : (Operation.read (.accumulate op)).indexModeAccesses p =
        op.targetAccesses (Address.zeroPage p.x).toNat := by
      rw [Address.toNat_zeroPage]
      exact if_pos ht
    rw [htarget, perform, if_pos ht]
    -- what the byte becomes does not matter, only whether it is read and whether it is written
    cases op with
    | lda => rfl
    | ora | and | eor | adc | sbc | cmp => exact fun _ => rfl

theorem Reading.perform_shows (op : Reading) (value : Byte) (p : Processor) :
    (op.perform value p).Shows fun events _ =>
      Event.accesses events = (Operation.read op).indexModeAccesses p := by
  cases op with
  | accumulate op => exact op.perform_shows value p
  | load | compare | bit | test => rfl

theorem Modifying.performAt_shows (op : Modifying) (address : Address) (p : Processor) :
    (op.performAt address p).Shows fun events _ =>
      Event.accesses events = [.read address.toNat, .write address.toNat] :=
  fun _ => rfl

theorem Jumping.perform_shows (op : Jumping) (target : Address) (p : Processor) :
    (op.perform target p).Shows fun events o =>
      Event.accesses events = (Operation.jump op).stackAccesses p ∧
        (o.processor.pc = target ∨
          (Operation.jump op).isConditional = true ∧ o.processor.pc = p.pc) := by
  cases op with
  | branch condition =>
    exact ⟨rfl, (p.branchIf_pc _ _).symm.imp id fun h => ⟨rfl, h⟩⟩
  | always | jump => exact ⟨rfl, .inl rfl⟩
  | call =>
    refine ⟨?_, .inl rfl⟩
    simp [Operation.stackAccesses, ← stackCell_zero, stackCell_sub_one]

theorem StackOp.perform_shows (op : StackOp) (p : Processor) :
    (op.perform p).Shows fun events _ =>
      Event.accesses events = (Operation.implied (.stack op)).stackAccesses p := by
  cases op <;>
    simp [perform, Processor.push, Processor.pull, Processor.pullFlags, Operation.stackAccesses,
      ← stackCell_zero, stackCell_add_one]

theorem Processor.enterHandler_shows (p : Processor) (marker : Byte) :
    (p.enterHandler marker).Shows fun events _ => Event.accesses events = p.entryAccesses := by
  have hvector : interruptVector.toNat = 0x1FF4 := rfl
  simp [enterHandler, pushWord, push, entryAccesses, hvector, ← stackCell_zero, stackCell_sub_one]

theorem Implied.perform_shows (op : Implied) (p : Processor) :
    (op.perform p).Shows fun events _ =>
      Event.accesses events = (Operation.implied op).stackAccesses p := by
  cases op with
  | brk => exact (p.advance 1).enterHandler_shows breakMarker
  | rti | rts =>
    simp [perform, Processor.pullFlags, Processor.pullWord, Processor.pull,
      Operation.stackAccesses, ← stackCell_zero, stackCell_add_one]
  | stack op => exact op.perform_shows p
  | stp | nop | flag | count | transfer | clock => rfl

/-! ### Instructions -/

namespace Instruction

/-- The events, which follow the fetch of the opcode, are the accesses of the instruction, and a
jump has led where the bytes read say. -/
structure Performed (i : Instruction) (p : Processor) (opcode : Byte) (events : List Event)
    (o : Outcome) : Prop where
  accesses : .read p.pc.toNat :: Event.accesses events =
    i.accesses p (numbers (opcode :: Event.loads events))
  leads : i.operation.access = .jump →
    o.processor.pc.toNat ∈ i.destinations p (numbers (opcode :: Event.loads events))

theorem mem_destinations {i : Instruction} {p : Processor} {b : Nat → Nat} {pc target : Address}
    (htarget : i.mode.effectiveAddress? p b = some target.toNat)
    (h : pc = target ∨ i.operation.isConditional = true ∧ pc = p.operandAddress i.size) :
    pc.toNat ∈ i.destinations p b := by
  rw [destinations, htarget, Option.toList_some, List.singleton_append]
  rcases h with rfl | ⟨hconditional, rfl⟩
  · exact List.mem_cons_self
  · rw [if_pos hconditional, Processor.toNat_operandAddress]
    exact List.mem_cons_of_mem _ (List.mem_singleton_self _)

end Instruction

namespace Plan

def instruction (plan : Plan) : Instruction := ⟨plan.operation, plan.mode⟩

/-- Once the address is found, what is left to access are the address, the byte at X and the
stack. -/
theorem locate_shows {l : Locator} {p : Processor} {opcode : Byte} {o : Operation}
    {next : Address → Program Outcome}
    (h : ∀ address, (next address).Shows fun events outcome =>
      Event.accesses events = o.access.accesses address.toNat ++ o.indexModeAccesses p ++
        o.stackAccesses p ∧
      (o.access = .jump → outcome.processor.pc = address ∨
        o.isConditional = true ∧ outcome.processor.pc = p.operandAddress l.mode.size)) :
    (l.locate p >>= next).Shows (Instruction.Performed ⟨o, l.mode⟩ p opcode) := by
  rw [shows_bind]
  refine (l.locate_shows p opcode).imp fun found address hfound => ?_
  refine (h address).imp fun events outcome ⟨haccesses, hleads⟩ => ?_
  obtain ⟨hlookups, haddress⟩ := hfound (Event.loads events)
  rw [← Event.loads_append] at hlookups haddress
  refine ⟨?_, fun hjump => Instruction.mem_destinations haddress (hleads hjump)⟩
  simp only [Event.accesses_append, Instruction.accesses, hlookups, haddress, haccesses,
    Option.elim_some, List.append_assoc]

/-- A plan makes the accesses of the instruction it serves. -/
theorem perform_shows (plan : Plan) (p : Processor) (opcode : Byte) :
    (plan.perform plan.mode.size p).Shows (plan.instruction.Performed p opcode) := by
  cases plan with
  | implied op =>
    simp only [perform, shows_bind, shows_pure, List.append_nil]
    refine (op.perform_shows _).imp fun events _ h => ⟨?_, fun hjump => by cases hjump⟩
    rw [h]
    rfl
  | modifyA op => exact ⟨rfl, fun hjump => by cases hjump⟩
  | readImmediate op =>
    simp only [perform, shows_bind, shows_pure, shows_fetch, List.append_nil]
    intro value
    refine (op.perform_shows value _).imp fun events _ h => ⟨?_, fun hjump => by cases hjump⟩
    rw [Event.accesses_append, h, Event.accesses_read, Processor.toNat_operandAddress]
    exact congrArg (_ :: _ :: ·) (List.append_nil _).symm
  | read op locator =>
    refine locate_shows fun address => ?_
    simp only [shows_bind, shows_pure, shows_fetch, List.append_nil]
    intro value
    refine (op.perform_shows value _).imp fun events _ h => ⟨?_, fun hjump => by cases hjump⟩
    rw [Event.accesses_append, h]
    exact congrArg (_ :: ·) (List.append_nil _).symm
  | store register locator =>
    exact locate_shows fun address => ⟨rfl, fun hjump => by cases hjump⟩
  | modify op locator =>
    refine locate_shows fun address => ?_
    simp only [shows_bind, shows_pure, List.append_nil]
    exact (op.performAt_shows address _).imp fun events _ h => ⟨h, fun hjump => by cases hjump⟩
  | jump op locator =>
    exact locate_shows fun address =>
      (op.perform_shows address _).imp fun events _ h => ⟨h.1, fun _ => h.2⟩
  | storeImmediate =>
    intro value cell
    refine ⟨?_, fun hjump => by cases hjump⟩
    simp only [Event.accesses_read, Event.accesses_write, Processor.toNat_operandAddress,
      Address.toNat_zeroPage]
    rfl
  | branchOnBitOfA bit whenSet =>
    intro displacement
    refine ⟨?_, fun _ => ?_⟩
    · simp only [Event.accesses_read, Processor.toNat_operandAddress]
      rfl
    · exact Instruction.mem_destinations (congrArg some (p.toNat_displaced 2 displacement).symm)
        ((Processor.branchIf_pc _ _ _).symm.imp id fun h => ⟨rfl, h⟩)
  | branchOnBitOfCell bit whenSet =>
    intro cell value displacement
    refine ⟨?_, fun _ => ?_⟩
    · simp only [Event.accesses_read, Processor.toNat_operandAddress, Address.toNat_zeroPage]
      rfl
    · exact Instruction.mem_destinations (congrArg some (p.toNat_displaced 3 displacement).symm)
        ((Processor.branchIf_pc _ _ _).symm.imp id fun h => ⟨rfl, h⟩)

end Plan

namespace Opcode

theorem instruction_plan (opcode : Byte) : (plan opcode).instruction = instruction opcode := by
  rw [Plan.instruction, operation_plan, mode_plan]

theorem perform_shows (opcode : Byte) (p : Processor) :
    (perform opcode p).Shows ((instruction opcode).Performed p opcode) := by
  have h := (plan opcode).perform_shows p opcode
  rwa [instruction_plan, mode_plan] at h

end Opcode

namespace Processor

variable {σ : Type} [Device σ]

theorem performNext_accesses (p : Processor) (bus : Bus σ) :
    let opcode := (bus.read p.pc).1
    let i := Opcode.instruction opcode
    let r := p.performNext.run trace bus []
    let b := numbers (Event.loads r.2.2)
    b 0 = opcode.toNat ∧ Event.accesses r.2.2 = i.accesses p b ∧
      (i.operation.access = .jump → r.1.1.pc.toNat ∈ i.destinations p b) := by
  have h := (Opcode.perform_shows (bus.read p.pc).1 p).run (bus.read p.pc).2
  rw [performNext_trace]
  exact ⟨rfl, h.accesses, h.leads⟩

theorem takeInterrupt_accesses (p : Processor) (bus : Bus σ) :
    Event.accesses (p.takeInterrupt.run trace bus []).2.2 = p.entryAccesses := by
  have h : p.takeInterrupt.Shows fun events _ => Event.accesses events = p.entryAccesses := by
    simp only [takeInterrupt, shows_bind]
    refine (p.enterHandler_shows 0).imp fun events _ hevents => ?_
    simpa using hevents
  exact h.run bus

end Processor

namespace Machine

variable {σ : Type} [Device σ]

/-- A step of a running machine accesses the bus as the instruction that the opcode at the program
counter stands for says, given the bytes it reads: the listed addresses, in the listed order, and no
others. A jump or branch accesses no operand and leads to its effective address, or behind itself if
it is conditional. A hardware interrupt accesses the stack and the vector. -/
theorem step_accesses (m : Machine σ) (hs : m.core.processor.stopped = false) :
    let p := m.core.processor
    let opcode := (m.bus.read p.pc).1
    let i := Opcode.instruction opcode
    let r := m.call trace [] .step
    let b := numbers (Event.loads r.2.2)
    b 0 = opcode.toNat ∧ Event.accesses r.2.2 = i.accesses p b ∧
      (i.operation.access = .jump → r.2.1.core.processor.pc.toNat ∈ i.destinations p b) ∧
      (p.acceptsInterrupt = true →
        Event.accesses (m.call trace [] .interrupt).2.2 = p.entryAccesses) := by
  intro p opcode i r b
  have hr : r = _ := call_step trace [] hs
  obtain ⟨hopcode, haccesses, hleads⟩ := p.performNext_accesses m.bus
  refine ⟨?_, ?_, ?_, fun ha => ?_⟩
  · simpa only [b, hr] using hopcode
  · simpa only [b, hr] using haccesses
  · simpa only [b, hr] using hleads
  · rw [call_interrupt_taken trace [] ha]
    exact p.takeInterrupt_accesses m.bus

/-- Interrupts enabled, index mode, and then an addition of what a pointer at the end of page zero
leads to. -/
def indexedImage : List Byte :=
  [0x58, 0x32, 0x61, 0xFF, 0xF0, 0x1F, 0, 0, 0, 0, 0, 0, 0, 0, 0xF0, 0x1F]

/-- At the addition. -/
def indexed : Machine Unconnected := (fresh {}).afterAll [.setRom indexedImage, .step, .step]

/-- The pointer wraps around within page zero, and the sum goes to the byte at X. -/
theorem step_accesses_indexed :
    indexed.core.processor.stopped = false ∧ indexed.core.processor.acceptsInterrupt = true ∧
      Event.accesses (indexed.call trace [] .step).2.2 =
        [.read 0x1FF2, .read 0x1FF3, .read 0xFF, .read 0x00, .read 0xFF, .read 0x00,
          .write 0x00] ∧
      Event.accesses (indexed.call trace [] .interrupt).2.2 =
        [.write 0x5F, .write 0x5E, .write 0x5D, .read 0x1FF4, .read 0x1FF5] := by
  obtain ⟨hs, ha⟩ : indexed.core.processor.stopped = false ∧
      indexed.core.processor.acceptsInterrupt = true := by decide +kernel
  obtain ⟨-, haccesses, -, hentry⟩ := step_accesses indexed hs
  exact ⟨hs, ha, haccesses.trans (by decide +kernel), (hentry ha).trans (by decide +kernel)⟩

end Machine

end M740
