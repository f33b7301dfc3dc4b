import M740.Proofs.Redirection
import M740.Proofs.StackCode
import M740.Proofs.Subroutines
import M740.Proofs.Unindexed

/-!
# Stores

An instruction reads what it needs before it writes anything, so what a step stores, and where, can
be told from the state before it, whatever the stores overwrite. `Instruction.footprint` lists the
addresses, and `Instruction.stores` pairs them with the bytes. A step changes RAM at these addresses
and nowhere else (`Machine.step_stores`).
-/

namespace M740

open Program

variable {σ α β : Type} [Device σ]

/-! ### What is read -/

namespace Event

def readFrom? : Event → Option Address
  | .read address _ => some address
  | .write .. | .note _ => none

/-- The addresses that are read, in order. -/
def reads (events : List Event) : List Address := events.filterMap readFrom?

theorem reads_append (events events' : List Event) :
    reads (events ++ events') = reads events ++ reads events' :=
  List.filterMap_append

end Event

namespace Bus

/-- The bus after reads made one after the other. -/
def readAll (b : Bus σ) (reads : List Address) : Bus σ :=
  reads.foldl (fun b a => (b.read a).2) b

theorem readAll_append (b : Bus σ) (xs ys : List Address) :
    b.readAll (xs ++ ys) = (b.readAll xs).readAll ys :=
  List.foldl_append

theorem readAll_ram (b : Bus σ) (reads : List Address) : (b.readAll reads).ram = b.ram := by
  induction reads generalizing b with
  | nil => rfl
  | cons a rest ih => exact (ih _).trans (b.read_ram a)

end Bus

theorem Program.ReadOnly.run_bus {p : Program α} (hp : p.ReadOnly) (b : Bus σ) :
    (p.run trace b []).2.1 = b.readAll (Event.reads (p.run trace b []).2.2) := by
  induction p generalizing b with
  | done => rfl
  | read address next ih =>
    simp only [run]
    rw [run_trace]
    exact ih _ (hp _) _
  | write => cases hp
  | poll _ ih => exact ih _ (hp _) _
  | note n _ ih =>
    simp only [run]
    rw [run_trace]
    exact ih hp _

/-! ### Runs that store -/

/-- What a run from `b` makes: the stores, in order, and no others. The reads come first, so they
find what `b` shows. -/
structure Bus.Stores (b : Bus σ) (stores : List (Address × Byte)) (r : α × Bus σ × List Event) :
    Prop where
  writes : Event.writes r.2.2 = stores
  memory : ReadsMemory b r.2.2
  bus : r.2.1 = (b.readAll (Event.reads r.2.2)).writeAll stores

section
variable {b : Bus σ} {ws : List (Address × Byte)}

theorem Program.ReadOnly.stores {p : Program α} (hp : p.ReadOnly) (b : Bus σ) :
    b.Stores [] (p.run trace b []) where
  writes := hp.shows_writes.run b
  memory := hp.readsMemory (fun _ => rfl) fun _ _ hm => nomatch hm
  bus := hp.run_bus b

theorem Bus.stores_of_eq {r : α × Bus σ × List Event} (hbus : r.2.1 = b.writeAll ws)
    (hevents : r.2.2 = ws.map fun w => .write w.1 w.2) : b.Stores ws r where
  writes := by
    rw [hevents, Event.writes, List.filterMap_map]
    exact List.filterMap_some
  memory a value hm := by
    rw [hevents] at hm
    obtain ⟨w, -, hw⟩ := List.mem_map.1 hm
    cases hw
  bus := by
    have hreads : Event.reads r.2.2 = [] := by
      rw [hevents, Event.reads, List.filterMap_map]
      exact List.filterMap_eq_nil_iff.2 fun _ _ => rfl
    rw [hbus, hreads]
    rfl

/-- What stores may be preceded by reads. -/
theorem Bus.Stores.bind {p : Program α} {f : α → Program β} (hp : p.ReadOnly)
    (h : (p.run trace b []).2.1.Stores ws
      ((f (p.run trace b []).1).run trace (p.run trace b []).2.1 [])) :
    b.Stores ws ((p >>= f).run trace b []) := by
  rw [run_bind, run_trace]
  refine ⟨?_, ?_, ?_⟩
  · rw [Event.writes_append, hp.shows_writes.run b, h.writes]
    rfl
  · refine (hp.stores b).memory.append fun a value hm hdevice => ?_
    exact (h.memory a value hm hdevice).trans (hp.peek_run trace b [] a)
  · rw [Event.reads_append, Bus.readAll_append, ← hp.run_bus]
    exact h.bus

theorem Bus.Stores.map {p : Program α} (h : b.Stores ws (p.run trace b [])) (f : α → β) :
    b.Stores ws ((p >>= fun a => pure (f a)).run trace b []) := by
  rw [run_bind]
  exact ⟨h.writes, h.memory, h.bus⟩

end

/-! ### What an instruction stores -/

/-- Finds the address of an operand in memory. For a constant to be stored it is the second operand
byte. -/
def Mode.locate (m : Mode) (p : Processor) : Program Address :=
  match m.locator? with
  | some l => l.locate p
  | none => do
    let _ ← Program.fetch (p.operandAddress 1)
    let cell ← Program.fetch (p.operandAddress 2)
    return Address.zeroPage cell

/-- In index mode an operation that has a result stores it at X. -/
def Accumulate.stores (op : Accumulate) (p : Processor) (target value : Byte) :
    List (Address × Byte) :=
  if p.flags.t then
    ((op.apply p.flags target value).1.map (Address.zeroPage p.x, ·)).toList
  else []

def Reading.stores (op : Reading) (p : Processor) (target value : Byte) : List (Address × Byte) :=
  match op with
  | .accumulate op => op.stores p target value
  | .load _ | .compare _ | .bit | .test => []

namespace Instruction

variable (i : Instruction) (p : Processor) (b : Bus σ)

/-- The effective address, found on the bus `b`. -/
def effectiveAddress : Address := ((i.mode.locate p).run trace b []).1

/-- The operand, loaded from the bus `b`. -/
def operand : Byte := ((i.mode.load p).run trace b []).1

/-- The byte at X once the operand is loaded. -/
def target : Byte := (((i.mode.load p).run trace b []).2.1.read (Address.zeroPage p.x)).1

/-- The addresses that the instruction stores to, in order. -/
def footprint : List Address :=
  match i.operation with
  | .store _ | .storeImmediate => [i.effectiveAddress p b]
  | .modify _ => if i.mode = .accumulator then [] else [i.effectiveAddress p b]
  | .read (.accumulate op) => if p.flags.t ∧ op ≠ .cmp then [Address.zeroPage p.x] else []
  | .implied (.stack .pha) | .implied (.stack .php) => [Address.zeroPage p.s]
  | .jump .call => [Address.zeroPage p.s, Address.zeroPage (p.s - 1)]
  | .implied .brk =>
    [Address.zeroPage p.s, Address.zeroPage (p.s - 1), Address.zeroPage (p.s - 2)]
  | _ => []

/-- What the instruction stores, each byte with its address. -/
def stores : List (Address × Byte) :=
  let address := i.effectiveAddress p b
  let value := i.operand p b
  match i.operation with
  | .store register => [(address, p.register register)]
  | .storeImmediate => [(address, value)]
  | .modify op => if i.mode = .accumulator then [] else [(address, (op.apply p.flags value).1)]
  | .read op => op.stores p (i.target p b) value
  | .implied (.stack .pha) => [(Address.zeroPage p.s, p.a)]
  | .implied (.stack .php) => [(Address.zeroPage p.s, p.status)]
  | .jump .call =>
    let last := (p.advance i.size).previous
    [(Address.zeroPage p.s, Word.high last), (Address.zeroPage (p.s - 1), Word.low last)]
  | .implied .brk =>
    let returns := Address.toWord (p.pc + 2)
    [(Address.zeroPage p.s, Word.high returns), (Address.zeroPage (p.s - 1), Word.low returns),
      (Address.zeroPage (p.s - 2), p.status ||| breakMarker)]
  | _ => []

/-- Where the operand is loaded from. -/
def source : Address :=
  if i.mode.locator?.isSome then i.effectiveAddress p b else p.operandAddress 1

theorem operand_eq_peek (h : (i.source p b).deviceRegister? = none) :
    i.operand p b = b.peek (i.source p b) := by
  cases hl : i.mode.locator? with
  | none =>
    have hsource : i.source p b = p.operandAddress 1 := by simp [source, hl]
    rw [hsource] at h ⊢
    rw [operand, Mode.load, hl]
    exact congrArg Prod.fst (b.read_of_not_device h)
  | some l =>
    have hsource : i.source p b = ((l.locate p).run trace b []).1 := by
      simp [source, effectiveAddress, Mode.locate, hl]
    rw [hsource] at h ⊢
    rw [operand, Mode.load, hl, run_bind, ← (l.locate_readOnly p).peek_run trace b []]
    exact congrArg Prod.fst (Bus.read_of_not_device _ h)

theorem target_eq_peek (h : (Address.zeroPage p.x).deviceRegister? = none) :
    i.target p b = b.peek (Address.zeroPage p.x) := by
  rw [target, Bus.read_of_not_device _ h]
  exact (i.mode.load_readOnly p).peek_run trace b [] _

theorem map_fst_stores : (i.stores p b).map Prod.fst = i.footprint p b := by
  obtain ⟨operation, mode⟩ := i
  cases operation with
  | read op =>
    cases op with
    | accumulate op =>
      cases ht : p.flags.t with
      | false => simp [stores, footprint, Reading.stores, Accumulate.stores, ht]
      | true =>
        cases op <;>
          simp [stores, footprint, Reading.stores, Accumulate.stores, Accumulate.apply, ht]
    | load | compare | bit | test => rfl
  | modify op =>
    by_cases hmode : mode = .accumulator
    · simp [stores, footprint, hmode]
    · simp [stores, footprint, hmode]
  | jump op => cases op <;> rfl
  | implied op =>
    cases op with
    | stack op => cases op <;> rfl
    | _ => rfl
  | store | storeImmediate | branchOnBit => rfl

/-- Nothing is stored to the same address twice. -/
theorem nodup_footprint : (i.footprint p b).Nodup := by
  have hslots : ∀ s : Byte, [Address.zeroPage s, Address.zeroPage (s - 1),
      Address.zeroPage (s - 2)].Nodup := by decide +kernel
  unfold footprint
  split
  · exact List.nodup_singleton _
  · exact List.nodup_singleton _
  · split
    · exact List.nodup_nil
    · exact List.nodup_singleton _
  · split
    · exact List.nodup_singleton _
    · exact List.nodup_nil
  · exact List.nodup_singleton _
  · exact List.nodup_singleton _
  · exact (hslots p.s).sublist (by simp)
  · exact hslots p.s
  · exact List.nodup_nil

end Instruction

/-! ### Operations -/

theorem Accumulate.perform_stores (op : Accumulate) (value : Byte) (p : Processor) (b : Bus σ) :
    b.Stores (op.stores p (b.read (Address.zeroPage p.x)).1 value)
      ((op.perform value p).run trace b []) := by
  unfold stores
  cases ht : p.flags.t with
  | false =>
    rw [op.perform_of_clear ht]
    refine ReadOnly.stores ?_ b
    trivial
  | true =>
    rw [perform, if_pos ht, if_pos rfl]
    cases op with
    | lda => exact Bus.stores_of_eq rfl rfl
    | cmp =>
      refine ReadOnly.stores ?_ b
      exact fun _ => trivial
    | ora | and | eor | adc | sbc =>
      refine Bus.Stores.bind (fun _ => trivial) ?_
      exact Bus.stores_of_eq rfl rfl

theorem Reading.perform_stores (op : Reading) (value : Byte) (p : Processor) (b : Bus σ) :
    b.Stores (op.stores p (b.read (Address.zeroPage p.x)).1 value)
      ((op.perform value p).run trace b []) := by
  cases op with
  | accumulate op => exact op.perform_stores value p b
  | load | compare | bit | test =>
    refine ReadOnly.stores ?_ b
    trivial

/-- An entry of a handler stores before it reads the vector, but no store can reach the ROM. -/
theorem Processor.enterHandler_stores (p : Processor) (marker : Byte) (b : Bus σ) :
    let pc := Address.toWord p.pc
    b.Stores
      [(Address.zeroPage p.s, Word.high pc), (Address.zeroPage (p.s - 1), Word.low pc),
        (Address.zeroPage (p.s - 2), p.status ||| marker)]
      ((p.enterHandler marker).run trace b []) := by
  have hslot : ∀ s : Byte, s - 1 - 1 = s - 2 := by decide +kernel
  have hlo : b.read interruptVector = (b.rom[0xFF4], b) := b.read_of_not_device (by decide)
  have hhi : b.read (interruptVector + 1) = (b.rom[0xFF5], b) := b.read_of_not_device (by decide)
  have hrun := p.enterHandler_trace marker b
  dsimp only at hrun ⊢
  rw [hrun, hslot p.s]
  refine ⟨rfl, fun a value hm _ => ?_, ?_⟩
  · simp only [List.cons_append, List.nil_append, List.mem_cons, reduceCtorEq, false_or,
      Event.read.injEq, List.not_mem_nil, or_false] at hm
    rcases hm with ⟨rfl, rfl⟩ | ⟨rfl, rfl⟩ <;> rfl
  · show _ = Bus.writeAll (((b.read interruptVector).2.read (interruptVector + 1)).2) _
    rw [hlo, hhi]
    rfl

theorem Implied.perform_stores (op : Implied) (p : Processor) (b : Bus σ) :
    b.Stores (Instruction.stores ⟨.implied op, .implied⟩ p b)
      ((op.perform (p.advance 1)).run trace b []) := by
  cases op with
  | brk =>
    have hreturns : ((p.advance 1).advance 1).pc = p.pc + 2 := BitVec.add_assoc p.pc 1 1
    have h := ((p.advance 1).advance 1).enterHandler_stores breakMarker b
    rw [hreturns] at h
    exact h
  | stack op =>
    cases op with
    | pha | php => exact Bus.stores_of_eq rfl rfl
    | pla | plp =>
      refine ReadOnly.stores ?_ b
      exact fun _ => trivial
  | rti =>
    refine ReadOnly.stores ?_ b
    exact fun _ _ _ => trivial
  | rts =>
    refine ReadOnly.stores ?_ b
    exact fun _ _ => trivial
  | stp | nop | flag | count | transfer | clock =>
    refine ReadOnly.stores ?_ b
    trivial

/-! ### Instructions -/

theorem Locator.mode_ne_accumulator (l : Locator) : l.mode ≠ .accumulator := by
  intro h
  have hlocator := l.locator?_mode
  rw [h] at hlocator
  cases hlocator

namespace Instruction

variable (o : Operation) (l : Locator) (p : Processor) (b : Bus σ)

theorem effectiveAddress_mode :
    effectiveAddress ⟨o, l.mode⟩ p b = ((l.locate p).run trace b []).1 := by
  rw [effectiveAddress, Mode.locate, l.locator?_mode]

theorem operand_mode :
    let found := (l.locate p).run trace b []
    operand ⟨o, l.mode⟩ p b = (found.2.1.read found.1).1 := by
  rw [operand, Mode.load, l.locator?_mode, run_bind]
  rfl

theorem target_mode :
    let found := (l.locate p).run trace b []
    target ⟨o, l.mode⟩ p b = ((found.2.1.read found.1).2.read (Address.zeroPage p.x)).1 := by
  rw [target, Mode.load, l.locator?_mode, run_bind]
  rfl

end Instruction

theorem Plan.perform_stores (plan : Plan) (p : Processor) (b : Bus σ) :
    b.Stores (plan.instruction.stores p b) ((plan.perform plan.mode.size p).run trace b []) := by
  cases plan with
  | implied op => exact (op.perform_stores p b).map _
  | modifyA op =>
    refine ReadOnly.stores ?_ b
    trivial
  | readImmediate op =>
    refine Bus.Stores.bind (fun _ => trivial) ?_
    exact (op.perform_stores _ (p.advance 2) _).map _
  | read op l =>
    show b.Stores (op.stores p (Instruction.target ⟨.read op, l.mode⟩ p b)
      (Instruction.operand ⟨.read op, l.mode⟩ p b)) _
    rw [Instruction.target_mode, Instruction.operand_mode]
    refine Bus.Stores.bind (l.locate_readOnly p) (Bus.Stores.bind (fun _ => trivial) ?_)
    exact (op.perform_stores _ (p.advance l.mode.size) _).map _
  | store register l =>
    show b.Stores [(Instruction.effectiveAddress ⟨.store register, l.mode⟩ p b,
      p.register register)] _
    rw [Instruction.effectiveAddress_mode]
    exact Bus.Stores.bind (l.locate_readOnly p) (Bus.stores_of_eq rfl rfl)
  | modify op l =>
    have hstores : Instruction.stores ⟨.modify op, l.mode⟩ p b = _ := if_neg l.mode_ne_accumulator
    show b.Stores (Instruction.stores ⟨.modify op, l.mode⟩ p b) _
    rw [hstores, Instruction.effectiveAddress_mode, Instruction.operand_mode]
    refine Bus.Stores.bind (l.locate_readOnly p) (Bus.Stores.map ?_ _)
    exact Bus.Stores.bind (fun _ => trivial) (Bus.stores_of_eq rfl rfl)
  | jump op l =>
    refine Bus.Stores.bind (l.locate_readOnly p) ?_
    cases op with
    | call => exact Bus.stores_of_eq rfl rfl
    | branch | always | jump =>
      refine ReadOnly.stores ?_ _
      trivial
  | storeImmediate =>
    refine Bus.Stores.bind (fun _ => trivial) (Bus.Stores.bind (fun _ => trivial) ?_)
    exact Bus.stores_of_eq rfl rfl
  | branchOnBitOfA =>
    refine ReadOnly.stores ?_ b
    exact fun _ => trivial
  | branchOnBitOfCell =>
    refine ReadOnly.stores ?_ b
    exact fun _ _ _ => trivial

namespace Opcode

theorem perform_stores (opcode : Byte) (p : Processor) (b : Bus σ) :
    b.Stores ((instruction opcode).stores p b) ((perform opcode p).run trace b []) := by
  have h := (plan opcode).perform_stores p b
  rwa [instruction_plan, mode_plan] at h

end Opcode

/-! ### The effective address as a number -/

namespace BusAccess

def writtenTo? : BusAccess → Option Nat
  | write address => some address
  | read _ => none

end BusAccess

theorem Event.writtenTo_accesses (events : List Event) :
    (Event.accesses events).filterMap BusAccess.writtenTo? =
      (Event.writes events).map (·.1.toNat) := by
  induction events with
  | nil => rfl
  | cons e rest ih =>
    cases e with
    | read | note => exact ih
    | write address value => exact congrArg (_ :: ·) ih

namespace Instruction

/-- Whether the instruction stores to its effective address. -/
def storesToOperand (i : Instruction) : Bool :=
  match i.operation with
  | .store _ | .storeImmediate => true
  | .modify _ => i.mode != .accumulator
  | _ => false

theorem writtenTo_accesses {i : Instruction} (h : i.storesToOperand) (p : Processor)
    (b : Nat → Nat) :
    (i.accesses p b).filterMap BusAccess.writtenTo? = (i.mode.effectiveAddress? p b).toList := by
  have hlookups (addresses : List Nat) :
      (addresses.map BusAccess.read).filterMap BusAccess.writtenTo? = [] := by
    rw [List.filterMap_map]
    exact List.filterMap_eq_nil_iff.2 fun _ _ => rfl
  have hread : BusAccess.writtenTo? (.read p.pc.toNat) = none := rfl
  rw [accesses, List.filterMap_cons, hread, List.filterMap_append, List.filterMap_append,
    List.filterMap_append, hlookups]
  obtain ⟨operation, mode⟩ := i
  cases operation with
  | store | storeImmediate | modify => cases mode.effectiveAddress? p b <;> rfl
  | read | jump | branchOnBit | implied => cases h

theorem footprint_of_storesToOperand {i : Instruction} (h : i.storesToOperand) (p : Processor)
    (b : Bus σ) : i.footprint p b = [i.effectiveAddress p b] := by
  obtain ⟨operation, mode⟩ := i
  cases operation with
  | store | storeImmediate => rfl
  | modify op =>
    have hmode : mode ≠ .accumulator := by simpa [storesToOperand] using h
    exact if_neg hmode
  | read | jump | branchOnBit | implied => cases h

end Instruction

/-! ### Memory -/

namespace Bus

theorem writeAll_ram_of_forall_ne (b : Bus σ) {ws : List (Address × Byte)} {cell : Nat}
    (h : ∀ w ∈ ws, w.1.toNat ≠ cell) : (b.writeAll ws).ram[cell]? = b.ram[cell]? := by
  induction ws generalizing b with
  | nil => rfl
  | cons w rest ih =>
    obtain ⟨hw, hrest⟩ := List.forall_mem_cons.1 h
    exact (ih _ hrest).trans ((b.write_ram _ _ cell).trans (if_neg fun hcell => hw hcell.1))

theorem writeAll_ram_of_mem (b : Bus σ) {ws : List (Address × Byte)} {w : Address × Byte}
    (hnodup : (ws.map Prod.fst).Nodup) (hw : w ∈ ws) (hram : w.1.toNat < ramSize) :
    (b.writeAll ws).ram[w.1.toNat]? = some w.2 := by
  induction ws generalizing b with
  | nil => cases hw
  | cons w' rest ih =>
    obtain ⟨hfresh, hnodup⟩ := List.nodup_cons.1 hnodup
    rcases List.mem_cons.1 hw with rfl | hw
    · have hlater : ∀ w' ∈ rest, w'.1.toNat ≠ w.1.toNat := fun w' hw' heq =>
        hfresh (BitVec.toNat_inj.1 heq ▸ List.mem_map_of_mem hw')
      refine ((b.write w.1 w.2).writeAll_ram_of_forall_ne hlater).trans ?_
      exact (b.write_ram _ _ _).trans (if_pos ⟨rfl, hram⟩)
    · exact ih _ hnodup hw

/-- A byte that is stored outside the RAM goes to a device or is dropped. -/
theorem write_of_not_ram (b : Bus σ) {a : Address} (h : ramSize ≤ a.toNat) (value : Byte) :
    b.write a value = match a.deviceRegister? with
      | some register => { b with devices := Device.write b.devices register value }
      | none => b := by
  rw [b.write_eq, ← a.deviceRegister?_eq]
  cases a.deviceRegister? with
  | none => exact dif_neg (Nat.not_le.2 h)
  | some register => rfl

end Bus

/-! ### Steps -/

namespace Machine

/-- The bus once a step has fetched the opcode. -/
def fetched (m : Machine σ) : Bus σ := (m.bus.read m.core.processor.pc).2

def footprint (m : Machine σ) : List Address := m.instruction.footprint m.core.processor m.fetched

def stores (m : Machine σ) : List (Address × Byte) :=
  m.instruction.stores m.core.processor m.fetched

theorem map_fst_stores (m : Machine σ) : m.stores.map Prod.fst = m.footprint :=
  Instruction.map_fst_stores _ _ _

/-- Between the state before a step and the state after it lie the reads and then the stores. -/
theorem stores_step {m : Machine σ} (hs : m.core.processor.stopped = false) :
    let r := m.call trace [] .step
    m.bus.Stores m.stores (r.1, r.2.1.bus, r.2.2) := by
  have h := Opcode.perform_stores m.opcode m.core.processor m.fetched
  have hmemory : ReadsMemory m.bus
      ((Opcode.perform m.opcode m.core.processor).run trace m.fetched []).2.2 :=
    fun a value hm hdevice => (h.memory a value hm hdevice).trans (m.bus.peek_read _ a)
  dsimp only
  rw [step_trace hs]
  exact ⟨h.writes, m.readsMemory_fetch.append hmemory, h.bus⟩

theorem effectiveAddress?_step {m : Machine σ} (hs : m.core.processor.stopped = false)
    (h : m.instruction.storesToOperand) :
    let p := m.core.processor
    let b := numbers (Event.loads (m.call trace [] .step).2.2)
    m.instruction.mode.effectiveAddress? p b =
      some (m.instruction.effectiveAddress p m.fetched).toNat := by
  intro p b
  have hevents : (m.call trace [] .step).2.2 = (p.performNext.run trace m.bus []).2.2 := by
    rw [call_step trace [] hs]
  obtain ⟨-, haccesses, -⟩ := p.performNext_accesses m.bus
  rw [← hevents] at haccesses
  rw [← Option.toList_eq_singleton_iff]
  calc (m.instruction.mode.effectiveAddress? p b).toList
    _ = (m.instruction.accesses p b).filterMap BusAccess.writtenTo? :=
      (Instruction.writtenTo_accesses h p b).symm
    _ = (Event.writes (m.call trace [] .step).2.2).map (·.1.toNat) := by
      rw [← Event.writtenTo_accesses, haccesses]
      rfl
    _ = m.footprint.map BitVec.toNat := by
      rw [(stores_step hs).writes, ← m.map_fst_stores, List.map_map]
      rfl
    _ = [(m.instruction.effectiveAddress p m.fetched).toNat] := by
      rw [footprint, Instruction.footprint_of_storesToOperand h]
      rfl

/-- What a step from `m` to `m'` stores, with everything that happens on the way. -/
structure Stored (m m' : Machine σ) (events : List Event) : Prop where
  writes : Event.writes events = m.stores
  addresses : m.stores.map Prod.fst = m.footprint
  once : m.footprint.Nodup
  /-- Only the RAM at the footprint can change. -/
  kept : ∀ cell, (∀ a ∈ m.footprint, a.toNat ≠ cell) → m'.bus.ram[cell]? = m.bus.ram[cell]?
  changed : ∀ w ∈ m.stores, w.1.toNat < ramSize → m'.bus.ram[w.1.toNat]? = some w.2
  /-- What is stored outside the RAM goes to a device or is dropped. -/
  outside : ∀ w ∈ m.stores, ramSize ≤ w.1.toNat → ∀ b : Bus σ,
    b.write w.1 w.2 = match w.1.deviceRegister? with
      | some register => { b with devices := Device.write b.devices register w.2 }
      | none => b
  bus : m'.bus = (m.bus.readAll (Event.reads events)).writeAll m.stores
  /-- Whatever is read comes from the state before the step. -/
  memory : ReadsMemory m.bus events
  address : m.instruction.storesToOperand →
    m.instruction.mode.effectiveAddress? m.core.processor (numbers (Event.loads events)) =
      some (m.instruction.effectiveAddress m.core.processor m.fetched).toNat
  operand :
    let source := m.instruction.source m.core.processor m.fetched
    source.deviceRegister? = none →
      m.instruction.operand m.core.processor m.fetched = m.bus.peek source
  target :
    let cell := Address.zeroPage m.core.processor.x
    cell.deviceRegister? = none →
      m.instruction.target m.core.processor m.fetched = m.bus.peek cell

/-- A step stores what the footprint and the values before it say: at the effective address for
stores and for changes of memory, at the second operand byte for a stored constant, at X for
accumulator operations in index mode, at the slots from S downward for pushes, calls and breaks, and
nowhere else. -/
theorem step_stores (m : Machine σ) (hs : m.core.processor.stopped = false) :
    let r := m.call trace [] .step
    m.Stored r.2.1 r.2.2 := by
  intro r
  have h : m.bus.Stores m.stores (r.1, r.2.1.bus, r.2.2) := stores_step hs
  have haddresses := m.map_fst_stores
  have honce : m.footprint.Nodup := Instruction.nodup_footprint _ _ _
  have hpeek (a : Address) : m.fetched.peek a = m.bus.peek a := m.bus.peek_read _ a
  refine ⟨h.writes, haddresses, honce, fun cell hcell => ?_, fun w hw hram => ?_,
    fun w _ hram b => b.write_of_not_ram hram w.2, h.bus, h.memory,
    fun haccess => effectiveAddress?_step hs haccess, fun hdevice => ?_, fun hdevice => ?_⟩
  · rw [show r.2.1.bus = _ from h.bus, Bus.writeAll_ram_of_forall_ne, Bus.readAll_ram]
    intro w hw
    exact hcell w.1 (haddresses ▸ List.mem_map_of_mem hw)
  · rw [show r.2.1.bus = _ from h.bus]
    exact Bus.writeAll_ram_of_mem _ (haddresses ▸ honce) hw hram
  · exact (m.instruction.operand_eq_peek _ _ hdevice).trans (hpeek _)
  · exact (m.instruction.target_eq_peek _ _ hdevice).trans (hpeek _)

/-- At an addition in index mode, with X at its own operand byte. -/
def selfAdding : Machine Unconnected :=
  (fresh {}).afterAll [.write 0x10 0x69, .write 0x11 0x05, .set (.pc 0x10),
    .set (.register .x 0x11), .set (.status 0x20)]

/-- At a break, with room for two bytes on the stack. -/
def breakingLow : Machine Unconnected :=
  (fresh {}).afterAll [.set (.pc 0x20), .set (.stackPointer 1), .set (.status 0x01)]

/-- A sum takes the place of the operand, and the status goes to a timer. -/
theorem step_stores_overwriting :
    let r := selfAdding.call trace [] .step
    let r' := breakingLow.call trace [] .step
    selfAdding.core.processor.stopped = false ∧ breakingLow.core.processor.stopped = false ∧
      Event.writes r.2.2 = [(0x11, 0x0A)] ∧ r.2.1.bus.ram[0x11]? = some 0x0A ∧
      r.2.1.bus.ram[0x10]? = selfAdding.bus.ram[0x10]? ∧
      breakingLow.footprint = [0x01, 0x00, 0xFF] ∧
      r'.2.1.bus.ram[0x00]? = some 0x22 ∧ r'.2.1.bus.ram[0x5F]? = breakingLow.bus.ram[0x5F]? := by
  intro r r'
  have hs : selfAdding.core.processor.stopped = false := by decide +kernel
  have hs' : breakingLow.core.processor.stopped = false := by decide +kernel
  have hstores : selfAdding.stores = [(0x11, 0x0A)] := by decide +kernel
  have hfootprint : breakingLow.footprint = [0x01, 0x00, 0xFF] := by decide +kernel
  have hstores' : ((0x00, 0x22) : Address × Byte) ∈ breakingLow.stores := by decide +kernel
  have h := step_stores selfAdding hs
  have h' := step_stores breakingLow hs'
  refine ⟨hs, hs', h.writes.trans hstores, ?_, ?_, hfootprint, ?_, ?_⟩
  · exact h.changed (0x11, 0x0A) (by rw [hstores]; decide) (by decide)
  · refine h.kept 0x10 ?_
    rw [← h.addresses, hstores]
    exact List.forall_mem_singleton.2 (by decide)
  · exact h'.changed _ hstores' (by decide)
  · refine h'.kept 0x5F ?_
    rw [hfootprint]
    refine List.forall_mem_cons.2 ⟨by decide, List.forall_mem_cons.2 ⟨by decide, ?_⟩⟩
    exact List.forall_mem_singleton.2 (by decide)

end Machine

end M740
