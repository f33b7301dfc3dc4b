import M740.Proofs.Calls
import M740.Proofs.Listing
import M740.Proofs.Names
import M740.Proofs.Traces

/-!
# Straight lines

Code that neither transfers control nor stops is run as it is listed. An operation without such an
effect leaves the program counter behind its instruction (`Plan.perform_straight`), which is where
the next entry of the listing begins, so single steps over code in the ROM go from entry to entry
and cost what the entries say (`Machine.steps_straight`).
-/

namespace M740

open Program

namespace Operation

/-- Whether the operation can send the processor elsewhere. -/
def transfersControl : Operation → Bool
  | .jump _ | .branchOnBit .. | .implied .brk | .implied .rti | .implied .rts => true
  | _ => false

/-- Whether the processor goes on behind the operation. -/
def straight (o : Operation) : Bool := !o.transfersControl && o != .implied .stp

end Operation

/-! ### Operations -/

namespace Plan

def operation : Plan → Operation
  | .implied op => .implied op
  | .modifyA op | .modify op _ => .modify op
  | .readImmediate op | .read op _ => .read op
  | .store register _ => .store register
  | .jump op _ => .jump op
  | .storeImmediate => .storeImmediate
  | .branchOnBitOfA bit whenSet | .branchOnBitOfCell bit whenSet => .branchOnBit bit whenSet

end Plan

namespace Opcode

theorem operation_plan : ∀ opcode : Byte,
    (plan opcode).operation = (instruction opcode).operation := by
  decide +kernel

end Opcode

namespace Processor

/-- The program counter and the stop latch are the same. -/
def SamePlace (p p' : Processor) : Prop := p'.pc = p.pc ∧ p'.stopped = p.stopped

theorem load_samePlace (p : Processor) (value : Byte) (r : Register) :
    p.SamePlace (p.load value r) := by
  cases r <;> exact ⟨rfl, rfl⟩

theorem push_samePlace (p : Processor) (value : Byte) : (p.push value).Ensures p.SamePlace :=
  ⟨rfl, rfl⟩

theorem pullFlags_samePlace (p : Processor) : p.pullFlags.Ensures p.SamePlace :=
  fun _ => ⟨rfl, rfl⟩

end Processor

theorem StackOp.perform_samePlace (op : StackOp) (p : Processor) :
    (op.perform p).Ensures p.SamePlace := by
  cases op with
  | pha => exact p.push_samePlace _
  | php => exact p.push_samePlace _
  | pla => exact fun value => Processor.load_samePlace { p with s := p.s + 1 } value .a
  | plp => exact p.pullFlags_samePlace

theorem Count.apply_samePlace (step : Count) (p : Processor) : p.SamePlace (step.apply p) := by
  rcases step with i | i <;> exact p.load_samePlace _ _

theorem Transfer.apply_samePlace (op : Transfer) (p : Processor) : p.SamePlace (op.apply p) := by
  cases op with
  | txs => exact ⟨rfl, rfl⟩
  | _ => exact p.load_samePlace _ _

theorem Implied.perform_samePlace {op : Implied} (h : (Operation.implied op).straight = true)
    (p : Processor) : (op.perform p).Ensures p.SamePlace := by
  cases op with
  | brk | rti | rts | stp => cases h
  | nop | flag | clock => exact ⟨rfl, rfl⟩
  | count step => exact step.apply_samePlace p
  | stack op => exact op.perform_samePlace p
  | transfer op => exact op.apply_samePlace p

theorem Accumulate.perform_samePlace (op : Accumulate) (value : Byte) (p : Processor) :
    (op.perform value p).Ensures p.SamePlace := by
  unfold perform
  split
  · split
    · simp only [ensures_bind, ensures_fetch]
      intro target
      split <;> exact ⟨rfl, rfl⟩
    · simp only [ensures_bind, ensures_pure]
      split <;> exact ⟨rfl, rfl⟩
  · split <;> exact ⟨rfl, rfl⟩

theorem Reading.perform_samePlace (op : Reading) (value : Byte) (p : Processor) :
    (op.perform value p).Ensures p.SamePlace := by
  cases op with
  | accumulate op => exact op.perform_samePlace value p
  | load i => exact p.load_samePlace _ _
  | compare | bit | test => exact ⟨rfl, rfl⟩

namespace Plan

/-- A plan that neither transfers control nor stops leads to the instruction behind it. -/
theorem perform_straight {plan : Plan} (h : plan.operation.straight = true) (size : Nat)
    (p : Processor) :
    (plan.perform size p).Ensures fun o =>
      (p.advance size).SamePlace o.processor ∧ o.branched = false := by
  cases plan with
  | implied op =>
    simp only [perform, ensures_bind, ensures_pure]
    exact (Implied.perform_samePlace h _).imp fun _ hp => ⟨hp, trivial⟩
  | modifyA op => exact ⟨⟨rfl, rfl⟩, rfl⟩
  | readImmediate op =>
    simp only [perform, ensures_bind, ensures_pure]
    exact fun value => (op.perform_samePlace value _).imp fun _ hp => ⟨hp, trivial⟩
  | read op locator =>
    simp only [perform, ensures_bind, ensures_pure]
    exact ensures_of_forall fun address => fun value =>
      (op.perform_samePlace value _).imp fun _ hp => ⟨hp, trivial⟩
  | store | modify =>
    simp only [perform, Modifying.performAt, ensures_bind, ensures_pure]
    exact ensures_of_forall fun address => ensures_of_forall fun _ => ⟨⟨rfl, rfl⟩, trivial⟩
  | storeImmediate => exact fun _ _ => ⟨⟨rfl, rfl⟩, rfl⟩
  | jump | branchOnBitOfA | branchOnBitOfCell => cases h

end Plan

namespace Opcode

theorem perform_straight {opcode : Byte} (h : (instruction opcode).operation.straight = true)
    (p : Processor) :
    (perform opcode p).Ensures fun o =>
      (p.advance (instruction opcode).size).SamePlace o.processor ∧ o.branched = false :=
  Plan.perform_straight ((operation_plan opcode).symm ▸ h) _ p

end Opcode

/-! ### Entries -/

namespace Operation

/-- What an operation costs on top in index mode. -/
def surcharge : Operation → Nat
  | .read (.accumulate op) => Timing.indexModeSurcharge op
  | _ => 0

end Operation

namespace Opcode

theorem cost_of_undefined : ∀ (opcode : Byte) (indexMode : Bool),
    decode? opcode = none → Timing.cost opcode indexMode = 2 := by
  decide +kernel

theorem cost_eq : ∀ (opcode : Byte) (indexMode : Bool), Timing.cost opcode indexMode =
    Timing.cost opcode false +
      if indexMode then (instruction opcode).operation.surcharge else 0 := by
  decide +kernel

end Opcode

namespace Entry

/-- The entry neither transfers control nor stops, and no end cuts it off. -/
structure Straight (e : Entry) : Prop where
  complete : e.instruction = Opcode.decode? e.opcode
  stays : ∀ i ∈ e.instruction, i.operation.transfersControl = false
  runs : ∀ i ∈ e.instruction, i.operation ≠ .implied .stp

/-- What performing the entry costs. -/
def charge (e : Entry) (indexMode : Bool) : Nat :=
  match e.instruction with
  | none => 2
  | some i => e.cycles + if indexMode then i.operation.surcharge else 0

section
variable {e : Entry}

theorem Straight.operation (h : e.Straight) :
    (Opcode.instruction e.opcode).operation.straight = true := by
  cases hi : e.instruction with
  | none =>
    rw [Opcode.instruction_of_undefined (h.complete.symm.trans hi)]
    rfl
  | some i =>
    rw [Opcode.instruction_of_decode? (h.complete.symm.trans hi), Operation.straight, h.stays i hi,
      Bool.not_false, Bool.true_and, bne_iff_ne]
    exact h.runs i hi

theorem Straight.size_eq (h : e.Straight) (he : e.Listed) :
    (Opcode.instruction e.opcode).size = e.bytes.length := by
  rw [bytes, List.length_cons]
  cases he with
  | data hi hoperands =>
    rw [Opcode.instruction_of_undefined (h.complete.symm.trans hi), hoperands]
    rfl
  | whole i hd _ hoperands =>
    rw [Opcode.instruction_of_decode? hd, hoperands, Instruction.size, Mode.size, Nat.add_comm]

theorem Straight.charge_eq (h : e.Straight) (he : e.Listed) (indexMode : Bool) :
    e.charge indexMode = Timing.cost e.opcode indexMode := by
  unfold charge
  cases he with
  | data hi =>
    rw [Opcode.cost_of_undefined _ _ (h.complete.symm.trans hi), hi]
  | whole i hd hi _ _ hcycles =>
    rw [Opcode.cost_eq, Opcode.instruction_of_decode? hd, hi, hcycles]

end

end Entry

/-! ### Steps -/

namespace Machine

variable {σ : Type} [Device σ]

/-- A step over a straight entry. -/
theorem step_straight {m : Machine σ} {opcode : Byte} {rest : List Byte}
    (hs : m.core.processor.stopped = false)
    (hrom : RomHolds m.bus.rom m.core.processor.pc (opcode :: rest))
    (h : (Entry.first m.core.processor.pc opcode rest).Straight) :
    let e := Entry.first m.core.processor.pc opcode rest
    let r := m.call trace [] .step
    r.1 = .units (e.charge m.core.processor.flags.t) ∧
      (m.after .step).core.processor.pc = e.next ∧
      (m.after .step).core.processor.stopped = false ∧
      (m.after .step).bus.rom = m.bus.rom ∧
      Event.fetches r.2.2 = [(m.core.processor.pc, opcode)] ∧
      ∀ e ∈ r.2.2.head?, e.isFetch = false := by
  intro e r
  obtain ⟨cell, hplace, hcell⟩ := hrom.head
  have he : e.Listed := Entry.listed_first _ _ _
  have hopcode : e.opcode = opcode := Entry.opcode_first _ _ _
  have haddress : Address.ofWord e.address = m.core.processor.pc := by
    rw [Entry.address_first, Address.ofWord_toWord]
  have hread : m.bus.read m.core.processor.pc = (opcode, m.bus) :=
    hcell ▸ m.bus.read_of_rom hplace
  obtain ⟨⟨hpc, hstopped⟩, hbranched⟩ :=
    (Opcode.perform_straight (hopcode ▸ h.operation) m.core.processor).run trace m.bus []
  have hquiet := (Opcode.perform_quiet opcode m.core.processor).run m.bus (List.forall_mem_nil _)
  have hafter : m.after .step = r.2.1 := (m.call_machine trace [] .step).symm
  rw [hafter]
  simp only [r, call_step trace [] hs, Processor.performNext_run hread]
  refine ⟨?_, ?_, hstopped.trans hs, run_rom _ _ _ _, ?_, ?_⟩
  · rw [h.charge_eq he, hopcode, Opcode.charge, hbranched]
    rfl
  · rw [hpc, he.next_eq, ← h.size_eq he, hopcode, haddress]
    rfl
  · rw [Event.fetches, Event.fetches_of_quiet hquiet]
  · rintro e' ⟨⟩
    rfl

/-- Steps over the entries of a listing, as many as there are straight ones at its beginning. -/
theorem steps_straight {m : Machine σ} {bytes : List Byte} {k : Nat}
    (hs : m.core.processor.stopped = false)
    (hrom : RomHolds m.bus.rom m.core.processor.pc bytes)
    (hk : k ≤ (Listing.entries m.core.processor.pc bytes).length)
    (h : ∀ e ∈ (Listing.entries m.core.processor.pc bytes).take k, e.Straight) :
    let es := (Listing.entries m.core.processor.pc bytes).take k
    let r := m.calls trace [] (List.replicate k .step)
    r.1 = es.mapIdx (fun i e => .units
        (e.charge (m.afterAll (List.replicate i .step)).core.processor.flags.t)) ∧
      r.2.1.core.processor.pc = es.getLast?.elim m.core.processor.pc Entry.next ∧
      Event.fetches r.2.2 = es.map (fun e => (Address.ofWord e.address, e.opcode)) ∧
      ∀ e ∈ r.2.2.head?, e.isFetch = false := by
  induction k generalizing m bytes with
  | zero => exact ⟨rfl, rfl, rfl, fun e he => by cases he⟩
  | succ k ih =>
    cases bytes with
    | nil => rw [Listing.entries_nil] at hk; cases hk
    | cons opcode rest =>
      rw [Listing.entries_cons, List.length_cons] at hk
      rw [Listing.entries_cons, List.take_succ_cons] at h ⊢
      have hfirst := h _ List.mem_cons_self
      obtain ⟨hunits, hpc, hstopped, hkeeps, hfetch, hhead⟩ := step_straight hs hrom hfirst
      have hrest : RomHolds (m.after .step).bus.rom (m.after .step).core.processor.pc
          (rest.drop (Entry.first m.core.processor.pc opcode rest).operands.length) := by
        rw [← Entry.bytes_first m.core.processor.pc opcode rest] at hrom
        rw [hkeeps, hpc, (Entry.listed_first _ _ _).next_eq, Entry.address_first,
          Address.ofWord_toWord]
        exact hrom.behind
      rw [← hpc] at h hk ⊢
      obtain ⟨ihunits, ihpc, ihfetch, ihhead⟩ := ih hstopped hrest (Nat.le_of_succ_le_succ hk)
        fun e he => h e (List.mem_cons_of_mem _ he)
      simp only [List.replicate_succ, calls_trace_cons]
      refine ⟨?_, ?_, ?_, ?_⟩
      · rw [List.mapIdx_cons, ihunits, hunits]
        rfl
      · rw [ihpc, List.getLast?_cons, hpc]
        cases (List.take k _).getLast? <;> rfl
      · rw [Event.fetches_append ihhead, hfetch, ihfetch, List.map_cons, Entry.address_first,
          Address.ofWord_toWord, Entry.opcode_first]
        rfl
      · intro e he
        rw [List.head?_append] at he
        rcases Option.or_eq_some_iff.1 he with he | ⟨-, he⟩
        · exact hhead e he
        · exact ihhead e he

end Machine

end M740
