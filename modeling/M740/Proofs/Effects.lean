import M740.Proofs.Stores

/-!
# Effects

Each flag and each register has few operations that can change it: `Flag.changers`,
`Operation.pointerChangers`, `Index.changers` and `Instruction.changesA` list them, and whatever is
not listed leaves it alone. Operations that describe a result by N and Z describe the byte that they
deliver, to a register or to memory (`Machine.step_effects`).
-/

namespace M740

open Program

/-! ### Tables -/

namespace Flag

/-- The operations that describe a byte by N and Z. -/
def describers : List Operation := [
  .read (.accumulate .ora), .read (.accumulate .and), .read (.accumulate .eor),
  .read (.accumulate .adc), .read (.accumulate .sbc), .read (.accumulate .cmp),
  .read (.accumulate .lda), .read (.compare .x), .read (.compare .y), .read .bit, .read .test,
  .read (.load .x), .read (.load .y), .modify .asl, .modify .lsr, .modify .rol, .modify .ror,
  .modify .complement, .modify .inc, .modify .dec, .implied (.count (.up .x)),
  .implied (.count (.up .y)), .implied (.count (.down .x)), .implied (.count (.down .y)),
  .implied (.transfer .tax), .implied (.transfer .tay), .implied (.transfer .txa),
  .implied (.transfer .tya), .implied (.transfer .tsx), .implied (.stack .pla),
  .implied (.stack .plp), .implied .rti]

/-- Of these, the comparisons and tests, which deliver no byte, and those that restore all flags. -/
def undelivered : List Operation := [
  .read (.accumulate .cmp), .read (.compare .x), .read (.compare .y), .read .bit, .read .test,
  .implied (.stack .plp), .implied .rti]

/-- The operations that can change the flag. -/
def changers : Flag → List Operation
  | .negative | .zero => describers
  | .overflow => [.read (.accumulate .adc), .read (.accumulate .sbc), .read .bit,
    .implied (.flag .clv), .implied (.stack .plp), .implied .rti]
  | .indexMode => [.implied (.flag .set), .implied (.flag .clt), .implied (.stack .plp),
    .implied .rti]
  | .decimal => [.implied (.flag .sed), .implied (.flag .cld), .implied (.stack .plp),
    .implied .rti]
  | .interruptDisable => [.implied (.flag .sei), .implied (.flag .cli), .implied .brk,
    .implied (.stack .plp), .implied .rti]
  | .carry => [.read (.accumulate .adc), .read (.accumulate .sbc), .read (.accumulate .cmp),
    .read (.compare .x), .read (.compare .y), .modify .asl, .modify .lsr, .modify .rol,
    .modify .ror, .implied (.flag .clc), .implied (.flag .sec), .implied (.stack .plp),
    .implied .rti]

end Flag

/-- The operations that can change S. -/
def Operation.pointerChangers : List Operation := [
  .implied (.stack .pha), .implied (.stack .php), .implied (.stack .pla), .implied (.stack .plp),
  .jump .call, .implied .rts, .implied .rti, .implied .brk, .implied (.transfer .txs)]

/-- The operations that can change the index register. -/
def Index.changers : Index → List Operation
  | .x => [.read (.load .x), .implied (.count (.up .x)), .implied (.count (.down .x)),
    .implied (.transfer .tax), .implied (.transfer .tsx)]
  | .y => [.read (.load .y), .implied (.count (.up .y)), .implied (.count (.down .y)),
    .implied (.transfer .tay)]

/-- Whether the instruction can change A, in index mode or outside it. -/
def Instruction.changesA (i : Instruction) (indexMode : Bool) : Bool :=
  match i.operation with
  | .read (.accumulate op) => !indexMode && op != .cmp
  | .modify .asl | .modify .lsr | .modify .rol | .modify .ror | .modify .inc | .modify .dec
  | .modify (.setBit _) | .modify (.clearBit _) => i.mode == .accumulator
  | .implied (.transfer .txa) | .implied (.transfer .tya) | .implied (.stack .pla) => true
  | _ => false

/-! ### Flags -/

section
variable {flag : Flag}

theorem Accumulate.apply_get {op : Accumulate} (h : .read (.accumulate op) ∉ flag.changers)
    (f : Flags) (target value : Byte) : (op.apply f target value).2.get flag = f.get flag := by
  cases op with
  | adc =>
    show (Alu.add f target value).2.get flag = f.get flag
    unfold Alu.add
    cases flag with
    | decimal | interruptDisable | indexMode => split <;> rfl
    | negative | zero | overflow | carry => exact absurd (by decide) h
  | sbc =>
    show (Alu.subtract f target value).2.get flag = f.get flag
    unfold Alu.subtract
    cases flag with
    | decimal | interruptDisable | indexMode => split <;> rfl
    | negative | zero | overflow | carry => exact absurd (by decide) h
  | ora | and | eor | cmp | lda =>
    cases flag <;> first | rfl | exact absurd (by decide) h

theorem Modifying.apply_get {op : Modifying} (h : .modify op ∉ flag.changers) (f : Flags)
    (value : Byte) : (op.apply f value).2.get flag = f.get flag := by
  cases op <;> cases flag <;> first | rfl | exact absurd (by decide) h

theorem FlagChange.apply_get {change : FlagChange}
    (h : .implied (.flag change) ∉ flag.changers) (f : Flags) :
    (change.apply f).get flag = f.get flag := by
  cases change <;> cases flag <;> first | rfl | exact absurd (by decide) h

theorem Count.apply_get {step : Count} (h : .implied (.count step) ∉ flag.changers)
    (p : Processor) : (step.apply p).flags.get flag = p.flags.get flag := by
  rcases step with (_ | _) | (_ | _) <;> cases flag <;> first | rfl | exact absurd (by decide) h

theorem Transfer.apply_get {op : Transfer} (h : .implied (.transfer op) ∉ flag.changers)
    (p : Processor) : (op.apply p).flags.get flag = p.flags.get flag := by
  cases op <;> cases flag <;> first | rfl | exact absurd (by decide) h

theorem Reading.perform_get {op : Reading} (h : .read op ∉ flag.changers) (value : Byte)
    (p : Processor) :
    (op.perform value p).Ensures fun p' => p'.flags.get flag = p.flags.get flag := by
  cases op with
  | accumulate op =>
    exact Accumulate.perform_ensures fun target _ => Accumulate.apply_get h p.flags target value
  | load i | compare i => cases i <;> cases flag <;> first | rfl | exact absurd (by decide) h
  | bit | test => cases flag <;> first | rfl | exact absurd (by decide) h

theorem Implied.perform_get {op : Implied} (h : .implied op ∉ flag.changers) (p : Processor) :
    (op.perform p).Ensures fun p' => p'.flags.get flag = p.flags.get flag := by
  cases op with
  | brk =>
    intro _ _
    cases flag <;> first | rfl | exact absurd (by decide) h
  | rti => cases flag <;> exact absurd (by decide) h
  | rts => exact fun _ _ => rfl
  | stp | nop | clock => rfl
  | flag change => exact FlagChange.apply_get h p.flags
  | count step => exact Count.apply_get h p
  | stack op =>
    cases op with
    | pha | php => rfl
    | pla =>
      intro _
      cases flag <;> first | rfl | exact absurd (by decide) h
    | plp => cases flag <;> exact absurd (by decide) h
  | transfer op => exact Transfer.apply_get h p

end

/-! ### Registers -/

section
variable {j : Index}

theorem Reading.perform_index {op : Reading} (h : .read op ∉ j.changers) (value : Byte)
    (p : Processor) : (op.perform value p).Ensures fun p' => p'.index j = p.index j := by
  cases op with
  | accumulate op => exact Accumulate.perform_ensures fun _ _ => by cases j <;> rfl
  | load i => cases i <;> cases j <;> first | rfl | exact absurd (by decide) h
  | compare | bit | test => cases j <;> rfl

theorem Implied.perform_index {op : Implied} (h : .implied op ∉ j.changers) (p : Processor) :
    (op.perform p).Ensures fun p' => p'.index j = p.index j := by
  cases op with
  | brk | rts => exact fun _ _ => by cases j <;> rfl
  | rti => exact fun _ _ _ => by cases j <;> rfl
  | stp | nop | flag | clock => cases j <;> rfl
  | count step =>
    rcases step with (_ | _) | (_ | _) <;> cases j <;> first | rfl | exact absurd (by decide) h
  | stack op =>
    cases op with
    | pha | php => cases j <;> rfl
    | pla | plp => exact fun _ => by cases j <;> rfl
  | transfer op => cases op <;> cases j <;> first | rfl | exact absurd (by decide) h

end

/-- What works on A is redirected in index mode. -/
theorem Accumulate.perform_a {op : Accumulate} {p : Processor} (h : p.flags.t = false → op = .cmp)
    (value : Byte) : (op.perform value p).Ensures fun p' => p'.a = p.a := by
  cases ht : p.flags.t with
  | true =>
    rw [perform, if_pos ht]
    cases op with
    | lda => rfl
    | ora | and | eor | adc | sbc | cmp => exact fun _ => rfl
  | false =>
    obtain rfl : op = .cmp := h ht
    rw [perform_of_clear .cmp ht]
    rfl

section
variable {mode : Mode} {t : Bool}

theorem Reading.perform_a {op : Reading}
    (h : Instruction.changesA ⟨.read op, mode⟩ t = false) (value : Byte) (p : Processor)
    (ht : p.flags.t = t) :
    (op.perform value p).Ensures fun p' => p'.a = p.a := by
  subst ht
  cases op with
  | accumulate op =>
    refine Accumulate.perform_a ?_ value
    simpa [Instruction.changesA] using h
  | load i => cases i <;> rfl
  | compare | bit | test => rfl

theorem Modifying.performOnA_a {op : Modifying}
    (h : Instruction.changesA ⟨.modify op, .accumulator⟩ t = false)
    (hop : op ∉ [.complement, .rotateNibbles]) (p : Processor) : (op.performOnA p).a = p.a := by
  cases op with
  | complement | rotateNibbles => exact absurd (by decide) hop
  | asl | lsr | rol | ror | inc | dec | setBit | clearBit => cases h

theorem Implied.perform_a {op : Implied}
    (h : Instruction.changesA ⟨.implied op, mode⟩ t = false) (p : Processor) :
    (op.perform p).Ensures fun p' => p'.a = p.a := by
  cases op with
  | brk | rts => exact fun _ _ => rfl
  | rti => exact fun _ _ _ => rfl
  | stp | nop | flag | clock => rfl
  | count step => rcases step with (_ | _) | (_ | _) <;> rfl
  | stack op =>
    cases op with
    | pha | php => rfl
    | pla => cases h
    | plp => exact fun _ => rfl
  | transfer op =>
    cases op with
    | txa | tya => cases h
    | tax | tay | tsx | txs => rfl

end

theorem Operation.stackUse_eq_none {o : Operation} (h : o ∉ pointerChangers) :
    o.stackUse = .none := by
  unfold stackUse
  split <;> first | rfl | exact absurd (by decide) h

/-! ### Instructions -/

/-- A, the index registers and the flags are the same. -/
def Processor.SameData (p p' : Processor) : Prop :=
  p'.a = p.a ∧ (∀ j, p'.index j = p.index j) ∧ p'.flags = p.flags

theorem Processor.branchIf_sameData (p : Processor) (condition : Bool) (target : Address) :
    p.SameData (p.branchIf condition target).processor := by
  cases condition <;> exact ⟨rfl, fun _ => rfl, rfl⟩

theorem Jumping.perform_sameData (op : Jumping) (target : Address) (p : Processor) :
    (op.perform target p).Ensures fun o => p.SameData o.processor := by
  cases op with
  | branch condition => exact p.branchIf_sameData _ _
  | always | jump | call => exact ⟨rfl, fun _ => rfl, rfl⟩

/-- Stores and jumps work on no data of the processor, and what the other instructions do to it is
done by their operations. -/
theorem Plan.perform_ensures {plan : Plan} {size : Nat} {p : Processor} {Q : Processor → Prop}
    (hsame : ∀ p', p.SameData p' → Q p')
    (hread : ∀ op value, plan.operation = .read op →
      (op.perform value (p.advance size)).Ensures Q)
    (hmodify : ∀ op value, plan.operation = .modify op →
      Q { p.advance size with flags := (op.apply p.flags value).2 })
    (hmodifyA : ∀ op, plan = .modifyA op → Q (op.performOnA (p.advance size)))
    (himplied : ∀ op, plan.operation = .implied op → (op.perform (p.advance size)).Ensures Q) :
    (plan.perform size p).Ensures fun o => Q o.processor := by
  cases plan with
  | implied op =>
    simp only [perform, ensures_bind, ensures_pure]
    exact himplied op rfl
  | modifyA op => exact hmodifyA op rfl
  | readImmediate op =>
    simp only [perform, ensures_bind, ensures_pure]
    exact fun value => hread op value rfl
  | read op l =>
    simp only [perform, ensures_bind, ensures_pure]
    exact ensures_of_forall fun _ => fun value => hread op value rfl
  | modify op l =>
    simp only [perform, Modifying.performAt, ensures_bind, ensures_pure]
    exact ensures_of_forall fun _ => fun value => hmodify op value rfl
  | store register l =>
    simp only [perform, ensures_bind, ensures_pure]
    exact ensures_of_forall fun _ => hsame _ ⟨rfl, fun _ => rfl, rfl⟩
  | jump op l =>
    simp only [perform, ensures_bind]
    exact ensures_of_forall fun target =>
      (op.perform_sameData target (p.advance size)).imp fun _ h => hsame _ h
  | storeImmediate => exact fun _ _ => hsame _ ⟨rfl, fun _ => rfl, rfl⟩
  | branchOnBitOfA => exact fun _ => hsame _ ((p.advance size).branchIf_sameData _ _)
  | branchOnBitOfCell => exact fun _ _ _ => hsame _ ((p.advance size).branchIf_sameData _ _)

namespace Plan

variable {plan : Plan} (size : Nat) (p : Processor)

theorem perform_get {flag : Flag} (h : plan.operation ∉ flag.changers) :
    (plan.perform size p).Ensures fun o => o.processor.flags.get flag = p.flags.get flag := by
  refine perform_ensures (fun p' hp => congrArg (Flags.get · flag) hp.2.2)
    (fun op value hop => ?_) (fun op value hop => ?_) (fun op hop => ?_) fun op hop => ?_
  · exact Reading.perform_get (hop ▸ h) value (p.advance size)
  · exact Modifying.apply_get (hop ▸ h) p.flags value
  · subst hop
    exact Modifying.apply_get h p.flags p.a
  · exact Implied.perform_get (hop ▸ h) (p.advance size)

theorem perform_index {j : Index} (h : plan.operation ∉ j.changers) :
    (plan.perform size p).Ensures fun o => o.processor.index j = p.index j := by
  refine perform_ensures (fun p' hp => hp.2.1 j)
    (fun op value hop => ?_) (fun op value hop => ?_) (fun op hop => ?_) fun op hop => ?_
  · exact Reading.perform_index (hop ▸ h) value (p.advance size)
  · cases j <;> rfl
  · cases j <;> rfl
  · exact Implied.perform_index (hop ▸ h) (p.advance size)

theorem perform_a (h : plan.instruction.changesA p.flags.t = false)
    (hplan : ∀ op ∈ [Modifying.complement, .rotateNibbles], plan ≠ .modifyA op) :
    (plan.perform size p).Ensures fun o => o.processor.a = p.a := by
  unfold instruction at h
  refine perform_ensures (fun p' hp => hp.1)
    (fun op value hop => ?_) (fun op value hop => rfl) (fun op hop => ?_) fun op hop => ?_
  · rw [hop] at h
    exact Reading.perform_a h value (p.advance size) rfl
  · subst hop
    exact Modifying.performOnA_a h (fun hop => hplan op hop rfl) (p.advance size)
  · rw [hop] at h
    exact Implied.perform_a h (p.advance size)

end Plan

namespace Opcode

variable {opcode : Byte} (p : Processor)

theorem plan_ne_modifyA :
    ∀ opcode : Byte, ∀ op ∈ [Modifying.complement, .rotateNibbles], plan opcode ≠ .modifyA op := by
  decide +kernel

theorem perform_get {flag : Flag} (h : (instruction opcode).operation ∉ flag.changers) :
    (perform opcode p).Ensures fun o => o.processor.flags.get flag = p.flags.get flag := by
  rw [← operation_plan] at h
  exact Plan.perform_get _ p h

theorem perform_s (h : (instruction opcode).operation ∉ Operation.pointerChangers) :
    (perform opcode p).Ensures fun o => o.processor.s = p.s := by
  rw [← operation_plan] at h
  exact Plan.perform_s (Operation.stackUse_eq_none h) _ p

theorem perform_index {j : Index} (h : (instruction opcode).operation ∉ j.changers) :
    (perform opcode p).Ensures fun o => o.processor.index j = p.index j := by
  rw [← operation_plan] at h
  exact Plan.perform_index _ p h

theorem perform_a (h : (instruction opcode).changesA p.flags.t = false) :
    (perform opcode p).Ensures fun o => o.processor.a = p.a := by
  rw [← instruction_plan] at h
  exact Plan.perform_a _ p h (plan_ne_modifyA opcode)

end Opcode

/-! ### The byte that N and Z describe -/

/-- Where an instruction delivers its result. -/
inductive Destination where
  | register (r : Register)
  | memory
  deriving DecidableEq, Repr

/-- Where an instruction that describes its result by N and Z delivers it, in index mode or outside
it. -/
def Instruction.destination? (i : Instruction) (indexMode : Bool) : Option Destination :=
  match i.operation with
  | .read (.accumulate .cmp) => none
  | .read (.accumulate _) => some (if indexMode then .memory else .register .a)
  | .read (.load j) => some (.register j.register)
  | .modify .rotateNibbles | .modify (.setBit _) | .modify (.clearBit _) => none
  | .modify _ => some (if i.mode = .accumulator then .register .a else .memory)
  | .implied (.count (.up j)) | .implied (.count (.down j)) => some (.register j.register)
  | .implied (.transfer .tax) | .implied (.transfer .tsx) => some (.register .x)
  | .implied (.transfer .tay) => some (.register .y)
  | .implied (.transfer .txa) | .implied (.transfer .tya) | .implied (.stack .pla) =>
    some (.register .a)
  | _ => none

/-- N is bit 7 of the byte, and Z tells whether it is zero. -/
def Flags.Describes (f : Flags) (value : Byte) : Prop :=
  f.n = value.toNat.testBit 7 ∧ f.z = (value == 0)

/-- The byte has been delivered. -/
def Destination.Gets (d : Destination) (events : List Event) (p : Processor) (value : Byte) :
    Prop :=
  match d with
  | .register r => p.register r = value
  | .memory => ∃ address, Event.writes events = [(address, value)]

/-- A byte has been delivered, and N and Z describe it. -/
def Destination.Described (d : Destination) (events : List Event) (p : Processor) : Prop :=
  ∃ value, d.Gets events p value ∧ p.flags.Describes value

theorem Destination.Described.append {d : Destination} {events events' : List Event}
    {p : Processor} (hwrites : Event.writes events = []) (h : d.Described events' p) :
    d.Described (events ++ events') p := by
  obtain ⟨value, hgets, hdescribes⟩ := h
  refine ⟨value, ?_, hdescribes⟩
  cases d with
  | register r => exact hgets
  | memory =>
    obtain ⟨address, hwritten⟩ := hgets
    exact ⟨address, by rw [Event.writes_append, hwrites, hwritten]; rfl⟩

theorem Byte.negative_eq_testBit : ∀ b : Byte, b.negative = b.toNat.testBit 7 := by
  decide +kernel

theorem Flags.describes_describing (f : Flags) (value : Byte) :
    (f.describing value).Describes value :=
  ⟨value.negative_eq_testBit, rfl⟩

theorem Alu.add_describes (f : Flags) (target value : Byte) :
    (add f target value).2.Describes (add f target value).1 := by
  unfold add
  split <;> exact ⟨Byte.negative_eq_testBit _, rfl⟩

theorem Alu.subtract_describes (f : Flags) (target value : Byte) :
    (subtract f target value).2.Describes (subtract f target value).1 := by
  unfold subtract
  split <;> exact ⟨Byte.negative_eq_testBit _, rfl⟩

theorem Accumulate.apply_describes (op : Accumulate) (f : Flags) (target value : Byte) :
    ∀ result, (op.apply f target value).1 = some result →
      (op.apply f target value).2.Describes result := by
  intro result h
  cases op with
  | cmp => cases h
  | adc =>
    obtain rfl := Option.some.inj h
    exact Alu.add_describes f target value
  | sbc =>
    obtain rfl := Option.some.inj h
    exact Alu.subtract_describes f target value
  | ora | and | eor | lda =>
    obtain rfl := Option.some.inj h
    exact f.describes_describing _

section
variable {mode : Mode} {t : Bool} {d : Destination}

theorem Modifying.apply_describes {op : Modifying}
    (h : Instruction.destination? ⟨.modify op, mode⟩ t = some d) (f : Flags) (value : Byte) :
    (op.apply f value).2.Describes (op.apply f value).1 := by
  cases op with
  | rotateNibbles | setBit | clearBit => cases h
  | asl | lsr | rol | ror | inc | dec | complement => exact ⟨Byte.negative_eq_testBit _, rfl⟩

theorem Modifying.destination_eq {op : Modifying}
    (h : Instruction.destination? ⟨.modify op, mode⟩ t = some d) :
    d = if mode = .accumulator then .register .a else .memory := by
  cases op with
  | rotateNibbles | setBit | clearBit => cases h
  | asl | lsr | rol | ror | inc | dec | complement => exact (Option.some.inj h).symm

theorem Processor.load_described (p : Processor) (value : Byte) (r : Register)
    (events : List Event) : (Destination.register r).Described events (p.load value r) := by
  cases r <;> exact ⟨value, rfl, p.flags.describes_describing value⟩

theorem Accumulate.perform_described {op : Accumulate} (hcmp : op ≠ .cmp) (value : Byte)
    (p : Processor) :
    (op.perform value p).Shows
      (if p.flags.t then Destination.memory else .register .a).Described := by
  have hdescribes (target : Byte) := op.apply_describes p.flags target value
  cases ht : p.flags.t with
  | false =>
    rw [perform_of_clear op ht]
    cases op with
    | cmp => exact absurd rfl hcmp
    | ora | and | eor | adc | sbc | lda => exact ⟨_, rfl, hdescribes p.a _ rfl⟩
  | true =>
    rw [perform, if_pos ht]
    cases op with
    | cmp => exact absurd rfl hcmp
    | lda => exact ⟨_, ⟨_, rfl⟩, hdescribes 0 _ rfl⟩
    | ora | and | eor | adc | sbc => exact fun target => ⟨_, ⟨_, rfl⟩, hdescribes target _ rfl⟩

theorem Reading.perform_described {op : Reading}
    (h : Instruction.destination? ⟨.read op, mode⟩ t = some d) (value : Byte) (p : Processor)
    (ht : p.flags.t = t) :
    (op.perform value p).Shows d.Described := by
  subst ht
  cases op with
  | accumulate op =>
    cases op with
    | cmp => cases h
    | ora | and | eor | adc | sbc | lda =>
      obtain rfl := Option.some.inj h
      exact Accumulate.perform_described (by decide) value p
  | load j =>
    obtain rfl := Option.some.inj h
    exact p.load_described value j.register []
  | compare | bit | test => cases h

theorem Implied.perform_described {op : Implied}
    (h : Instruction.destination? ⟨.implied op, mode⟩ t = some d) (p : Processor) :
    (op.perform p).Shows d.Described := by
  cases op with
  | count step =>
    rcases step with j | j <;>
    · obtain rfl := Option.some.inj h
      exact p.load_described _ j.register []
  | stack op =>
    cases op with
    | pla =>
      obtain rfl := Option.some.inj h
      exact fun value => Processor.load_described { p with s := p.s + 1 } value .a _
    | pha | php | plp => cases h
  | transfer op =>
    cases op with
    | txs => cases h
    | tax | tay | txa | tya | tsx =>
      obtain rfl := Option.some.inj h
      exact p.load_described _ _ []
  | brk | rti | rts | stp | nop | flag | clock => cases h

end

theorem Plan.perform_described {plan : Plan} {p : Processor} {d : Destination}
    (h : plan.instruction.destination? p.flags.t = some d) (size : Nat) :
    (plan.perform size p).Shows fun events o => d.Described events o.processor := by
  cases plan with
  | implied op =>
    simp only [perform, shows_bind, shows_pure, List.append_nil]
    exact Implied.perform_described h (p.advance size)
  | modifyA op =>
    obtain rfl : d = .register .a := Modifying.destination_eq h
    exact ⟨_, rfl, Modifying.apply_describes h p.flags p.a⟩
  | readImmediate op =>
    simp only [perform, shows_bind, shows_pure, List.append_nil]
    intro value
    exact (Reading.perform_described h value (p.advance size) rfl).imp fun _ _ hd => hd.append rfl
  | read op l =>
    simp only [perform, shows_bind, shows_pure, List.append_nil]
    refine (l.locate_readOnly p).shows_writes.imp fun events address hwrites => ?_
    intro value
    refine (Reading.perform_described h value (p.advance size) rfl).imp fun _ _ hd => ?_
    exact (hd.append rfl).append hwrites
  | modify op l =>
    obtain rfl : d = .memory :=
      (Modifying.destination_eq h).trans (if_neg l.mode_ne_accumulator)
    simp only [perform, shows_bind, shows_pure, List.append_nil]
    refine (l.locate_readOnly p).shows_writes.imp fun events address hwrites => ?_
    intro value
    exact Destination.Described.append hwrites
      ⟨_, ⟨address, rfl⟩, Modifying.apply_describes h p.flags value⟩
  | store | storeImmediate | branchOnBitOfA | branchOnBitOfCell => cases h
  | jump op l => cases op <;> cases h

theorem Opcode.perform_described {opcode : Byte} {p : Processor} {d : Destination}
    (h : (instruction opcode).destination? p.flags.t = some d) :
    (perform opcode p).Shows fun events o => d.Described events o.processor := by
  rw [← instruction_plan] at h
  exact Plan.perform_described h _

theorem Instruction.destination?_isSome {i : Instruction} (h : i.operation ∈ Flag.describers)
    (hdelivered : i.operation ∉ Flag.undelivered) (t : Bool) : (i.destination? t).isSome := by
  have hall : ∀ o ∈ Flag.describers, o ∉ Flag.undelivered → ∀ mode ∈ Mode.all, ∀ t : Bool,
      ((⟨o, mode⟩ : Instruction).destination? t).isSome := by decide +kernel
  exact hall i.operation h hdelivered i.mode (Mode.mem_all _) t

/-! ### Steps -/

namespace Machine

variable {σ : Type} [Device σ]

theorem ensures_step {m : Machine σ} (hs : m.core.processor.stopped = false)
    {Q : Processor → Prop}
    (h : (Opcode.perform m.opcode m.core.processor).Ensures fun o => Q o.processor) :
    Q (m.call trace [] .step).2.1.core.processor := by
  rw [call_step trace [] hs]
  exact Processor.performNext_run_ensures trace h []

theorem described_step {m : Machine σ} (hs : m.core.processor.stopped = false) {d : Destination}
    (hd : m.instruction.destination? m.core.processor.flags.t = some d) :
    let r := m.call trace [] .step
    d.Described r.2.2 r.2.1.core.processor := by
  have h := (Opcode.perform_described hd).run m.fetched
  dsimp only
  rw [step_trace hs]
  -- in front of what the instruction does stands the fetch of its opcode
  have hfetch : Event.writes [.read m.core.processor.pc m.opcode,
      .note (.fetch m.core.processor m.opcode)] = [] := rfl
  exact Destination.Described.append hfetch h

theorem footprint_of_writes {m : Machine σ} (hs : m.core.processor.stopped = false)
    {address : Address} {value : Byte}
    (h : Event.writes (m.call trace [] .step).2.2 = [(address, value)]) :
    m.footprint = [address] := by
  have hstores : m.stores = [(address, value)] := (stores_step hs).writes.symm.trans h
  rw [← m.map_fst_stores, hstores]
  rfl

/-- Each flag and each register is changed by the operations listed for it and by no others, and N
and Z describe the byte that an operation delivers to its register, or stores at the one address of
its footprint, whatever becomes of it there. -/
theorem step_effects (m : Machine σ) (hs : m.core.processor.stopped = false) :
    let p := m.core.processor
    let i := m.instruction
    let r := m.call trace [] .step
    let p' := r.2.1.core.processor
    (∀ flag : Flag, p'.flags.get flag ≠ p.flags.get flag → i.operation ∈ flag.changers) ∧
    (p'.s ≠ p.s → i.operation ∈ Operation.pointerChangers) ∧
    (p'.y ≠ p.y → i.operation ∈ Index.y.changers) ∧
    (p'.x ≠ p.x → i.operation ∈ Index.x.changers) ∧
    (p'.a ≠ p.a → i.changesA p.flags.t = true) ∧
    (i.operation ∈ Flag.describers → i.operation ∉ Flag.undelivered →
      ∃ value,
        (match i.destination? p.flags.t with
          | some (.register register) => p'.register register = value
          | some .memory =>
            ∃ address, m.footprint = [address] ∧ Event.writes r.2.2 = [(address, value)]
          | none => False) ∧
        p'.flags.n = value.toNat.testBit 7 ∧ p'.flags.z = (value == 0)) := by
  intro p i r p'
  refine ⟨fun flag hne => ?_, fun hne => ?_, fun hne => ?_, fun hne => ?_, fun hne => ?_,
    fun h hdelivered => ?_⟩
  · by_contra hi
    exact hne (ensures_step (Q := (·.flags.get flag = p.flags.get flag)) hs
      (Opcode.perform_get p hi))
  · by_contra hi
    exact hne (ensures_step (Q := (·.s = p.s)) hs (Opcode.perform_s p hi))
  · by_contra hi
    exact hne (ensures_step (Q := (·.index .y = p.index .y)) hs (Opcode.perform_index p hi))
  · by_contra hi
    exact hne (ensures_step (Q := (·.index .x = p.index .x)) hs (Opcode.perform_index p hi))
  · by_contra hi
    exact hne (ensures_step (Q := (·.a = p.a)) hs (Opcode.perform_a p (Bool.eq_false_iff.2 hi)))
  · obtain ⟨d, hd⟩ := Option.isSome_iff_exists.1
      (Instruction.destination?_isSome h hdelivered p.flags.t)
    obtain ⟨value, hgets, hn, hz⟩ := described_step hs hd
    refine ⟨value, ?_, hn, hz⟩
    rw [hd]
    cases d with
    | register register => exact hgets
    | memory =>
      obtain ⟨address, hwrites⟩ := hgets
      exact ⟨address, footprint_of_writes hs hwrites, hwrites⟩

/-- At an instruction in RAM, with a byte on the stack. -/
def atOpcode (opcode : Byte) : Machine Unconnected :=
  (fresh {}).afterAll
    [.write 0x10 opcode, .write 0x05 0x80, .set (.pc 0x10), .set (.stackPointer 4)]

/-- A pull of A, a count of each index register, and a sum that goes to memory. -/
theorem step_effects_each :
    let pull := atOpcode 0x68
    let countX := atOpcode 0xE8
    let countY := atOpcode 0xC8
    let pulled := (pull.call trace [] .step).2.1.core.processor
    (pulled.flags.get .negative ≠ pull.core.processor.flags.get .negative ∧
      pull.instruction.operation ∈ Flag.changers .negative) ∧
    (pulled.s ≠ pull.core.processor.s ∧ pull.instruction.operation ∈ Operation.pointerChangers) ∧
    (pulled.a ≠ pull.core.processor.a ∧ pull.instruction.changesA false = true) ∧
    ((countX.call trace [] .step).2.1.core.processor.x ≠ countX.core.processor.x ∧
      countX.instruction.operation ∈ Index.x.changers) ∧
    ((countY.call trace [] .step).2.1.core.processor.y ≠ countY.core.processor.y ∧
      countY.instruction.operation ∈ Index.y.changers) ∧
    selfAdding.instruction.operation ∈ Flag.describers ∧
    selfAdding.instruction.operation ∉ Flag.undelivered ∧
    ∃ value address, selfAdding.footprint = [address] ∧
      Event.writes (selfAdding.call trace [] .step).2.2 = [(address, value)] ∧
      (selfAdding.call trace [] .step).2.1.core.processor.flags.n = value.toNat.testBit 7 := by
  intro pull countX countY pulled
  obtain ⟨hpull, hX, hY, hadd⟩ : pull.core.processor.stopped = false ∧
      countX.core.processor.stopped = false ∧ countY.core.processor.stopped = false ∧
      selfAdding.core.processor.stopped = false := by decide +kernel
  obtain ⟨hn, hs, ha⟩ :
      pulled.flags.get .negative ≠ pull.core.processor.flags.get .negative ∧
        pulled.s ≠ pull.core.processor.s ∧ pulled.a ≠ pull.core.processor.a := by
    decide +kernel
  have hx : (countX.call trace [] .step).2.1.core.processor.x ≠ countX.core.processor.x := by
    decide +kernel
  have hy : (countY.call trace [] .step).2.1.core.processor.y ≠ countY.core.processor.y := by
    decide +kernel
  have hdescribes : selfAdding.instruction.operation ∈ Flag.describers := by decide +kernel
  have hdelivers : selfAdding.instruction.operation ∉ Flag.undelivered := by decide +kernel
  have hmemory : selfAdding.instruction.destination? selfAdding.core.processor.flags.t =
      some .memory := by decide +kernel
  obtain ⟨hflag, hpointer, -, -, hA, -⟩ := step_effects pull hpull
  obtain ⟨-, -, -, hcounted, -⟩ := step_effects countX hX
  obtain ⟨-, -, hcounted', -⟩ := step_effects countY hY
  obtain ⟨-, -, -, -, -, hdelivered⟩ := step_effects selfAdding hadd
  obtain ⟨value, hgets, hvalue, -⟩ := hdelivered hdescribes hdelivers
  rw [hmemory] at hgets
  obtain ⟨address, hfootprint, hwrites⟩ := hgets
  exact ⟨⟨hn, hflag _ hn⟩, ⟨hs, hpointer hs⟩, ⟨ha, hA ha⟩, ⟨hx, hcounted hx⟩, ⟨hy, hcounted' hy⟩,
    hdescribes, hdelivers, value, address, hfootprint, hwrites, hvalue⟩

end Machine

end M740
