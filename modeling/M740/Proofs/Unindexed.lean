import M740.Proofs.Metering
import M740.Proofs.Operands

/-!
# Instructions without index mode

Index mode is for accumulator operations. With all others T has no part in what happens: the
transactions are the same, and so is what becomes of the processor, but for T itself
(`Opcode.perform_unindexed`). A status byte on the stack shows T, so the two instructions that push
one are looked at apart; nothing that they do depends on what they pushed (`Plan.perform_pushes`).
-/

namespace M740

open Program

/-! ### Instructions that T has no part in -/

namespace Processor

/-- The same processor with T clear. -/
def unindexed (p : Processor) : Processor := { p with flags := { p.flags with t := false } }

end Processor

/-- The same outcome with T clear. -/
def Outcome.unindexed (o : Outcome) : Outcome := { o with processor := o.processor.unindexed }

/-- The byte of the stack that an instruction pushes the status to, and what it pushes. -/
def Operation.pushedStatus? (o : Operation) (p : Processor) : Option (Address × Byte) :=
  match o with
  | .implied (.stack .php) => some (Address.zeroPage p.s, p.status)
  | .implied .brk => some (Address.zeroPage (p.s - 1 - 1), p.status ||| breakMarker)
  | _ => none

section
variable (p : Processor)

/-- What comes first is the same, and what follows is so but for T. -/
theorem map_unindexed_bind {α : Type} (before : Program α) {f g : α → Program Outcome}
    (h : ∀ a, Outcome.unindexed <$> f a = Outcome.unindexed <$> g a) :
    Outcome.unindexed <$> (before >>= f) = Outcome.unindexed <$> (before >>= g) := by
  rw [map_bind, map_bind]
  exact congrArg (before >>= ·) (funext h)

theorem map_unindexed_processor {prog prog' : Program Processor}
    (h : Processor.unindexed <$> prog = Processor.unindexed <$> prog') :
    Outcome.unindexed <$> (do return { processor := ← prog }) =
      Outcome.unindexed <$> (do return { processor := ← prog' }) := by
  have hmap (prog : Program Processor) :
      Outcome.unindexed <$> (do return { processor := ← prog }) =
        (fun q => ({ processor := q } : Outcome)) <$> (Processor.unindexed <$> prog) := by
    simp only [map_eq_pure_bind, bind_assoc]
    rfl
  rw [hmap, hmap, h]

theorem Reading.perform_unindexed {op : Reading}
    (h : (Operation.read op).usesIndexMode = false) (value : Byte) :
    Processor.unindexed <$> op.perform value p.unindexed =
      Processor.unindexed <$> op.perform value p := by
  cases op with
  | accumulate => cases h
  | load i => cases i <;> rfl
  | compare i => cases i <;> rfl
  | bit | test => rfl

theorem Modifying.performOnA_unindexed (op : Modifying) :
    (op.performOnA p.unindexed).unindexed = (op.performOnA p).unindexed := by
  cases op <;> rfl

theorem Modifying.performAt_unindexed (op : Modifying) (address : Address) :
    Processor.unindexed <$> op.performAt address p.unindexed =
      Processor.unindexed <$> op.performAt address p := by
  cases op <;> rfl

theorem Processor.branchIf_unindexed (condition : Bool) (target : Address) :
    (p.unindexed.branchIf condition target).unindexed =
      (p.branchIf condition target).unindexed := by
  cases condition <;> rfl

theorem Jumping.perform_unindexed (op : Jumping) (target : Address) :
    Outcome.unindexed <$> op.perform target p.unindexed =
      Outcome.unindexed <$> op.perform target p := by
  cases op with
  | branch condition =>
    have hholds : condition.holds p.unindexed.flags = condition.holds p.flags := by
      cases condition <;> rfl
    simp only [perform, hholds]
    exact congrArg Program.done (p.branchIf_unindexed _ target)
  | always | jump | call => rfl

theorem Implied.perform_unindexed {op : Implied}
    (h : (Operation.implied op).pushedStatus? p = none) :
    Processor.unindexed <$> op.perform p.unindexed =
      Processor.unindexed <$> op.perform p := by
  cases op with
  | brk => cases h
  | rti | rts | stp | nop | clock => rfl
  | flag change => cases change <;> rfl
  | count step => rcases step with i | i <;> cases i <;> rfl
  | stack op =>
    cases op with
    | php => cases h
    | pha | pla | plp => rfl
  | transfer op => cases op <;> rfl

/-- T has no part in what a plan does if its operation neither is an accumulator operation nor
pushes the status: the transactions are the same, and so is the outcome, but for T itself. -/
theorem Plan.perform_unindexed {plan : Plan} (h : plan.operation.usesIndexMode = false)
    (hp : plan.operation.pushedStatus? p = none) (size : Nat) :
    Outcome.unindexed <$> plan.perform size p.unindexed =
      Outcome.unindexed <$> plan.perform size p := by
  have hlocate (l : Locator) : l.locate p.unindexed = l.locate p := l.locate_congr p p.a _
  cases plan with
  | implied op =>
    exact map_unindexed_processor (Implied.perform_unindexed (p.advance size) hp)
  | modifyA op =>
    exact congrArg (fun q => Program.done ({ processor := q } : Outcome))
      (op.performOnA_unindexed (p.advance size))
  | readImmediate op =>
    exact map_unindexed_bind _ fun value =>
      map_unindexed_processor (Reading.perform_unindexed (p.advance size) h value)
  | read op l =>
    simp only [perform, hlocate]
    exact map_unindexed_bind _ fun address => map_unindexed_bind _ fun value =>
      map_unindexed_processor (Reading.perform_unindexed (p.advance size) h value)
  | store register l =>
    have hregister : p.unindexed.register register = p.register register := by
      cases register <;> rfl
    simp only [perform, hlocate, hregister]
    exact map_unindexed_bind _ fun address => map_unindexed_bind _ fun _ => rfl
  | modify op l =>
    simp only [perform, hlocate]
    exact map_unindexed_bind _ fun address =>
      map_unindexed_processor (op.performAt_unindexed (p.advance size) address)
  | jump op l =>
    simp only [perform, hlocate]
    exact map_unindexed_bind _ fun target => op.perform_unindexed (p.advance size) target
  | storeImmediate => rfl
  | branchOnBitOfA bit whenSet =>
    exact map_unindexed_bind _ fun displacement =>
      congrArg Program.done ((p.advance size).branchIf_unindexed _ _)
  | branchOnBitOfCell bit whenSet =>
    exact map_unindexed_bind _ fun cell => map_unindexed_bind _ fun value =>
      map_unindexed_bind _ fun displacement =>
        congrArg Program.done ((p.advance size).branchIf_unindexed _ _)

theorem Opcode.perform_unindexed {opcode : Byte}
    (h : (instruction opcode).operation.usesIndexMode = false)
    (hp : (instruction opcode).operation.pushedStatus? p = none) :
    Outcome.unindexed <$> perform opcode p.unindexed = Outcome.unindexed <$> perform opcode p := by
  rw [← operation_plan] at h hp
  exact Plan.perform_unindexed p h hp _

end

/-! ### Instructions that push the status -/

section
variable {σ : Type} [Device σ]

/-- An entry of a handler pushes the status above the program counter. -/
theorem Processor.enterHandler_trace (p : Processor) (marker : Byte) (bus : Bus σ) :
    let pc := Address.toWord p.pc
    let stacked := (bus.write (Address.zeroPage p.s) (Word.high pc)).write
      (Address.zeroPage (p.s - 1)) (Word.low pc)
    let lo := bus.rom[0xFF4]
    let hi := bus.rom[0xFF5]
    (p.enterHandler marker).run trace bus [] =
      ({ p with
          s := p.s - 1 - 1 - 1
          pc := Address.ofWord (Word.ofBytes lo hi)
          flags := { p.flags with i := true } },
        stacked.write (Address.zeroPage (p.s - 1 - 1)) (p.status ||| marker),
        [.write (Address.zeroPage p.s) (Word.high pc),
          .write (Address.zeroPage (p.s - 1)) (Word.low pc)] ++
            .write (Address.zeroPage (p.s - 1 - 1)) (p.status ||| marker) ::
              [.read interruptVector lo, .read (interruptVector + 1) hi]) := by
  have hlo : interruptVector.place = .rom ⟨0xFF4, by decide⟩ := by decide
  have hhi : (interruptVector + 1).place = .rom ⟨0xFF5, by decide⟩ := by decide
  simp only [enterHandler, pushWord, push, fetchWord, store, fetch, write_bind, read_bind,
    done_bind, pure_eq, run, Bus.read_of_rom _ hlo, Bus.read_of_rom _ hhi, Bus.write_rom]
  rfl

/-- Two runs differ at most in T and in what they push to the cell: in one the status, in the other
the same without T. -/
structure PushesStatus (cell : Address) (status : Byte) (r r' : Outcome × Bus σ × List Event) :
    Prop where
  outcome : r'.1.unindexed = r.1.unindexed
  pushed : ∃ (bus : Bus σ) (before behind : List Event),
    r.2 = (bus.write cell status, before ++ .write cell status :: behind) ∧
      r'.2 = (bus.write cell (status &&& ~~~Flag.indexMode.mask),
        before ++ .write cell (status &&& ~~~Flag.indexMode.mask) :: behind)

theorem Flags.pack_unindexed (f : Flags) :
    ({ f with t := false } : Flags).pack = f.pack &&& ~~~Flag.indexMode.mask := by
  obtain ⟨n, v, t, d, i, z, c⟩ := f
  revert n v t d i z c
  decide

theorem Processor.status_unindexed (p : Processor) :
    p.unindexed.status = p.status &&& ~~~Flag.indexMode.mask := p.flags.pack_unindexed

theorem StackOp.php_pushes (p : Processor) (size : Nat) (bus : Bus σ) :
    let plan := Plan.implied (.stack .php)
    PushesStatus (Address.zeroPage p.s) p.status ((plan.perform size p).run trace bus [])
      ((plan.perform size p.unindexed).run trace bus []) where
  outcome := rfl
  pushed := by
    refine ⟨bus, [], [], rfl, ?_⟩
    rw [← p.status_unindexed]
    rfl

theorem Implied.brk_pushes (p : Processor) (size : Nat) (bus : Bus σ) :
    let plan := Plan.implied .brk
    PushesStatus (Address.zeroPage (p.s - 1 - 1)) (p.status ||| breakMarker)
      ((plan.perform size p).run trace bus [])
      ((plan.perform size p.unindexed).run trace bus []) := by
  intro plan
  -- the handler is entered on the processor as it is, so T comes in with the status alone
  have hrun (q : Processor) : (plan.perform size q).run trace bus [] =
      let r := (((q.advance size).advance 1).enterHandler breakMarker).run trace bus []
      ({ processor := r.1 }, r.2) := run_bind ..
  have hmarked : ∀ b : Byte, b &&& ~~~Flag.indexMode.mask ||| breakMarker =
      (b ||| breakMarker) &&& ~~~Flag.indexMode.mask := by decide +kernel
  rw [hrun, hrun, Processor.enterHandler_trace, Processor.enterHandler_trace]
  refine ⟨rfl, _, _, _, rfl, ?_⟩
  rw [← hmarked, ← p.status_unindexed]
  rfl

theorem Plan.perform_pushes {plan : Plan} {p : Processor} {cell : Address} {status : Byte}
    (h : plan.operation.pushedStatus? p = some (cell, status)) (size : Nat) (bus : Bus σ) :
    PushesStatus cell status ((plan.perform size p).run trace bus [])
      ((plan.perform size p.unindexed).run trace bus []) := by
  cases plan with
  | implied op =>
    cases op with
    | brk =>
      cases h
      exact Implied.brk_pushes p size bus
    | stack op =>
      cases op with
      | php =>
        cases h
        exact StackOp.php_pushes p size bus
      | pha | pla | plp => cases h
    | rti | rts | stp | nop | flag | count | transfer | clock => cases h
  | modifyA | readImmediate | read | store | modify | jump | storeImmediate | branchOnBitOfA
  | branchOnBitOfCell => cases h

/-- What an instruction that is not for index mode does depends on T at most in what it pushes. -/
theorem Opcode.run_unindexed {opcode : Byte}
    (h : (instruction opcode).operation.usesIndexMode = false) (p : Processor) (bus : Bus σ) :
    let r := (perform opcode p).run trace bus []
    let r' := (perform opcode p.unindexed).run trace bus []
    match (instruction opcode).operation.pushedStatus? p with
    | none => r'.1.unindexed = r.1.unindexed ∧ r'.2 = r.2
    | some (cell, status) => PushesStatus cell status r r' := by
  intro r r'
  cases hp : (instruction opcode).operation.pushedStatus? p with
  | none =>
    have hrun := congrArg (fun prog => prog.run trace bus []) (perform_unindexed p h hp)
    simp only [run_map, Prod.mk.injEq] at hrun
    exact hrun
  | some pushed =>
    rw [← operation_plan] at hp
    exact Plan.perform_pushes hp _ bus

end

end M740
