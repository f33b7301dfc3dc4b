import M740.Checked.Machine
import M740.Proofs.Calls
import M740.Proofs.CheckedExecution
import M740.Proofs.Slicing

/-!
# The checked machine finds nothing

The budget stays far inside 64 bits, every address leads to a place that exists, and every turn of
a run is charged. So the checked machine answers every call, and as the machine does
(`Machine.checked_call`).
-/

namespace M740.Checked

/-! ### The core -/

theorem liftM_bind_congr {α β : Type} {p : Program α} {f g : α → Guarded β}
    (h : p.Ensures fun a => f a = g a) :
    ((liftM p : Guarded α) >>= f) = (liftM p : Guarded α) >>= g := by
  refine ExceptT.ext ?_
  rw [run_liftM_bind, run_liftM_bind]
  exact (h.imp fun _ he => congrArg ExceptT.run he).bind_congr

/-- Budgets from which any charge can be taken. -/
def Payable (c : Clock) : Prop := -0x4000000000000000 ≤ c.budget ∧ c.budget ≤ 0x4000000000000000

theorem charge_eq {c : Clock} {u : Charge} (h : -0x8000000000000000 ≤ c.budget - u.units)
    (h' : c.budget - u.units < 0x8000000000000000) : charge c u.units = .ok (c.charge u) := by
  rw [charge, int64_eq h h']
  rfl

theorem charge_of_le_maxCharge {c : Clock} (h : Payable c) {u : Charge}
    (hu : u.units ≤ Timing.maxCharge) : charge c u.units = .ok (c.charge u) := by
  obtain ⟨hmin, hmax⟩ := h
  rw [Timing.maxCharge_eq] at hu
  exact charge_eq (by omega) (by omega)

section
variable {c : Clock} (h : Payable c) (opcode : Byte) (indexMode : Bool)
include h

theorem charge_base : charge c (Timing.cost opcode indexMode) =
    .ok (c.charge (Opcode.charge opcode indexMode false)) :=
  charge_of_le_maxCharge (u := Opcode.charge opcode indexMode false) h
    (cost_le_maxCharge opcode indexMode)

/-- The penalty comes on top of the base cost. -/
theorem charge_penalty :
    charge (c.charge (Opcode.charge opcode indexMode false)) Timing.branchPenalty =
      .ok (c.charge (Opcode.charge opcode indexMode true)) := by
  obtain ⟨hmin, hmax⟩ := h
  have hcost := cost_le_maxCharge opcode indexMode
  rw [Timing.maxCharge_eq] at hcost
  have hunits : (Opcode.charge opcode indexMode false).units = Timing.cost opcode indexMode := rfl
  have hpenalty : Timing.branchPenalty = 2 := rfl
  rw [charge_eq (u := ⟨Timing.branchPenalty, by decide⟩)]
  · refine congrArg Except.ok (Clock.ext_val ?_ rfl ?_)
    · simp only [Clock.charge, Opcode.charge, Bool.false_eq_true, if_false, if_true]
      omega
    · simp only [Clock.charge, Clock.count, Opcode.charge, UInt64.ofNat_add, UInt64.add_assoc]
      rfl
  · simp only [Clock.charge, hunits, hpenalty]
    omega
  · simp only [Clock.charge, hunits, hpenalty]
    omega

end

theorem performNext_eq {c : Core} (h : Payable c.clock) :
    performNext c =
      liftM (c.processor.performNext >>= fun r =>
        pure ({ processor := r.1, clock := c.clock.charge r.2 } : Core)) := by
  unfold performNext Processor.performNext
  simp only [liftM_bind, liftM_pure, bind_assoc, pure_bind, performer_eq, cost_eq, liftM_ok,
    charge_base h, perform_instruction]
  refine bind_congr fun opcode => bind_congr fun _ => bind_congr fun outcome => ?_
  cases outcome.branched with
  | false => rfl
  | true => simp only [if_true, charge_penalty h, liftM_ok, pure_bind]

theorem step_eq {c : Core} (h : Payable c.clock) : step c = liftM c.step := by
  unfold step Core.step
  split
  · rfl
  · rw [performNext_eq h]
    simp only [liftM_bind, liftM_pure, bind_assoc, pure_bind]
    refine liftM_bind_congr (c.processor.performNext_charge.imp fun r hr => ?_)
    rw [Timing.maxCharge_eq] at hr
    have hpaid : c.clock.budget - (c.clock.charge r.2).budget = r.2.units := by
      simp only [Clock.charge]
      omega
    have hword : ((r.2.units : Int) % UInt32.size).toNat = r.2.units := by
      rw [UInt32.size]
      omega
    rw [hpaid, int64_eq (by omega) (by omega), liftM_ok, pure_bind, hword]
    rfl

theorem interrupt_eq {c : Core} (h : Payable c.clock) : interrupt c = liftM c.interrupt := by
  have hrefused : (c.processor.flags.i || c.processor.stopped) = !c.processor.acceptsInterrupt := by
    simp only [Processor.acceptsInterrupt, Bool.not_and, Bool.not_not]
  have hcharge : charge c.clock Timing.interruptCost = .ok (c.clock.charge .interrupt) :=
    charge_of_le_maxCharge h Charge.interrupt_units_le
  unfold interrupt Core.interrupt
  rw [hrefused]
  cases c.processor.acceptsInterrupt with
  | false => rfl
  | true =>
    simp only [Bool.not_true, Bool.false_eq_true, if_false, if_true, hcharge, liftM_ok, liftM_bind,
      liftM_pure, pure_bind]

theorem turn_eq {c : Core} (h : Payable c.clock) :
    turn c =
      liftM (c.processor.turn >>= fun r =>
        pure ({ processor := r.1, clock := c.clock.charge r.2 } : Core)) := by
  unfold turn Processor.turn
  simp only [liftM_bind, bind_assoc]
  refine bind_congr fun level => ?_
  cases level with
  | false => simp only [Bool.false_eq_true, if_false, Bool.false_and, performNext_eq h, liftM_bind]
  | true =>
    rw [interrupt_eq h, Core.interrupt]
    cases c.processor.acceptsInterrupt with
    | false =>
      simp only [Bool.true_and, Bool.false_eq_true, if_false, if_true, performNext_eq h, liftM_bind,
        liftM_pure, pure_bind]
    | true =>
      simp only [Bool.true_and, if_true, liftM_bind, liftM_pure, pure_bind, bind_assoc]

/-- A run ends, since every turn is charged. -/
theorem spend_eq {c : Core} (h : c.clock.budget ≤ 0x4000000000000000) : spend c = liftM c.spend := by
  induction c using Core.spend.induct with
  | case1 c hb ih =>
    rw [spend, dif_pos hb, Core.spend_of_busy hb, turn_eq ⟨by omega, h⟩]
    simp only [liftM_bind, liftM_pure, bind_assoc, pure_bind]
    refine bind_congr fun r => ?_
    have hlt : (c.clock.charge r.2).budget < c.clock.budget := by
      have := r.2.pos
      simp only [Clock.charge]
      omega
    rw [dif_pos hlt]
    exact ih r.1 r.2 (Int.le_trans (Int.le_of_lt hlt) h)
  | case2 c hb =>
    rw [spend, dif_neg hb, Core.spend_of_not_busy hb]
    rfl

/-- Forfeiting only what is left is forfeiting. -/
theorem settle_eq (c : Core) :
    (if c.processor.stopped ∧ 0 < c.clock.budget then
      { c with clock := { c.clock with budget := 0 } } else c) = c.settle := by
  obtain ⟨p, budget, remainder, cycles⟩ := c
  cases hs : p.stopped with
  | false => simp [Core.settle, hs]
  | true =>
    by_cases hb : 0 < budget
    · simp [Core.settle, Clock.forfeit, hs, hb, Int.min_eq_right (Int.le_of_lt hb)]
    · simp [Core.settle, Clock.forfeit, hs, hb, Int.min_eq_left (Int.not_lt.1 hb)]

/-- A delivery of ticks stays far from the end of 64 bits, and what is left of it is spent. -/
theorem runFor_eq {c : Core} (h : Payable c.clock) (hb : c.clock.budget ≤ 0) (ticks : UInt32) :
    runFor c ticks = liftM (c.runFor ticks) := by
  obtain ⟨hmin, -⟩ := h
  have hr : c.clock.remainder.val < 4 := c.clock.remainder.isLt
  have ht := ticks.toNat_lt
  have hdelivered : (c.clock.deliver ticks).budget ≤ 0x4000000000000000 := by
    simp only [Clock.deliver, Timing.ticksPerUnit]
    omega
  have hbudget : int64 (c.clock.budget +
      ((c.clock.remainder.val + ticks.toNat) / Timing.ticksPerUnit : Nat)) =
      .ok (c.clock.deliver ticks).budget :=
    int64_eq (by simp only [Timing.ticksPerUnit]; omega) (by simp only [Timing.ticksPerUnit]; omega)
  unfold runFor Core.runFor
  rw [add_eq (by rw [UInt64.size]; omega)]
  simp only [liftM_ok, pure_bind]
  rw [hbudget]
  simp only [liftM_ok, pure_bind]
  show (spend { c with clock := c.clock.deliver ticks } >>= fun c =>
    if c.processor.stopped ∧ 0 < c.clock.budget then
      return { c with clock := { c.clock with budget := 0 } }
    else return c) = _
  rw [spend_eq hdelivered]
  simp only [liftM_bind, liftM_pure]
  refine bind_congr fun c => ?_
  rw [← apply_ite pure, settle_eq]
  rfl

theorem answer_eq {c : Core} (h : Payable c.clock) (hb : c.clock.budget ≤ 0) (call : Call) :
    answer c call = liftM (c.answer call) := by
  unfold answer
  cases call with
  | runFor ticks => simp only [Core.answer, runFor_eq h hb, liftM_bind, liftM_pure]
  | step => simp only [Core.answer, step_eq h, liftM_bind, liftM_pure]
  | interrupt => simp only [Core.answer, interrupt_eq h, liftM_bind, liftM_pure]
  | setRom | reset | read | write | set | restore => rfl

/-! ### The bus -/

section
variable {σ ω : Type}

section
variable {b : Bank} {n : Nat}

/-- A bank answers at its registers. -/
theorem device_eq (h : b.base ≤ n) (h' : n < b.base + b.size) :
    ∃ register, b.register? n = some register ∧
      place.device b n b.base = .ok (.device register) := by
  refine ⟨_, dif_pos ⟨h, h'⟩, ?_⟩
  rw [place.device, subtract_eq h, ok_bind, register, dif_pos (by omega)]
  rfl

theorem register?_eq_none (h : n < b.base ∨ b.base + b.size ≤ n) : b.register? n = none :=
  dif_neg (by omega)

end

/-- Every address of thirteen bits leads to a place that exists. -/
theorem place_eq (a : Address) : place a.toNat = .ok a.place := by
  have ha := a.isLt
  generalize hn : a.toNat = n at ha
  simp only [Address.place, Address.deviceRegister?, hn, Bank.all, List.findSome?_cons,
    List.findSome?_nil, place]
  -- One region of the memory map after the other, as the checked lookup tries them.
  by_cases hram : n < ramSize
  · rw [dif_pos hram, if_pos (Nat.le_of_lt_succ hram), place.cellOf, dif_pos hram]
  rw [dif_neg hram, if_neg fun h => hram (Nat.lt_succ_of_le h)]
  by_cases hrom : romStart ≤ n
  · have hfar : 0xFF < n := Nat.lt_of_lt_of_le (by decide) hrom
    rw [if_neg (by omega), if_neg (by omega), if_neg (by omega), if_pos hrom, dif_pos hrom,
      subtract_eq hrom, ok_bind, place.cellOf, dif_pos (by simp only [romStart, romSize]; omega)]
  rw [dif_neg hrom, if_neg hrom]
  by_cases hr : 0xD0 ≤ n ∧ n ≤ 0xDF
  · obtain ⟨register, hsome, hplace⟩ := device_eq (b := .r) hr.1 (Nat.lt_succ_of_le hr.2)
    rw [if_pos hr, hsome]
    exact hplace
  rw [if_neg hr, register?_eq_none (b := .r) (by simp only [Bank.base, Bank.size]; omega)]
  by_cases hp : 0xE0 ≤ n ∧ n ≤ 0xE9
  · obtain ⟨register, hsome, hplace⟩ := device_eq (b := .p) hp.1 (Nat.lt_succ_of_le hp.2)
    rw [if_pos hp, hsome]
    exact hplace
  rw [if_neg hp, register?_eq_none (b := .p) (by simp only [Bank.base, Bank.size]; omega)]
  by_cases ht : 0xF9 ≤ n ∧ n ≤ 0xFF
  · obtain ⟨register, hsome, hplace⟩ := device_eq (b := .timers) ht.1 (Nat.lt_succ_of_le ht.2)
    rw [if_pos ht, hsome]
    exact hplace
  rw [if_neg ht, register?_eq_none (b := .timers) (by simp only [Bank.base, Bank.size]; omega)]
  rfl

theorem slice_eq {α : Type} {l : List α} {stop : Nat} (h : stop ≤ l.length) :
    slice l 0 stop = .ok (l.take stop) :=
  if_pos ⟨Nat.zero_le _, h⟩

/-- The image and what is kept below it make up the ROM. -/
theorem install_eq (b : Bus σ) (image : List Byte) : install b image = .ok (b.install image) := by
  have hlength : min image.length romSize ≤ romSize := Nat.min_le_right _ _
  have hstart : subtract addressSpace (min image.length romSize) =
      .ok (addressSpace - min image.length romSize) :=
    subtract_eq (Nat.le_trans hlength (by decide))
  have hkept : subtract (addressSpace - min image.length romSize) romStart =
      .ok (romSize - min image.length romSize) := by
    rw [subtract_eq (by simp only [addressSpace, romStart, romSize] at *; omega)]
    exact congrArg Except.ok (by simp only [addressSpace, romStart, romSize]; omega)
  simp only [install, hstart, hkept, ok_bind, slice_eq (Nat.min_le_left _ _),
    slice_eq (Nat.le_trans (Nat.sub_le _ _) (Nat.le_of_eq b.rom.length_toList.symm))]
  exact dif_pos (b.install image).rom.size_toArray

theorem prepare_eq (b : Bus σ) (call : Call) : prepare b call = .ok (b.prepare call) := by
  cases call with
  | setRom image => exact install_eq b image
  | reset | runFor | step | interrupt | read | write | set | restore => rfl

variable [Device σ]

theorem read_eq (b : Bus σ) (a : Address) : read b a = .ok (b.read a) := by
  rw [read, place_eq, ok_bind, Bus.read]
  cases a.place <;> rfl

theorem write_eq (b : Bus σ) (a : Address) (value : Byte) :
    write b a value = .ok (b.write a value) := by
  rw [write, place_eq, ok_bind, Bus.write]
  cases a.place <;> rfl

theorem run_eq {α : Type} (observe : ω → Event → ω) (p : Program α) (bus : Bus σ) (seen : ω) :
    run observe p bus seen = .ok (p.run observe bus seen) := by
  induction p generalizing bus seen with
  | done => rfl
  | read address next ih =>
    rw [run, read_eq, ok_bind]
    exact ih _ _ _
  | write address value next ih =>
    rw [run, write_eq, ok_bind]
    exact ih _ _
  | poll next ih => exact ih _ _ _
  | note n next ih => exact ih _ _

/-! ### Calls -/

theorem call_eq {m : Machine σ} (h : Payable m.core.clock) (hb : m.core.clock.budget ≤ 0)
    (observe : ω → Event → ω) (seen : ω) (c : Call) :
    call observe m seen c = .ok (m.call observe seen c) := by
  have hrun : (liftM (m.core.answer c) : Guarded _).run =
      m.core.answer c >>= fun r => pure (.ok r) := rfl
  rw [call, prepare_eq, ok_bind, answer_eq h hb, run_eq, ok_bind, hrun, Program.run_bind]
  rfl

end

end M740.Checked

namespace M740

/-! ### Undefined opcodes -/

namespace Opcode

theorem instruction_nop : instruction nop = ⟨.implied .nop, .implied⟩ := by
  rw [instruction, decode?_nop, Option.getD_some]

section
variable {opcode : Byte} (h : instruction opcode = ⟨.implied .nop, .implied⟩)
include h

theorem perform_of_nop (p : Processor) :
    perform opcode p = .done { processor := p.advance 1 } := by
  have hplan : plan opcode = .implied .nop := by
    simp only [plan, h]
    rfl
  rw [perform, hplan, h]
  rfl

theorem charge_of_nop (indexMode : Bool) : charge opcode indexMode false = ⟨2, by decide⟩ := by
  simp only [charge, Timing.cost, h]
  rfl

end

end Opcode

section
variable {σ ω : Type} [Device σ]

/-- Wherever it is fetched, the no-operation moves on by one byte for two units, and leaves
everything else alone. -/
theorem performNext_of_nop (observe : ω → Event → ω) {p : Processor} {bus bus' : Bus σ}
    {opcode : Byte} (h : Opcode.instruction opcode = ⟨.implied .nop, .implied⟩)
    (hread : bus.read p.pc = (opcode, bus')) (seen : ω) :
    p.performNext.run observe bus seen =
      ((p.advance 1, ⟨2, by decide⟩), bus',
        observe (observe seen (.read p.pc opcode)) (.note (.fetch p opcode))) := by
  simp only [Processor.performNext, Program.fetch, Program.report, Program.read_bind,
    Program.done_bind, Program.note_bind, Program.pure_eq, Program.run, hread,
    Opcode.perform_of_nop h, Opcode.charge_of_nop h]

end

namespace Machine

variable {σ ω : Type} [Device σ]

/-- On a machine that owes at most 2^62 units, no call finds a contract violated, and the checked
machine does what the machine does. An encoding without a meaning is bound to what the no-operation
is bound to: wherever one of them is fetched, in a run or in a single step, the processor moves on
by one byte for two units, and nothing else happens. -/
theorem checked_call (m : Machine σ) (hmin : -0x4000000000000000 ≤ m.core.clock.budget)
    (hmax : m.core.clock.budget ≤ 0) (observe : ω → Event → ω) (seen : ω) :
    (∀ call, Checked.call observe m seen call = .ok (m.call observe seen call)) ∧
    (∀ opcode, Opcode.decode? opcode = none →
      Checked.performer opcode = Checked.performer Opcode.nop) ∧
    (∀ opcode, Opcode.decode? opcode = none ∨ opcode = Opcode.nop →
      (∀ (p : Processor) (bus bus' : Bus σ), bus.read p.pc = (opcode, bus') →
        p.performNext.run observe bus seen =
          ((p.advance 1, ⟨2, by decide⟩), bus',
            observe (observe seen (.read p.pc opcode)) (.note (.fetch p opcode)))) ∧
      (∀ bus, m.core.processor.stopped = false →
        m.bus.read m.core.processor.pc = (opcode, bus) →
        (m.call observe seen .step).1 = .units 2 ∧
          m.after .step =
            { core := ⟨m.core.processor.advance 1, m.core.clock.count ⟨2, by decide⟩⟩, bus })) := by
  refine ⟨Checked.call_eq ⟨hmin, by omega⟩ hmax observe seen, ?_, ?_⟩
  · intro opcode hd
    rw [Checked.performer_eq, Checked.performer_eq, Opcode.instruction_of_undefined hd,
      Opcode.instruction_nop]
  · intro opcode hopcode
    have hnop : Opcode.instruction opcode = ⟨.implied .nop, .implied⟩ := by
      rcases hopcode with hd | rfl
      · exact Opcode.instruction_of_undefined hd
      · exact Opcode.instruction_nop
    refine ⟨fun p bus bus' hread => performNext_of_nop observe hnop hread seen, ?_⟩
    intro bus hs hread
    rw [← m.call_machine observe seen, call_step observe seen hs,
      performNext_of_nop observe hnop hread]
    exact ⟨rfl, rfl⟩

/-- RAM is full of an encoding without a meaning, and the budget is as deep as it may be. -/
theorem checked_call_undefined :
    let m : Machine Unconnected :=
      { core := { clock := { budget := -0x4000000000000000 } }
        bus := { ram := .replicate ramSize 0x04, devices := {} } }
    Opcode.decode? 0x04 = none ∧ -0x4000000000000000 ≤ m.core.clock.budget ∧ m.core.clock.budget ≤ 0 ∧
      (Checked.call (fun seen _ => seen) m () .step).map Prod.fst = .ok (.units 2) := by
  intro m
  have hd : Opcode.decode? 0x04 = none := by decide
  obtain ⟨hcalls, -, hstep⟩ :=
    checked_call m (by decide) (by decide) (fun seen _ => seen) ()
  refine ⟨hd, by decide, by decide, ?_⟩
  rw [hcalls]
  exact congrArg Except.ok ((hstep 0x04 (.inl hd)).2 m.bus rfl rfl).1

end Machine

end M740
