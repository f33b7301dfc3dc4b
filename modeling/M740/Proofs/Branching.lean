import M740.Proofs.ListingText
import M740.Proofs.StraightLine

/-!
# Branches

A branch ends with a displacement. The processor reads it where the listing shows it, and adds it
to the address of the next instruction, so a step over a branch leads to one of two addresses: that
of the next entry, or the target in the text of the branch (`Machine.step_branch`).
-/

namespace M740

open Program

/-! ### Plans -/

/-- The mode that a locator serves. -/
def Locator.mode : Locator → Mode
  | .zeroPage none => .zeroPage
  | .zeroPage (some .x) => .zeroPageX
  | .zeroPage (some .y) => .zeroPageY
  | .absolute none => .absolute
  | .absolute (some .x) => .absoluteX
  | .absolute (some .y) => .absoluteY
  | .xIndirect => .xIndirect
  | .indirectY => .indirectY
  | .zeroPageIndirect => .zeroPageIndirect
  | .absoluteIndirect => .absoluteIndirect
  | .relative => .relative
  | .specialPage => .specialPage

/-- The mode that a plan serves. -/
def Plan.mode : Plan → Mode
  | .implied _ => .implied
  | .modifyA _ => .accumulator
  | .readImmediate _ => .immediate
  | .read _ locator | .store _ locator | .modify _ locator | .jump _ locator => locator.mode
  | .storeImmediate => .immediateZeroPage
  | .branchOnBitOfA .. => .accumulatorRelative
  | .branchOnBitOfCell .. => .zeroPageRelative

/-- Whether a displacement leads from the next instruction to the target. -/
def Operation.displaces : Operation → Bool
  | .jump (.branch _) | .jump .always | .branchOnBit .. => true
  | _ => false

/-- The modes that end with a displacement. -/
def Mode.displaces : Mode → Bool
  | .relative | .accumulatorRelative | .zeroPageRelative => true
  | _ => false

theorem Locator.eq_relative {l : Locator} (h : l.mode.displaces = true) : l = .relative := by
  cases l with
  | relative => rfl
  | zeroPage index | absolute index => rcases index with _ | _ | _ <;> cases h
  | _ => cases h

namespace Opcode

theorem mode_plan : ∀ opcode : Byte, (plan opcode).mode = (instruction opcode).mode := by
  decide +kernel

theorem mode_displaces : ∀ opcode : Byte,
    (instruction opcode).operation.displaces = true →
      (instruction opcode).mode.displaces = true := by
  decide +kernel

end Opcode

theorem Processor.branchIf_pc (p : Processor) (condition : Bool) (target : Address) :
    (p.branchIf condition target).processor.pc = p.pc ∨
      (p.branchIf condition target).processor.pc = target := by
  unfold branchIf
  split
  · exact .inr rfl
  · exact .inl rfl

section
variable {σ ω : Type} [Device σ] (observe : ω → Event → ω)

theorem Plan.perform_displaces {plan : Plan} {p : Processor} (bus : Bus σ) (seen : ω)
    (h : plan.operation.displaces = true) (hmode : plan.mode.displaces = true)
    (hbus : ∀ i ≤ plan.mode.operandLength, (p.operandAddress i).deviceRegister? = none) :
    let next := (p.advance plan.mode.size).pc
    let r := (plan.perform plan.mode.size p).run observe bus seen
    r.1.processor.pc = next ∨
      r.1.processor.pc =
        Address.displaced next (bus.peek (p.operandAddress plan.mode.operandLength)) := by
  intro next r
  cases plan with
  | jump op locator =>
    obtain rfl := Locator.eq_relative hmode
    have hread := bus.read_of_not_device (hbus 1 (Nat.le_refl 1))
    simp only [r, perform, Locator.locate, fetch, read_bind, done_bind, pure_eq, run, hread]
    cases op with
    | branch condition => exact Processor.branchIf_pc _ _ _
    | always => exact .inr rfl
    | jump | call => cases h
  | branchOnBitOfA bit whenSet =>
    have hread := bus.read_of_not_device (hbus 1 (Nat.le_refl 1))
    simp only [r, perform, fetch, read_bind, done_bind, pure_eq, run, hread]
    exact Processor.branchIf_pc _ _ _
  | branchOnBitOfCell bit whenSet =>
    have hcell := bus.read_of_not_device (hbus 1 (Nat.le_succ 1))
    have hread (b : Bus σ) := b.read_of_not_device (hbus 2 (Nat.le_refl 2))
    simp only [r, perform, fetch, read_bind, done_bind, pure_eq, run, hcell, hread, Bus.peek_read]
    exact Processor.branchIf_pc _ _ _
  | _ => cases h

/-- A branch leads to the next instruction, or from there by the displacement. -/
theorem Opcode.perform_displaces {opcode : Byte} {p : Processor} (bus : Bus σ) (seen : ω)
    (h : (instruction opcode).operation.displaces = true)
    (hbus : ∀ i ≤ (instruction opcode).mode.operandLength,
      (p.operandAddress i).deviceRegister? = none) :
    let i := instruction opcode
    let next := (p.advance i.size).pc
    let r := (perform opcode p).run observe bus seen
    r.1.processor.pc = next ∨
      r.1.processor.pc =
        Address.displaced next (bus.peek (p.operandAddress i.mode.operandLength)) := by
  have hmode := mode_displaces opcode h
  rw [← operation_plan] at h
  rw [← mode_plan] at hmode hbus
  have := (plan opcode).perform_displaces observe bus seen h hmode hbus
  rwa [mode_plan] at this

end

/-! ### Targets -/

theorem Address.toNat_displaced (a : Address) (d : Byte) :
    ((displaced a d).toNat : Int) = (a.toNat + d.signed) % 0x2000 := by
  have hd : ((BitVec.ofInt 13 d.signed).toNat : Int) = d.signed % 0x2000 := by
    rw [BitVec.toNat_ofInt]
    omega
  rw [displaced, BitVec.toNat_add]
  omega

namespace Entry

theorem target_eq_mod {e : Entry} :
    (e.target.toNat : Int) = ((Address.ofWord e.address).toNat + e.size.toNat +
      (e.operands.getLast?.getD 0).signed) % 0x2000 := by
  rw [target, Address.toNat_displaced]
  simp only [Address.zeroPage, BitVec.toNat_add, BitVec.toNat_ofNat]
  omega

theorem suffix_separated (separator : String) (s : List Char) : s <:+ separated separator s := by
  cases s with
  | nil => exact List.suffix_rfl
  | cons => exact List.suffix_append _ _

theorem suffix_withBit {bit : Option Byte} (operand : String) (h : bit.all (· < 8)) :
    operand.toList <:+ (withBit bit operand).toList := by
  cases bit with
  | none => exact List.suffix_rfl
  | some b =>
    rw [Option.all_some, decide_eq_true_eq] at h
    rw [toList_withBit_some h]
    exact (suffix_separated _ _).trans (List.suffix_cons _ _)

theorem suffix_operandText? {e : Entry} {m : Mode} {t : String} (hm : m.displaces = true)
    (h : e.operandText? m = some t) : e.targetText.toList <:+ t.toList := by
  cases m with
  | relative =>
    obtain rfl := Option.some.inj h
    exact List.suffix_rfl
  | accumulatorRelative =>
    obtain rfl := Option.some.inj h
    rw [String.toList_append]
    exact List.suffix_append _ _
  | zeroPageRelative =>
    obtain ⟨b, -, rfl⟩ := Option.map_eq_some_iff.1 h
    rw [String.toList_append]
    exact List.suffix_append _ _
  | _ => cases hm

/-- The text of a branch ends with its target. -/
theorem suffix_text? {e : Entry} {i : Instruction} {t : String} (he : e.Listed)
    (hi : e.instruction = some i) (hop : i.operation.displaces = true) (h : e.text? = some t) :
    e.targetText.toList <:+ t.toList := by
  cases he with
  | data hnone =>
    rw [hnone] at hi
    cases hi
  | whole i' hd hi' =>
    obtain rfl : i' = i := Option.some.inj (hi'.symm.trans hi)
    have hinstruction := Opcode.instruction_of_decode? hd
    have hmode : i'.mode.displaces = true :=
      hinstruction ▸ Opcode.mode_displaces e.opcode (hinstruction ▸ hop)
    obtain ⟨operand, ho, ht⟩ := text?_eq_some hi h
    have hshown := (suffix_operandText? hmode ho).trans
      (suffix_withBit operand (hinstruction ▸ Opcode.bit_lt e.opcode))
    rw [ht]
    exact (hshown.trans (suffix_separated _ _)).trans (List.suffix_append _ _)

end Entry

/-- The displacement is the last of the operand bytes. -/
theorem getLast?_take_getD {b : Byte} {l : List Byte} {n : Nat} (hpos : 0 < n)
    (h : n < (b :: l).length) : (l.take n).getLast?.getD 0 = (b :: l)[n] := by
  obtain ⟨k, rfl⟩ := Nat.exists_eq_succ_of_ne_zero (Nat.ne_of_gt hpos)
  rw [List.getLast?_take, if_neg (Nat.succ_ne_zero k), Nat.succ_sub_one,
    List.getElem?_eq_getElem (Nat.lt_of_succ_lt_succ h)]
  rfl

namespace Machine

variable {σ : Type} [Device σ]

/-- A step over a branch. -/
theorem step_branch {m : Machine σ} {bytes : List Byte} {e : Entry} {i : Instruction}
    (hs : m.core.processor.stopped = false)
    (hdevice : ∀ k < bytes.length,
      (m.core.processor.pc + BitVec.ofNat 13 k).deviceRegister? = none)
    (hpeek : ∀ k (h : k < bytes.length),
      m.bus.peek (m.core.processor.pc + BitVec.ofNat 13 k) = bytes[k])
    (he : Entry.ofBytes? (Address.toWord m.core.processor.pc) bytes = some e)
    (hi : e.instruction = some i) (hop : i.operation.displaces = true) :
    (m.after .step).core.processor.pc = e.next ∨ (m.after .step).core.processor.pc = e.target := by
  cases bytes with
  | nil => cases he
  | cons opcode rest =>
    obtain ⟨i', hd, hlen, rfl⟩ := Entry.ofBytes?_cons.1 he
    obtain rfl : i' = i := Option.some.inj hi
    generalize he' : Entry.whole (Address.toWord m.core.processor.pc) opcode i' _ = e
    have hinstruction := Opcode.instruction_of_decode? hd
    have hmode : i'.mode.displaces = true :=
      hinstruction ▸ Opcode.mode_displaces opcode (hinstruction ▸ hop)
    have hread : m.bus.read m.core.processor.pc = (opcode, m.bus) := by
      have hfirst := hdevice 0 (Nat.zero_lt_succ _)
      have hopcode := hpeek 0 (Nat.zero_lt_succ _)
      rw [BitVec.add_zero] at hfirst hopcode
      rw [m.bus.read_of_not_device hfirst, hopcode]
      rfl
    have hnext : (m.core.processor.advance i'.size).pc = e.next := by
      have hlisted : e.Listed := he' ▸ .whole i' hd rfl (List.length_take_of_le hlen) rfl rfl
      rw [hlisted.next_eq, ← he']
      simp only [Entry.whole, Entry.bytes, Address.ofWord_toWord, List.length_cons,
        List.length_take_of_le hlen, Processor.advance, Instruction.size, Mode.size, Nat.add_comm]
    have hdisplacement : m.bus.peek (m.core.processor.operandAddress i'.mode.operandLength) =
        e.operands.getLast?.getD 0 := by
      have hpos : 0 < i'.mode.operandLength := by
        revert hmode
        cases i'.mode <;> decide
      rw [Processor.operandAddress, hpeek _ (Nat.lt_succ_of_le hlen), ← he', Entry.whole,
        getLast?_take_getD hpos (Nat.lt_succ_of_le hlen)]
    have h := Opcode.perform_displaces trace (p := m.core.processor) m.bus []
      (hinstruction ▸ hop) fun k hk =>
        hdevice k (Nat.lt_succ_of_le (Nat.le_trans (hinstruction ▸ hk) hlen))
    simp only [hinstruction, hnext, hdisplacement] at h
    have hafter : m.after .step = (m.call trace [] .step).2.1 :=
      (m.call_machine trace [] .step).symm
    rw [hafter, call_step trace [] hs, Processor.performNext_run hread]
    exact h

/-- The disassembler describes what runs. Single steps over code in the ROM go from entry to entry
of its listing, up to the first that transfers control or stops: they fetch the opcodes at the
addresses listed, each step costs what its entry says, and the processor is left behind the last.
A step over a branch leads behind it, or to the target that its text shows. -/
theorem steps_as_listed (m : Machine σ) (hs : m.core.processor.stopped = false) :
    (∀ (start : Word) (bytes : List Byte) (k : Nat),
      m.core.processor.pc = Address.ofWord start →
      romStart ≤ start.toNat → start.toNat + bytes.length ≤ 0x2000 →
      (∀ i (h : i < bytes.length),
        m.bus.peek (Address.ofWord start + BitVec.ofNat 13 i) = bytes[i]) →
      k ≤ (Listing.disassemble start bytes).length →
      (∀ e ∈ (Listing.disassemble start bytes).take k, e.Straight) →
      let es := (Listing.disassemble start bytes).take k
      let r := m.calls trace [] (List.replicate k .step)
      r.1 = es.mapIdx (fun i e => .units
          (e.charge (m.afterAll (List.replicate i .step)).core.processor.flags.t)) ∧
        r.2.1.core.processor.pc = es.getLast?.elim (Address.ofWord start) Entry.next ∧
        Event.fetches r.2.2 = es.map (fun e => (Address.ofWord e.address, e.opcode))) ∧
    (∀ (bytes : List Byte) (e : Entry) (i : Instruction),
      let p := m.core.processor.pc
      (∀ k < bytes.length, (p + BitVec.ofNat 13 k).deviceRegister? = none) →
      (∀ k (h : k < bytes.length), m.bus.peek (p + BitVec.ofNat 13 k) = bytes[k]) →
      Entry.ofBytes? (Address.toWord p) bytes = some e →
      e.instruction = some i → i.operation.displaces = true →
      ((m.after .step).core.processor.pc = p + BitVec.ofNat 13 e.size.toNat ∨
        (m.after .step).core.processor.pc = e.target) ∧
      (∃ t, e.text? = some t ∧ ("$" ++ Hex.word (Address.toWord e.target)).toList <:+ t.toList) ∧
      (e.target.toNat : Int) =
        (p.toNat + e.size.toNat + (e.operands.getLast?.getD 0).signed) % 0x2000) := by
  refine ⟨?_, ?_⟩
  · intro start bytes k hpc hlow hhigh hpeek hk h
    have hrom := romHolds_of_peek hlow hhigh hpeek
    unfold Listing.disassemble at hk h ⊢
    rw [← hpc] at hk h hrom ⊢
    obtain ⟨hunits, hend, hfetches, -⟩ := steps_straight hs hrom hk h
    exact ⟨hunits, hend, hfetches⟩
  · intro bytes e i p hdevice hpeek he hi hop
    obtain ⟨hlisted, haddress⟩ := Entry.listed_of_ofBytes? he
    have hp : Address.ofWord e.address = p := by rw [haddress, Address.ofWord_toWord]
    refine ⟨?_, ?_, ?_⟩
    · have hnext : e.next = p + BitVec.ofNat 13 e.size.toNat := by rw [← hp]; rfl
      exact hnext ▸ step_branch hs hdevice hpeek he hi hop
    · obtain ⟨t, ht⟩ := Option.isSome_iff_exists.1 hlisted.text?_isSome
      exact ⟨t, ht, Entry.suffix_text? hlisted hi hop ht⟩
    · rw [Entry.target_eq_mod, hp]

/-- Index mode, an addition, a byte without a meaning and a branch back to the addition. -/
def loopImage : List Byte :=
  [0x32, 0x69, 0x05, 0x04, 0xD0, 0xFB, 0, 0, 0, 0, 0, 0, 0, 0, 0xF0, 0x1F]

theorem take_disassemble_loopImage :
    (Listing.disassemble 0x1FF0 loopImage).take 3 =
      [Entry.whole 0x1FF0 0x32 ⟨.implied (.flag .set), .implied⟩ [],
        Entry.whole 0x1FF1 0x69 ⟨.read (.accumulate .adc), .immediate⟩ [0x05],
        Entry.data 0x1FF3 0x04] := by
  rw [Listing.disassemble, loopImage, Listing.entries_cons, List.take_succ_cons]
  show _ :: (Listing.entries 0x1FF1 [0x69, 0x05, 0x04, 0xD0, 0xFB, 0, 0, 0, 0, 0, 0, 0, 0, 0xF0,
    0x1F]).take 2 = _
  rw [Listing.entries_cons, List.take_succ_cons]
  show _ :: _ :: (Listing.entries 0x1FF3 [0x04, 0xD0, 0xFB, 0, 0, 0, 0, 0, 0, 0, 0, 0xF0,
    0x1F]).take 1 = _
  rw [Listing.entries_cons]
  rfl

theorem straight_loopImage :
    ∀ e ∈ (Listing.disassemble 0x1FF0 loopImage).take 3, e.Straight := by
  intro e he
  rw [take_disassemble_loopImage] at he
  rcases List.mem_cons.1 he with rfl | he
  · exact ⟨by decide, by decide, by decide⟩
  rcases List.mem_cons.1 he with rfl | he
  · exact ⟨by decide, by decide, by decide⟩
  · obtain rfl := List.mem_singleton.1 he
    exact ⟨by decide, by decide, by decide⟩

theorem after_set (m : Machine σ) (setting : Setting) :
    m.after (.set setting) =
      { m with core := { m.core with processor := setting.apply m.core.processor } } := rfl

/-- Three steps through the image, and one over its branch. -/
theorem steps_as_listed_loop :
    let m := (fresh ({} : Unconnected)).after (.setRom loopImage)
    let r := m.calls trace [] (List.replicate 3 .step)
    let m' := m.after (.set (.pc 0x1FF4))
    m.core.processor.stopped = false ∧ m'.core.processor.stopped = false ∧
      r.2.1.core.processor.pc = 0x1FF4 ∧
      Event.fetches r.2.2 = [(0x1FF0, 0x32), (0x1FF1, 0x69), (0x1FF3, 0x04)] ∧
      ((m'.after .step).core.processor.pc = 0x1FF6 ∨
        (m'.after .step).core.processor.pc = 0x1FF1) := by
  intro m r m'
  obtain ⟨hpc, hs, hbus, -⟩ := (fresh ({} : Unconnected)).after_setRom loopImage
  have hfit : loopImage.length ≤ romSize := by decide
  have hrom : RomHolds m.bus.rom 0x1FF0 loopImage := by
    show RomHolds ((fresh ({} : Unconnected)).after (.setRom loopImage)).bus.rom _ _
    rw [hbus]
    exact romHolds_install _ hfit
  have hvector : m.core.processor.pc = 0x1FF0 := by
    have installed {k : Nat} (hk : k < loopImage.length) :=
      (fresh ({} : Unconnected)).bus.install_rom hfit hk
    have hlow : ((fresh ({} : Unconnected)).bus.install loopImage).rom[0xFFE] = 0xF0 :=
      installed (by decide : 14 < 16)
    have hhigh : ((fresh ({} : Unconnected)).bus.install loopImage).rom[0xFFF] = 0x1F :=
      installed (by decide : 15 < 16)
    rw [hlow, hhigh] at hpc
    exact hpc
  have hlength : 3 ≤ (Listing.disassemble 0x1FF0 loopImage).length := by
    have := congrArg List.length take_disassemble_loopImage
    rw [List.length_take] at this
    exact Nat.le_trans (Nat.le_of_eq this.symm) (Nat.min_le_right _ _)
  have hsteps := (steps_as_listed m hs).1 0x1FF0 loopImage 3 hvector (by decide) (by decide)
    (fun i hi => hrom.peek hi) hlength straight_loopImage
  rw [take_disassemble_loopImage] at hsteps
  obtain ⟨-, hend, hfetches⟩ := hsteps
  have hset : m' = _ := m.after_set (.pc 0x1FF4)
  have hs' : m'.core.processor.stopped = false := by rw [hset]; exact hs
  have hpc' : m'.core.processor.pc = 0x1FF4 := by rw [hset]; rfl
  have hrom' : RomHolds m'.bus.rom 0x1FF4 (loopImage.drop 4) := by
    rw [← List.take_append_drop 4 loopImage] at hrom
    rw [hset]
    exact hrom.behind
  have hbranch := (steps_as_listed m' hs').2 (loopImage.drop 4)
    (Entry.whole 0x1FF4 0xD0 ⟨.jump (.branch .notEqual), .relative⟩ [0xFB])
    ⟨.jump (.branch .notEqual), .relative⟩
  rw [hpc'] at hbranch
  have hled := hbranch (by decide +kernel) (fun k hk => hrom'.peek hk) rfl rfl rfl
  refine ⟨hs, hs', ?_, ?_, ?_⟩
  · rw [hend]
    decide
  · rw [hfetches]
    decide
  · exact hled.1

end Machine

end M740
