import M740.Proofs.DecimalLanes
import M740.Proofs.Redirection

/-!
# Decimal steps

In decimal mode the steps of ADC and SBC work lane by lane, whatever the bytes and the way their
operands are found. The exception is a difference whose high lane is fifteen without a borrow: with
something in the low lane as well it is corrected like a borrow (`Machine.step_decimal`).
-/

namespace M740

open Alu

namespace Machine

variable {σ : Type} [Device σ]

/-- A step of ADC or SBC in decimal mode leaves what the lanes make of the target and the operand,
and in C what comes out of the high lane. But a difference of more than fifteen sixteens, without a
borrow, is six sixteens too small. -/
theorem step_decimal {m : Machine σ} (hs : m.core.processor.stopped = false)
    (hd : m.core.processor.flags.d = true) :
    let c := m.core.processor.flags.c
    let flags := (m.call trace [] .step).2.1.core.processor.flags
    (m.instruction.operation = .read (.accumulate .adc) →
      let l := lanes addLane m.target m.loadOperand.1 c
      m.result? = some l.byte ∧ flags.c = l.high.out) ∧
    (m.instruction.operation = .read (.accumulate .sbc) →
      let l := lanes subtractLane m.target m.loadOperand.1 (!c)
      m.result? = some (if l.Overcorrected then l.byte - 0x60 else l.byte) ∧
        (m.result? = some l.byte ↔ ¬ l.Overcorrected) ∧ flags.c = !l.high.out) := by
  intro c flags
  let f := m.core.processor.flags
  refine ⟨fun hop => ?_, fun hop => ?_⟩
  · obtain ⟨hresult, hflags⟩ := result?_step hs hop (by decide)
    obtain ⟨hbyte, hcarry⟩ := addDecimal_lanes f m.target m.loadOperand.1
    have happly : Accumulate.adc.apply f m.target m.loadOperand.1 =
        (some (addDecimal f m.target m.loadOperand.1).1, (addDecimal f _ _).2) :=
      congrArg (Prod.map some id) (add_eq_addDecimal hd ..)
    rw [happly] at hresult hflags
    exact ⟨hresult.trans (congrArg some hbyte), (congrArg Flags.c hflags).trans hcarry⟩
  · intro l
    obtain ⟨hresult, hflags⟩ := result?_step hs hop (by decide)
    obtain ⟨hbyte, hcarry⟩ := subtractDecimal_lanes f m.target m.loadOperand.1
    have happly : Accumulate.sbc.apply f m.target m.loadOperand.1 =
        (some (subtractDecimal f m.target m.loadOperand.1).1, (subtractDecimal f _ _).2) :=
      congrArg (Prod.map some id) (subtract_eq_subtractDecimal hd ..)
    rw [happly] at hresult hflags
    have hbyte : m.result? = some (if l.Overcorrected then l.byte - 0x60 else l.byte) :=
      hresult.trans (congrArg some hbyte)
    refine ⟨hbyte, ?_, (congrArg Flags.c hflags).trans hcarry⟩
    rw [hbyte, Option.some_inj]
    have hless : ∀ b : Byte, b - 0x60 ≠ b := by decide +kernel
    by_cases hover : l.Overcorrected
    · rw [if_pos hover]
      exact iff_of_false (hless _) (not_not.2 hover)
    · rw [if_neg hover]
      exact iff_of_true rfl hover

/-- The reset vector leads to the first two bytes: ADC or SBC, by its opcode, and its operand. -/
def decimalImage (opcode operand : Byte) : List Byte := [opcode, operand, 0xFC, 0x1F]

/-- At an addition to the byte at X, neither being two decimal digits. -/
def adding : Machine Unconnected :=
  (fresh {}).afterAll [.setRom (decimalImage 0x69 0x0F), .write 0 0x0F, .set (.status 0x28)]

theorem step_decimal_adding :
    adding.core.processor.stopped = false ∧ adding.core.processor.flags.d = true ∧
      adding.instruction.operation = .read (.accumulate .adc) ∧
      lanes addLane adding.target adding.loadOperand.1 false = ⟨⟨4, true⟩, ⟨1, false⟩⟩ ∧
      adding.result? = some 0x14 := by
  obtain ⟨hs, hd, hop, hlanes, hbyte⟩ : adding.core.processor.stopped = false ∧
      adding.core.processor.flags.d = true ∧
      adding.instruction.operation = .read (.accumulate .adc) ∧
      lanes addLane adding.target adding.loadOperand.1 false = ⟨⟨4, true⟩, ⟨1, false⟩⟩ ∧
      some (lanes addLane adding.target adding.loadOperand.1
        adding.core.processor.flags.c).byte = some 0x14 := by decide +kernel
  exact ⟨hs, hd, hop, hlanes, ((step_decimal hs hd).1 hop).1.trans hbyte⟩

/-- At a subtraction of zero from `0xF5`, without a borrow. -/
def subtracting : Machine Unconnected :=
  (fresh {}).afterAll
    [.setRom (decimalImage 0xE9 0x00), .set (.register .a 0xF5), .set (.status 0x09)]

/-- Neither lane goes below zero, and still the high one is corrected. -/
theorem subtracting_overcorrected :
    subtracting.core.processor.stopped = false ∧ subtracting.core.processor.flags.d = true ∧
      subtracting.core.processor.flags.c = true ∧
      subtracting.instruction.operation = .read (.accumulate .sbc) ∧
      lanes subtractLane subtracting.target subtracting.loadOperand.1 false =
        ⟨⟨5, false⟩, ⟨15, false⟩⟩ ∧
      (lanes subtractLane subtracting.target subtracting.loadOperand.1 false).byte = 0xF5 ∧
      subtracting.result? = some 0x95 := by
  decide +kernel

end Machine

end M740
