import M740.Checked.Alu
import M740.Proofs.Signs

/-!
# Checked arithmetic finds nothing

No sum of two bytes and a carry leaves sixteen bits, and no bit family shifts by eight: what the
checked operations compute is what the unchecked ones compute.
-/

namespace M740.Checked

variable {size x y : Nat}

theorem unsigned_eq (h : x < size) : unsigned size x = .ok x := if_pos h

theorem add_eq (h : x + y < size) : add size x y = .ok (x + y) := if_pos h

theorem add_word_eq (h : x + y < 0x10000) : add UInt16.size x y = .ok (x + y) := add_eq h

theorem subtract_eq (h : y ≤ x) : subtract x y = .ok (x - y) := if_pos h

theorem int64_eq {n : Int} (h : -0x8000000000000000 ≤ n) (h' : n < 0x8000000000000000) :
    int64 n = .ok n :=
  if_pos ⟨h, Int.le_of_lt_add_one h'⟩

theorem shiftLeft_eq {value amount : Byte} (h : amount < 8) :
    shiftLeft value amount = .ok (value <<< amount) := if_pos h

theorem shiftRight_eq {value amount : Byte} (h : amount < 8) :
    shiftRight value amount = .ok (value >>> amount) := if_pos h

theorem ok_bind {α β : Type} (a : α) (f : α → Checked β) : (Except.ok a >>= f : Checked β) = f a :=
  rfl

/-! ### Addition -/

theorem addBinary_eq (f : Flags) (target value : Byte) :
    addBinary f target value = .ok (Alu.addBinary f target value) := by
  have ht := target.toNat_lt
  have hv := value.toNat_lt
  have hc := f.c.toNat_lt
  unfold addBinary
  rw [add_word_eq (by omega), ok_bind, add_word_eq (by omega), ok_bind]
  rfl

theorem correctLow_eq {sum : Nat} (h : sum < 0x100) :
    correctLow sum = .ok (Alu.correctLow sum) := by
  unfold correctLow Alu.correctLow
  split
  · rw [add_word_eq (by omega), ok_bind, add_word_eq (by omega)]
  · rfl

theorem correctHigh_eq {sum : Nat} (h : sum < 0x400) :
    correctHigh sum = .ok (Alu.correctHigh sum) := by
  unfold correctHigh Alu.correctHigh
  split
  · rw [add_word_eq (by omega), ok_bind, add_word_eq (by omega)]
  · rfl

theorem addDecimal_eq (f : Flags) (target value : Byte) :
    addDecimal f target value = .ok (Alu.addDecimal f target value) := by
  have ht := target.toNat_lt
  have hv := value.toNat_lt
  have hc := f.c.toNat_lt
  have hsum : f.c.toNat + (target.toNat % 16 + value.toNat % 16) =
      target.toNat % 16 + value.toNat % 16 + f.c.toNat := Nat.add_comm _ _
  unfold addDecimal Alu.addDecimal
  generalize hlow : target.toNat % 16 + value.toNat % 16 + f.c.toNat = low at *
  have hcorrected : Alu.correctLow low < 0x20 := by
    unfold Alu.correctLow
    split <;> omega
  rw [add_word_eq (by omega), ok_bind, add_word_eq (by omega), ok_bind, hsum, add_word_eq (by omega), ok_bind,
    correctLow_eq (by omega), ok_bind, add_word_eq (by omega), ok_bind, add_word_eq (by omega), ok_bind,
    add_word_eq (by omega), ok_bind, correctHigh_eq (by omega), ok_bind, ← Nat.add_assoc]
  generalize hhigh : Alu.correctLow low + target.toNat / 16 * 16 + value.toNat / 16 * 16 = high
  have hcarry : Alu.correctHigh high / 0x100 % 2 = 1 ↔ 0x100 ≤ Alu.correctHigh high := by
    unfold Alu.correctHigh
    split <;> omega
  have hsign : Byte.negative (UInt8.ofNat (0 + low % 16 + high / 16 % 16 * 16)) =
      Byte.negative (UInt8.ofNat high) := by
    rw [Byte.negative_ofNat, Byte.negative_ofNat, decide_eq_decide]
    omega
  simp only [Byte.overflow_congr hsign, hcarry, hhigh]
  rfl

theorem addInMode_eq (f : Flags) (target value : Byte) :
    addInMode f target value = .ok (Alu.add f target value) := by
  unfold addInMode Alu.add
  split
  · exact addDecimal_eq f target value
  · exact addBinary_eq f target value

theorem subtractInMode_eq (f : Flags) (target value : Byte) :
    subtractInMode f target value = .ok (Alu.subtract f target value) := by
  unfold subtractInMode Alu.subtract
  split
  · rfl
  · exact addBinary_eq f target (~~~value)

/-! ### Operations -/

theorem accumulateInto_eq (op : Accumulate) (f : Flags) (target value : Byte) :
    accumulateInto (.read (.accumulate op)) f target value = .ok (op.apply f target value) := by
  cases op with
  | adc => rw [accumulateInto, addInMode_eq, ok_bind]; rfl
  | sbc => rw [accumulateInto, subtractInMode_eq, ok_bind]; rfl
  | ora | and | eor | lda | cmp => rfl

theorem modify_eq {op : Modifying} (h : (Operation.modify op).bit?.all (· < 8)) (f : Flags)
    (value : Byte) : modify (.modify op) f value = .ok (op.apply f value) := by
  cases op with
  | asl | rol => rw [modify, shiftLeft_eq (by decide), ok_bind]; rfl
  | lsr => rw [modify, shiftRight_eq (by decide), ok_bind]; rfl
  | ror =>
    rw [modify, shiftLeft_eq (by decide), ok_bind, shiftRight_eq (by decide), ok_bind]
    rfl
  | setBit bit | clearBit bit =>
    rw [modify, shiftLeft_eq (of_decide_eq_true h), ok_bind]
    rfl
  | inc | dec | complement | rotateNibbles => rfl

/-- Shifting a bit down to the lowest and masking it where it stands find the same. -/
theorem bit_shifted : ∀ bit < 8, ∀ value : Byte,
    ((value >>> bit) &&& 1 != 0) = Alu.testBit value bit := by
  decide +kernel

theorem testBit_eq {bit : Byte} (h : bit < 8) (value : Byte) :
    testBit value bit = .ok (Alu.testBit value bit) := by
  rw [testBit, shiftRight_eq h, ok_bind]
  exact congrArg Except.ok (bit_shifted bit h value)

theorem changeFlag_eq (change : FlagChange) (f : Flags) :
    changeFlag (.implied (.flag change)) f = .ok (change.apply f) := by
  cases change <;> rfl

end M740.Checked
