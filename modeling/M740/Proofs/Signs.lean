import M740.Word

/-!
# Signs

The sign of a byte is its top bit, and the ALU finds an overflow in nothing but signs: the result
has another one than both operands (`Byte.overflow_eq`). For a sum this is the case when a byte does
not hold it, with the operands read in two's complement (`Byte.overflow_iff`).
-/

namespace M740.Byte

theorem negative_eq_msb : ∀ b : Byte, b.negative = b.toBitVec.msb := by decide +kernel

theorem negative_iff (b : Byte) : b.negative = true ↔ 128 ≤ b.toNat :=
  decide_eq_true_iff.trans UInt8.le_iff_toNat_le

theorem negative_ofNat (n : Nat) : negative (UInt8.ofNat n) = decide (128 ≤ n % 256) := by
  rw [negative, decide_eq_decide, UInt8.le_iff_toNat_le, UInt8.toNat_ofNat']
  rfl

theorem signed_eq : ∀ d : Byte,
    d.signed = if d.toNat < 0x80 then (d.toNat : Int) else d.toNat - 256 := by
  decide +kernel

/-- The complement counts down from minus one. -/
theorem signed_complement : ∀ b : Byte, (~~~b).signed = -1 - b.signed := by decide +kernel

theorem toNat_complement (b : Byte) : (~~~b).toNat = 255 - b.toNat := by
  simp [UInt8.toNat_not, UInt8.size]

/-- The result has another sign than both operands. -/
theorem overflow_eq (a b r : Byte) :
    ((a ^^^ r) &&& (b ^^^ r)).negative =
      ((a.negative ^^ r.negative) && (b.negative ^^ r.negative)) := by
  simp only [negative_eq_msb, UInt8.toBitVec_and, UInt8.toBitVec_xor, BitVec.msb_and,
    BitVec.msb_xor]

/-- An overflow is seen in the sign of the result alone. -/
theorem overflow_congr {r r' : Byte} (h : r.negative = r'.negative) (a b : Byte) :
    ((a ^^^ r) &&& (b ^^^ r)).negative = ((a ^^^ r') &&& (b ^^^ r')).negative := by
  rw [overflow_eq, overflow_eq, h]

theorem negative_xor_iff (a r : Byte) :
    (a.negative ^^ r.negative) = true ↔ (128 ≤ a.toNat ↔ ¬ 128 ≤ r.toNat) := by
  rw [← negative_iff, ← negative_iff]
  cases a.negative <;> cases r.negative <;> decide

/-- A byte does not hold the sum of the operands, read in two's complement. -/
theorem overflow_iff {a b r : Byte} {carry : Nat} (hc : carry ≤ 1)
    (hr : r.toNat = (a.toNat + b.toNat + carry) % 256) :
    ((a ^^^ r) &&& (b ^^^ r)).negative = true ↔
      ¬ (-128 ≤ a.signed + b.signed + carry ∧ a.signed + b.signed + carry < 128) := by
  have ha := a.toNat_lt
  have hb := b.toNat_lt
  rw [overflow_eq, Bool.and_eq_true, negative_xor_iff, negative_xor_iff, signed_eq, signed_eq]
  split <;> split <;> omega

end M740.Byte
