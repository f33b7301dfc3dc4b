import M740.Alu.Arithmetic
import M740.Proofs.Signs

/-!
# Decimal lanes

Decimal arithmetic takes a byte as two lanes of four bits. A lane that leaves the decimal range is
corrected by six and carries into the next lane, or borrows from it; this is also what happens to
bytes that are not two decimal digits. Sums are worked out so for all bytes
(`Alu.addDecimal_lanes`). Differences are too, but for one case (`Alu.subtractDecimal_lanes`):
fifteen sixteens and something left over are corrected although nothing was borrowed.
-/

namespace M740

namespace Byte

variable (b : Byte)

def lowDigit : Nat := b.toNat % 16

def highDigit : Nat := b.toNat / 16

theorem lowDigit_lt : b.lowDigit < 16 := Nat.mod_lt _ (by decide)

theorem highDigit_lt : b.highDigit < 16 :=
  Nat.div_lt_of_lt_mul b.toNat_lt

theorem toNat_digits : b.toNat = b.lowDigit + 16 * b.highDigit := (Nat.mod_add_div _ _).symm

/-- Four bits in two's complement. -/
def signedDigit (d : Nat) : Int := (d : Int).bmod 16

theorem signedDigit_eq : ∀ d < 16, signedDigit d = if d < 8 then (d : Int) else d - 16 := by
  decide

end Byte

namespace Alu

/-- What a lane keeps, and whether it carries into the next one or borrows from it. -/
structure Lane where
  digit : Nat
  out : Bool
  deriving DecidableEq, Repr

/-- From ten on, a sum is corrected by six and carries. -/
def addLane (t v : Nat) (carry : Bool) : Lane :=
  let value := t + v + carry.toNat
  if 10 ≤ value then ⟨(value + 6) % 16, true⟩ else ⟨value, false⟩

/-- Below zero, a difference is corrected by six and borrows. -/
def subtractLane (t v : Nat) (borrow : Bool) : Lane :=
  let value : Int := t - v - borrow.toNat
  if value < 0 then ⟨((value - 6) % 16).toNat, true⟩ else ⟨value.toNat, false⟩

/-- The lanes of a byte. -/
structure Lanes where
  low : Lane
  high : Lane
  deriving DecidableEq, Repr

/-- The low lane, and then the high one with what comes out of the low one. -/
def lanes (lane : Nat → Nat → Bool → Lane) (t v : Byte) (carry : Bool) : Lanes :=
  let low := lane t.lowDigit v.lowDigit carry
  ⟨low, lane t.highDigit v.highDigit low.out⟩

def Lanes.byte (l : Lanes) : Byte := UInt8.ofNat (l.low.digit + 16 * l.high.digit)

section
variable {f : Flags} (hd : f.d = true) (t v : Byte)
include hd

theorem add_eq_addDecimal : add f t v = addDecimal f t v := if_pos hd

theorem subtract_eq_subtractDecimal : subtract f t v = subtractDecimal f t v := if_pos hd

end

/-! ### Sums -/

section
variable (t v : Nat) (carry : Bool)

theorem addLane_lt : (addLane t v carry).digit < 16 := by
  unfold addLane
  dsimp only
  split
  · exact Nat.mod_lt _ (by decide)
  · show t + v + carry.toNat < 16
    omega

theorem correctLow_eq :
    correctLow (t + v + carry.toNat) =
      (addLane t v carry).digit + 16 * (addLane t v carry).out.toNat := by
  unfold correctLow addLane
  dsimp only
  split <;> rfl

/-- The low digit has no influence on the correction of a sum. -/
theorem correctHigh_eq {low : Nat} (hlow : low < 16) :
    correctHigh (low + 16 * (t + v + carry.toNat)) =
      low + 16 * (addLane t v carry).digit + 256 * (addLane t v carry).out.toNat := by
  unfold correctHigh addLane
  dsimp only
  by_cases h : 10 ≤ t + v + carry.toNat
  · rw [if_pos h, if_pos (show 0xA0 ≤ low + 16 * (t + v + carry.toNat) by omega)]
    show (low + 16 * (t + v + carry.toNat) + 0x60) % 0x100 + 0x100 =
      low + 16 * ((t + v + carry.toNat + 6) % 16) + 256 * 1
    omega
  · rw [if_neg h, if_neg (show ¬ 0xA0 ≤ low + 16 * (t + v + carry.toNat) by omega)]
    rfl

end

section
variable (f : Flags) (t v : Byte)

/-- The sum before the high digit is corrected. -/
theorem partialSum_eq :
    let low := (lanes addLane t v f.c).low
    correctLow (t.toNat % 16 + v.toNat % 16 + f.c.toNat) + t.toNat / 16 * 16 + v.toNat / 16 * 16 =
      low.digit + 16 * (t.highDigit + v.highDigit + low.out.toNat) := by
  intro low
  have h : correctLow (t.toNat % 16 + v.toNat % 16 + f.c.toNat) =
      low.digit + 16 * low.out.toNat := correctLow_eq t.lowDigit v.lowDigit f.c
  rw [h]
  unfold Byte.highDigit
  omega

/-- A decimal sum is that of the lanes, whatever the bytes. -/
theorem addDecimal_lanes :
    let l := lanes addLane t v f.c
    (addDecimal f t v).1 = l.byte ∧ (addDecimal f t v).2.c = l.high.out := by
  intro l
  have hlow : l.low.digit < 16 := addLane_lt ..
  have hhigh : l.high.digit < 16 := addLane_lt ..
  have hsum := correctHigh_eq t.highDigit v.highDigit l.low.out hlow
  unfold addDecimal
  dsimp only
  rw [partialSum_eq, hsum]
  constructor
  · apply UInt8.toNat_inj.1
    show (UInt8.ofNat (l.low.digit + 16 * l.high.digit + 256 * l.high.out.toNat)).toNat =
      (UInt8.ofNat (l.low.digit + 16 * l.high.digit)).toNat
    rw [UInt8.toNat_ofNat', UInt8.toNat_ofNat']
    omega
  · show decide (0x100 ≤ l.low.digit + 16 * l.high.digit + 256 * l.high.out.toNat) = l.high.out
    cases l.high.out with
    | false => exact decide_eq_false (by rw [Bool.toNat_false]; omega)
    | true => exact decide_eq_true (by rw [Bool.toNat_true]; omega)

/-- V is the overflow of the high digits, with the carry from the low ones, before they are
corrected. -/
theorem addDecimal_overflow :
    let high := Byte.signedDigit t.highDigit + Byte.signedDigit v.highDigit +
      (lanes addLane t v f.c).low.out.toNat
    (addDecimal f t v).2.v = true ↔ ¬ (-8 ≤ high ∧ high < 8) := by
  intro high
  have hlow : (lanes addLane t v f.c).low.digit < 16 := addLane_lt ..
  have hout := (lanes addLane t v f.c).low.out.toNat_lt
  have ht := t.highDigit_lt
  have hv := v.highDigit_lt
  unfold addDecimal
  dsimp only
  rw [partialSum_eq, Byte.overflow_eq, Bool.and_eq_true, Byte.negative_xor_iff,
    Byte.negative_xor_iff, UInt8.toNat_ofNat', t.toNat_digits, v.toNat_digits]
  have ht' := t.lowDigit_lt
  have hv' := v.lowDigit_lt
  dsimp only [high]
  rw [Byte.signedDigit_eq _ ht, Byte.signedDigit_eq _ hv]
  -- the signs are those of the high digits: the low lane stays below sixteen
  split <;> split <;> omega

end

/-! ### Differences -/

/-- A lane borrows below zero. -/
theorem subtractLane_cases (t v : Nat) (borrow : Bool) :
    let value : Int := t - v - borrow.toNat
    let l := subtractLane t v borrow
    (value < 0 ∧ l.out = true ∧ (l.digit : Int) = (value - 6) % 16) ∨
      (0 ≤ value ∧ l.out = false ∧ (l.digit : Int) = value) := by
  intro value l
  by_cases h : value < 0
  · have hl : l = ⟨((value - 6) % 16).toNat, true⟩ := if_pos h
    rw [hl]
    exact .inl ⟨h, rfl, Int.toNat_of_nonneg (Int.emod_nonneg _ (by decide))⟩
  · have hl : l = ⟨value.toNat, false⟩ := if_neg h
    rw [hl]
    exact .inr ⟨Int.not_lt.1 h, rfl, Int.toNat_of_nonneg (Int.not_lt.1 h)⟩

theorem subtractLane_lt {t : Nat} (ht : t < 16) (v : Nat) (borrow : Bool) :
    (subtractLane t v borrow).digit < 16 := by
  have h := subtractLane_cases t v borrow
  dsimp only at h
  omega

/-- A difference below zero is corrected. -/
theorem correct_borrowed {low high : Nat} (hlow : low < 16) {value : Int} (hneg : value < 0)
    (hhigh : (high : Int) = (value - 6) % 16) :
    let difference : Int := low + 16 * value
    let corrected := if difference < 0 ∨ 0xF0 < difference then difference - 0x60 else difference
    corrected < 0 ∧ corrected % 0x100 = low + 16 * high := by
  intro difference corrected
  have hcorrected : corrected = low + 16 * value - 0x60 := if_pos (.inl (by omega))
  omega

/-- A difference that is not below zero is corrected if it is more than fifteen sixteens. -/
theorem correct_kept {difference : Nat} (h : difference < 256) :
    let corrected : Int :=
      if (difference : Int) < 0 ∨ 0xF0 < (difference : Int) then difference - 0x60 else difference
    0 ≤ corrected ∧
      corrected % 0x100 = if 0xF0 < difference then (difference : Int) - 0x60 else difference := by
  intro corrected
  by_cases hmany : 0xF0 < difference
  · have hcorrected : corrected = difference - 0x60 := if_pos (.inr (by omega))
    rw [hcorrected, if_pos hmany]
    omega
  · have hcorrected : corrected = difference := if_neg (by omega)
    rw [hcorrected, if_neg hmany]
    omega

/-- More than fifteen sixteens are left, and nothing was borrowed. -/
def Lanes.Overcorrected (l : Lanes) : Prop := l.high.out = false ∧ 0xF0 < l.byte

instance (l : Lanes) : Decidable l.Overcorrected :=
  inferInstanceAs (Decidable (_ ∧ _))

section
variable (f : Flags) (t v : Byte)

/-- The difference before the high digit is corrected. -/
theorem difference_eq :
    let borrow : Int := (!f.c).toNat
    let low : Int := (t.toNat % 16 : Nat) - (v.toNat % 16 : Nat) - borrow
    let l := (lanes subtractLane t v (!f.c)).low
    (if low < 0 then low - 6 else low) % 16 + (t.toNat / 16 * 16 : Nat) -
        (v.toNat / 16 * 16 : Nat) - (if low < 0 then 16 else 0) =
      l.digit + 16 * ((t.highDigit : Int) - v.highDigit - l.out.toNat) := by
  intro borrow low l
  have ht := t.lowDigit_lt
  have hcases : (low < 0 ∧ l.out = true ∧ (l.digit : Int) = (low - 6) % 16) ∨
      (0 ≤ low ∧ l.out = false ∧ (l.digit : Int) = low) :=
    subtractLane_cases t.lowDigit v.lowDigit (!f.c)
  unfold Byte.highDigit
  rcases hcases with ⟨hlow, hout, hdigit⟩ | ⟨hlow, hout, hdigit⟩
  · rw [if_pos hlow, if_pos hlow, hout, hdigit, Bool.toNat_true]
    omega
  · have hlt : low < 16 := by rw [← hdigit]; exact_mod_cast subtractLane_lt ht ..
    rw [if_neg (Int.not_lt.2 hlow), if_neg (Int.not_lt.2 hlow), hout, hdigit, Bool.toNat_false,
      Int.emod_eq_of_lt hlow hlt]
    omega

theorem toNat_byte_difference :
    let l := lanes subtractLane t v (!f.c)
    l.byte.toNat = l.low.digit + 16 * l.high.digit := by
  intro l
  have hlow : l.low.digit < 16 := subtractLane_lt t.lowDigit_lt ..
  have hhigh : l.high.digit < 16 := subtractLane_lt t.highDigit_lt ..
  show (l.low.digit + 16 * l.high.digit) % 256 = _
  omega

/-- A decimal difference is that of the lanes, with what they borrow. The byte is six sixteens less
where it was corrected although nothing was borrowed. -/
theorem subtractDecimal_lanes :
    let l := lanes subtractLane t v (!f.c)
    (subtractDecimal f t v).1 = (if l.Overcorrected then l.byte - 0x60 else l.byte) ∧
      (subtractDecimal f t v).2.c = !l.high.out := by
  intro l
  have hlow : l.low.digit < 16 := subtractLane_lt t.lowDigit_lt ..
  have hbyte : l.byte.toNat = l.low.digit + 16 * l.high.digit := toNat_byte_difference f t v
  have hdifference : _ = (l.low.digit : Int) +
      16 * ((t.highDigit : Int) - v.highDigit - l.low.out.toNat) := difference_eq f t v
  have hcases : (_ ∧ l.high.out = true ∧ (l.high.digit : Int) = _) ∨
      (_ ∧ l.high.out = false ∧ (l.high.digit : Int) = _) :=
    subtractLane_cases t.highDigit v.highDigit l.low.out
  unfold subtractDecimal
  dsimp only
  rw [hdifference]
  -- the correction looks at the difference of both lanes, which is below zero with the high one
  rcases hcases with ⟨hneg, hout, hdigit⟩ | ⟨hnonneg, hout, hdigit⟩
  · obtain ⟨hbelow, hmod⟩ := correct_borrowed hlow hneg hdigit
    have hnot : ¬ l.Overcorrected := fun h => absurd h.1 (by rw [hout]; decide)
    rw [if_neg hnot, hout, hmod]
    refine ⟨UInt8.toNat_inj.1 ?_, decide_eq_false (Int.not_le.2 hbelow)⟩
    rw [hbyte, UInt8.toNat_ofNat']
    omega
  · have hkept : (l.low.digit : Int) + 16 * ((t.highDigit : Int) - v.highDigit - l.low.out.toNat) =
        l.byte.toNat := by
      rw [hbyte, ← hdigit]
      push_cast
      rfl
    obtain ⟨habove, hmod⟩ := correct_kept l.byte.toNat_lt
    have hiff : l.Overcorrected ↔ 0xF0 < l.byte.toNat :=
      (and_iff_right hout).trans UInt8.lt_iff_toNat_lt
    have hlt := l.byte.toNat_lt
    rw [hkept, hout, hmod]
    refine ⟨UInt8.toNat_inj.1 ?_, decide_eq_true habove⟩
    rw [UInt8.toNat_ofNat']
    by_cases hover : l.Overcorrected
    · rw [if_pos (hiff.1 hover), if_pos hover, UInt8.toNat_sub]
      show (l.byte.toNat - 0x60 : Int).toNat % 256 = (256 - 0x60 + l.byte.toNat) % 256
      have := hiff.1 hover
      omega
    · rw [if_neg (mt hiff.2 hover), if_neg hover]
      omega

/-- V is the overflow of the binary difference. -/
theorem subtractDecimal_overflow :
    let binary := t.signed - v.signed - (1 - f.c.toNat)
    (subtractDecimal f t v).2.v = true ↔ ¬ (-128 ≤ binary ∧ binary < 128) := by
  intro binary
  let r := t - v - (!f.c).toUInt8
  have hr : r.toNat = (t.toNat + (~~~v).toNat + f.c.toNat) % 256 := by
    have hv := v.toNat_lt
    rw [UInt8.toNat_sub, UInt8.toNat_sub, Byte.toNat_complement]
    cases f.c with
    | false =>
      show (256 - 1 + (256 - v.toNat + t.toNat) % 256) % 256 = (t.toNat + (255 - v.toNat)) % 256
      omega
    | true =>
      show (256 - 0 + (256 - v.toNat + t.toNat) % 256) % 256 =
        (t.toNat + (255 - v.toNat) + 1) % 256
      omega
  have hxor : (r ^^^ t) &&& (~~~r ^^^ v) = (t ^^^ r) &&& (~~~v ^^^ r) := by
    rw [UInt8.not_xor, UInt8.not_xor, UInt8.xor_comm r t, UInt8.xor_comm r v]
  have hsigned : t.signed + (~~~v).signed + f.c.toNat = binary := by
    rw [Byte.signed_complement]
    dsimp only [binary]
    omega
  have h := Byte.overflow_iff (Nat.le_of_lt_succ f.c.toNat_lt) hr
  rwa [← hxor, hsigned] at h

end

end Alu

end M740
