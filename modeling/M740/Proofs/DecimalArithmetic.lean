import M740.Proofs.DecimalLanes
import M740.Proofs.LongNumbers

/-!
# Decimal arithmetic

A byte whose lanes are both below ten is a digit in base 100, and on such digits the decimal
corrections are the carries of that base: a step of a decimal addition or subtraction obeys the law
of a digit, and chains of steps work out decimal numbers of any length (`decimal_chain`).
-/

namespace M740.Alu

/-- Bytes as two decimal digits. -/
def decimal : Numeral where
  base := 100
  digit b := b.lowDigit + 10 * b.highDigit
  Valid b := b.lowDigit < 10 ∧ b.highDigit < 10
  decimal := true
  one_lt_base := by decide
  digit_lt h := by omega
  digit_inj h h' hdigit := by
    apply UInt8.toNat_inj.1
    rw [Byte.toNat_digits, Byte.toNat_digits]
    omega

instance : DecidablePred decimal.Valid := fun b =>
  inferInstanceAs (Decidable (b.lowDigit < 10 ∧ b.highDigit < 10))

/-! ### Lanes -/

section
variable {t v : Nat} (ht : t < 10) (hv : v < 10) (carry : Bool)
include ht hv

/-- On decimal digits, the carry of a lane stands for ten. -/
theorem addLane_decimal :
    (addLane t v carry).digit < 10 ∧
      (addLane t v carry).digit + 10 * (addLane t v carry).out.toNat = t + v + carry.toNat := by
  have hc := carry.toNat_lt
  unfold addLane
  dsimp only
  split <;> dsimp only [Bool.toNat_true, Bool.toNat_false] <;> omega

/-- On decimal digits, what a lane borrows stands for ten. -/
theorem subtractLane_decimal :
    (subtractLane t v carry).digit < 10 ∧
      ((subtractLane t v carry).digit : Int) - 10 * (subtractLane t v carry).out.toNat =
        t - v - carry.toNat := by
  have hc := carry.toNat_lt
  rcases subtractLane_cases t v carry with ⟨hneg, hout, hdigit⟩ | ⟨hnonneg, hout, hdigit⟩
  · rw [hout, hdigit, Bool.toNat_true]
    omega
  · rw [hout, hdigit, Bool.toNat_false]
    omega

end

theorem Lanes.digits_byte {l : Lanes} (hlow : l.low.digit < 16) (hhigh : l.high.digit < 16) :
    l.byte.lowDigit = l.low.digit ∧ l.byte.highDigit = l.high.digit := by
  have hbyte : l.byte.toNat = (l.low.digit + 16 * l.high.digit) % 256 := UInt8.toNat_ofNat'
  unfold Byte.lowDigit Byte.highDigit
  omega

/-! ### One digit -/

section
variable {f : Flags} (hd : f.d = true) {a b : Byte} (ha : decimal.Valid a) (hb : decimal.Valid b)
include hd ha hb

theorem decimal_add :
    decimal.Valid (add f a b).1 ∧
      decimal.digit (add f a b).1 + 100 * (add f a b).2.c.toNat =
        decimal.digit a + decimal.digit b + f.c.toNat := by
  let l := lanes addLane a b f.c
  obtain ⟨hbyte, hcarry⟩ : (addDecimal f a b).1 = l.byte ∧ (addDecimal f a b).2.c = l.high.out :=
    addDecimal_lanes f a b
  obtain ⟨hlow, hlowsum⟩ : l.low.digit < 10 ∧
      l.low.digit + 10 * l.low.out.toNat = a.lowDigit + b.lowDigit + f.c.toNat :=
    addLane_decimal ha.1 hb.1 f.c
  obtain ⟨hhigh, hhighsum⟩ : l.high.digit < 10 ∧
      l.high.digit + 10 * l.high.out.toNat = a.highDigit + b.highDigit + l.low.out.toNat :=
    addLane_decimal ha.2 hb.2 l.low.out
  obtain ⟨hlowbyte, hhighbyte⟩ := Lanes.digits_byte (l := l) (by omega) (by omega)
  rw [add_eq_addDecimal hd, hbyte, hcarry]
  unfold decimal
  dsimp only
  rw [hlowbyte, hhighbyte]
  omega

theorem decimal_subtract :
    decimal.Valid (subtract f a b).1 ∧
      (decimal.digit (subtract f a b).1 : Int) + 100 * ((subtract f a b).2.c.toNat - 1) =
        decimal.digit a - decimal.digit b + (f.c.toNat - 1) := by
  let l := lanes subtractLane a b (!f.c)
  obtain ⟨hbyte, hcarry⟩ : (subtractDecimal f a b).1 =
      (if l.Overcorrected then l.byte - 0x60 else l.byte) ∧
        (subtractDecimal f a b).2.c = !l.high.out := subtractDecimal_lanes f a b
  obtain ⟨hlow, hlowdifference⟩ : l.low.digit < 10 ∧
      (l.low.digit : Int) - 10 * l.low.out.toNat = a.lowDigit - b.lowDigit - (!f.c).toNat :=
    subtractLane_decimal ha.1 hb.1 (!f.c)
  obtain ⟨hhigh, hhighdifference⟩ : l.high.digit < 10 ∧
      (l.high.digit : Int) - 10 * l.high.out.toNat = a.highDigit - b.highDigit - l.low.out.toNat :=
    subtractLane_decimal ha.2 hb.2 l.low.out
  obtain ⟨hlowbyte, hhighbyte⟩ := Lanes.digits_byte (l := l) (by omega) (by omega)
  -- with a high digit below ten the difference is not taken for a borrow
  have hnot : ¬ l.Overcorrected := fun h => by
    have hmany : 0xF0 < l.byte.toNat := UInt8.lt_iff_toNat_lt.1 h.2
    rw [Byte.toNat_digits, hlowbyte, hhighbyte] at hmany
    omega
  have hborrow (c : Bool) : ((!c).toNat : Int) = 1 - c.toNat := by cases c <;> rfl
  rw [hborrow] at hlowdifference
  rw [subtract_eq_subtractDecimal hd, hbyte, hcarry, if_neg hnot, hborrow]
  unfold decimal
  dsimp only
  rw [hlowbyte, hhighbyte]
  omega

end

section
variable {f : Flags} (hd : f.d = true) (a b : Byte)
include hd

/-- After an addition, V is the overflow of the high digits and the carry from the low ones, before
they are corrected. -/
theorem decimal_add_overflow :
    let carry : Nat := if 10 ≤ a.lowDigit + b.lowDigit + f.c.toNat then 1 else 0
    let high := Byte.signedDigit a.highDigit + Byte.signedDigit b.highDigit + carry
    (add f a b).2.v = true ↔ ¬ (-8 ≤ high ∧ high < 8) := by
  intro carry high
  have hcarry : (lanes addLane a b f.c).low.out.toNat = carry := by
    show (addLane a.lowDigit b.lowDigit f.c).out.toNat = carry
    unfold addLane
    dsimp only [carry]
    split <;> rfl
  have hv := addDecimal_overflow f a b
  dsimp only at hv
  rwa [hcarry, ← add_eq_addDecimal hd] at hv

/-- After a subtraction, V is the overflow of the binary difference. -/
theorem decimal_subtract_overflow :
    let binary := a.signed - b.signed - (1 - f.c.toNat)
    (subtract f a b).2.v = true ↔ ¬ (-128 ≤ binary ∧ binary < 128) := by
  rw [subtract_eq_subtractDecimal hd]
  exact subtractDecimal_overflow f a b

end

theorem decimal_law (s : Sense) : decimal.Law s where
  valid hd ha hb := by
    cases s with
    | sum => exact (decimal_add hd ha hb).1
    | difference => exact (decimal_subtract hd ha hb).1
  digit {f a b} hd ha hb := by
    cases s with
    | sum =>
      have h := (decimal_add hd ha hb).2
      simp only [Sense.apply, Sense.sign, Sense.carried, Int.one_mul]
      exact_mod_cast h
    | difference =>
      have h := (decimal_subtract hd ha hb).2
      simp only [Sense.apply, Sense.sign, Sense.carried, Int.neg_one_mul]
      exact h

/-! ### Chains -/

/-- Chains of decimal additions and subtractions work out decimal numbers of any length: the bytes
are decimal digits again, and with the last carry they are the sum, or the difference with what was
borrowed. What was added can be subtracted again. At each byte N and Z describe what it has become;
V is the overflow of the high digits and the carry from the low ones after an addition, and of the
binary difference after a subtraction. -/
theorem decimal_chain {n : Nat} {as bs : List Byte} (ha : as.length = n) (hb : bs.length = n)
    (hva : ∀ a ∈ as, decimal.Valid a) (hvb : ∀ b ∈ bs, decimal.Valid b) {f : Flags}
    (hd : f.d = true) :
    let sum := chain add f (as.zip bs)
    let difference := chain subtract f (as.zip bs)
    (sum.1.length = n ∧ ∀ r ∈ sum.1, decimal.Valid r) ∧
    (difference.1.length = n ∧ ∀ r ∈ difference.1, decimal.Valid r) ∧
    decimal.number sum.1 + sum.2.c.toNat * 100 ^ n =
      decimal.number as + decimal.number bs + f.c.toNat ∧
    (decimal.number difference.1 : Int) =
      decimal.number as - decimal.number bs - (1 - f.c.toNat) +
        (1 - difference.2.c.toNat) * 100 ^ n ∧
    (∀ g : Flags, g.d = true → g.c = !f.c → (chain subtract g (sum.1.zip bs)).1 = as) ∧
    ∀ before a b after, as.zip bs = before ++ (a, b) :: after →
      (let lower := chain add f before
       let r := add lower.2 a b
       let carry : Nat := if 10 ≤ a.lowDigit + b.lowDigit + lower.2.c.toNat then 1 else 0
       let high := Byte.signedDigit a.highDigit + Byte.signedDigit b.highDigit + carry
       sum.1 = lower.1 ++ r.1 :: (chain add r.2 after).1 ∧
         r.2.n = r.1.negative ∧ r.2.z = (r.1 == 0) ∧
         (r.2.v = true ↔ ¬ (-8 ≤ high ∧ high < 8))) ∧
      (let lower := chain subtract f before
       let r := subtract lower.2 a b
       let binary := a.signed - b.signed - (1 - lower.2.c.toNat)
       difference.1 = lower.1 ++ r.1 :: (chain subtract r.2 after).1 ∧
         r.2.n = r.1.negative ∧ r.2.z = (r.1 == 0) ∧
         (r.2.v = true ↔ ¬ (-128 ≤ binary ∧ binary < 128))) := by
  intro sum difference
  have hsame : as.length = bs.length := ha.trans hb.symm
  have hlength : (as.zip bs).length = n := by rw [List.length_zip, ha, hb, Nat.min_self]
  have hvalid := Numeral.valid_zip hva hvb
  have hadd := (decimal_law .sum).add_chain hsame hd hva hvb
  have hsubtract := (decimal_law .difference).subtract_chain hsame hd hva hvb
  rw [ha] at hadd hsubtract
  refine ⟨⟨?_, ?_⟩, ⟨?_, ?_⟩, hadd, hsubtract, fun g hg hc => ?_, ?_⟩
  · exact (length_chain ..).trans hlength
  · exact (decimal_law .sum).valid_chain hd hvalid
  · exact (length_chain ..).trans hlength
  · exact (decimal_law .difference).valid_chain hd hvalid
  · exact ((decimal_law .sum).subtract_chain_add_chain hsame (decimal_law .difference) hd hva hvb
      hg hc).1
  · intro before a b after hpairs
    have hlower (s : Sense) : (chain s.apply f before).2.d = true := (s.chain_d f before).trans hd
    obtain ⟨hn, hz⟩ := Sense.sum.apply_described (chain add f before).2 a b
    obtain ⟨hn', hz'⟩ := Sense.difference.apply_described (chain subtract f before).2 a b
    refine ⟨⟨?_, hn, hz, decimal_add_overflow (hlower .sum) a b⟩, ?_, hn', hz',
      decimal_subtract_overflow (hlower .difference) a b⟩
    · dsimp only [sum]
      rw [hpairs, chain_append]
      rfl
    · dsimp only [difference]
      rw [hpairs, chain_append]
      rfl

/-- A carry goes through the low digit of the highest byte. In two's complement its high digits do
not hold their sum. -/
theorem decimal_chain_carried :
    let as := [0x99, 0x45]
    let bs := [0x01, 0x54]
    let f : Flags := { d := true }
    let sum := chain add f (as.zip bs)
    (as.length = 2 ∧ bs.length = 2 ∧ (∀ a ∈ as, decimal.Valid a) ∧ ∀ b ∈ bs, decimal.Valid b) ∧
      sum.1 = [0x00, 0x00] ∧ sum.2.c = true ∧ sum.2.v = true ∧
      (chain subtract { sum.2 with c := true } (sum.1.zip bs)).1 = as := by
  intro as bs f sum
  have hva : ∀ a ∈ as, decimal.Valid a := by decide +kernel
  have hvb : ∀ b ∈ bs, decimal.Valid b := by decide +kernel
  have hsum : sum.1 = [0x00, 0x00] ∧ sum.2.c = true := by decide
  obtain ⟨-, -, -, -, hundo, hbytes⟩ := decimal_chain rfl (show bs.length = 2 from rfl) hva hvb
    (show f.d = true from rfl)
  obtain ⟨⟨-, -, -, hv⟩, -⟩ := hbytes [(0x99, 0x01)] 0x45 0x54 [] rfl
  exact ⟨⟨rfl, rfl, hva, hvb⟩, hsum.1, hsum.2, hv.2 (by decide), hundo _ (by decide) rfl⟩

end M740.Alu
