import Mathlib.Tactic.Linarith
import M740.Proofs.LongNumbers
import M740.Proofs.Signs

/-!
# Binary arithmetic

Bytes are digits in base 256, and a step of a binary addition or subtraction obeys the law of such a
digit, so chains of steps work out numbers of any length. In two's complement only the highest byte
has a sign, and the carry that comes from below it is all that it needs to know of the others: V
after the last step tells that the whole result does not fit (`overflow_chain`).
-/

namespace M740.Alu

/-- Bytes as binary digits. -/
def binary : Numeral where
  base := 256
  digit := UInt8.toNat
  Valid _ := True
  decimal := false
  one_lt_base := by decide
  digit_lt _ := UInt8.toNat_lt _
  digit_inj _ _ := UInt8.toNat_inj.1

/-! ### One digit -/

section
variable (f : Flags) (a b : Byte)

theorem toNat_addBinary :
    (addBinary f a b).1.toNat = (a.toNat + b.toNat + f.c.toNat) % 256 :=
  UInt8.toNat_ofNat'

theorem addBinary_carry :
    (addBinary f a b).2.c = decide (0xFF < a.toNat + b.toNat + f.c.toNat) := rfl

/-- The carry takes along what the byte does not hold. -/
theorem addBinary_digit :
    (addBinary f a b).1.toNat + 256 * (addBinary f a b).2.c.toNat =
      a.toNat + b.toNat + f.c.toNat := by
  have ha := a.toNat_lt
  have hb := b.toNat_lt
  have hc := f.c.toNat_lt
  rw [toNat_addBinary, addBinary_carry]
  by_cases h : 0xFF < a.toNat + b.toNat + f.c.toNat
  · simp only [h, decide_true, Bool.toNat_true]
    omega
  · simp only [h, decide_false, Bool.toNat_false]
    omega

theorem addBinary_overflow :
    (addBinary f a b).2.v = true ↔
      ¬ (-128 ≤ a.signed + b.signed + f.c.toNat ∧ a.signed + b.signed + f.c.toNat < 128) :=
  Byte.overflow_iff (Nat.le_of_lt_succ f.c.toNat_lt) (toNat_addBinary f a b)

/-- A comparison leaves the flags of a subtraction without a borrow, but for V. -/
theorem compare_eq :
    compare f a b = { (subtractBinary { f with c := true } a b).2 with v := f.v } := by
  have ha := a.toNat_lt
  have hb := b.toNat_lt
  have hcomplement := Byte.toNat_complement b
  have hresult : (subtractBinary { f with c := true } a b).1 = a - b := by
    rw [← UInt8.toNat_inj, subtractBinary, toNat_addBinary, UInt8.toNat_sub, hcomplement]
    show (a.toNat + (255 - b.toNat) + 1) % 256 = _
    omega
  have hcarry : (subtractBinary { f with c := true } a b).2.c = decide (b ≤ a) := by
    rw [subtractBinary, addBinary_carry, decide_eq_decide, UInt8.le_iff_toNat_le, hcomplement]
    show 255 < a.toNat + (255 - b.toNat) + 1 ↔ _
    omega
  rw [compare, ← hresult, ← hcarry]
  rfl

end

section
variable {f : Flags} (hd : f.d = false) (s : Sense) (a b : Byte)
include hd

theorem add_eq_addBinary : add f a b = addBinary f a b := by
  rw [add, hd]
  rfl

theorem subtract_eq_addBinary : subtract f a b = addBinary f a (~~~b) := by
  rw [subtract, hd]
  rfl

theorem binary_digit :
    ((s.apply f a b).1.toNat : Int) + 256 * s.carried (s.apply f a b).2.c =
      a.toNat + s.sign * b.toNat + s.carried f.c := by
  have hb := b.toNat_lt
  have hcomplement := Byte.toNat_complement b
  cases s with
  | sum =>
    have hdigit := addBinary_digit f a b
    simp only [Sense.apply, Sense.carried, Sense.sign, add_eq_addBinary hd]
    omega
  | difference =>
    have hdigit := addBinary_digit f a (~~~b)
    simp only [Sense.apply, Sense.carried, Sense.sign, subtract_eq_addBinary hd]
    omega

theorem binary_overflow :
    let signed := a.signed + s.sign * b.signed + s.carried f.c
    (s.apply f a b).2.v = true ↔ ¬ (-128 ≤ signed ∧ signed < 128) := by
  cases s with
  | sum =>
    simp only [Sense.apply, Sense.carried, Sense.sign, add_eq_addBinary hd, addBinary_overflow,
      Int.one_mul]
  | difference =>
    simp only [Sense.apply, Sense.carried, Sense.sign, subtract_eq_addBinary hd,
      addBinary_overflow, Byte.signed_complement]
    omega

end

theorem binary_law (s : Sense) : binary.Law s where
  valid _ _ _ := trivial
  digit hd _ _ := binary_digit hd s _ _

/-! ### Two's complement -/

/-- The number that bytes denote in two's complement, the lowest first. -/
def signedNumber (bytes : List Byte) : Int :=
  (binary.number bytes : Int).bmod (256 ^ bytes.length)

/-- So many bytes hold the number in two's complement. -/
def Fits (width : Nat) (x : Int) : Prop :=
  -(256 : Int) ^ width ≤ x * 2 ∧ x * 2 < 256 ^ width

/-- Whether a number fits is a matter of its highest digit. -/
theorem fits_concat {width : Nat} {low : Int} (h : 0 ≤ low) (h' : low < 256 ^ width) (top : Int) :
    Fits (width + 1) (low + 256 ^ width * top) ↔ -128 ≤ top ∧ top < 128 := by
  rw [Fits, pow_succ]
  generalize (256 : Int) ^ width = weight at *
  constructor
  · rintro ⟨hmin, hmax⟩
    -- the lower digits are worth less than one of the highest and do not make up for it
    constructor <;> by_contra htop
    · have := Int.mul_le_mul_of_nonneg_left (show top ≤ -129 by omega) (Int.le_trans h h'.le)
      linarith
    · have := Int.mul_le_mul_of_nonneg_left (show 128 ≤ top by omega) (Int.le_trans h h'.le)
      linarith
  · rintro ⟨hmin, hmax⟩
    have hlow := Int.mul_le_mul_of_nonneg_left hmin (Int.le_trans h h'.le)
    have hhigh := Int.mul_le_mul_of_nonneg_left (show top ≤ 127 by omega) (Int.le_trans h h'.le)
    constructor <;> linarith

/-- The sign is in the highest byte alone. -/
theorem signedNumber_concat (low : List Byte) (top : Byte) :
    signedNumber (low ++ [top]) = binary.number low + 256 ^ low.length * top.signed := by
  have hlow : binary.number low < 256 ^ low.length := Numeral.number_lt fun _ _ => trivial
  obtain ⟨k, hk⟩ : ∃ k : Int, (top.toNat : Int) = top.signed + 256 * k := by
    rw [Byte.signed_eq]
    split
    · exact ⟨0, by omega⟩
    · exact ⟨1, by omega⟩
  have hsigned : -128 ≤ top.signed ∧ top.signed < 128 := by
    have := top.toNat_lt
    rw [Byte.signed_eq]
    split <;> omega
  obtain ⟨hmin, hmax⟩ :=
    (fits_concat (Int.natCast_nonneg (binary.number low)) (by exact_mod_cast hlow) _).2 hsigned
  have hnumber : (binary.number (low ++ [top]) : Int) =
      binary.number low + 256 ^ low.length * top.signed +
        ((256 ^ (low.length + 1) : Nat) : Int) * k := by
    rw [Numeral.number_concat]
    show ((binary.number low + 256 ^ low.length * top.toNat : Nat) : Int) = _
    push_cast [pow_succ]
    rw [hk]
    ring
  rw [signedNumber, List.length_append, List.length_singleton, hnumber,
    Int.add_mul_bmod_self_left]
  exact Int.bmod_eq_of_le_mul_two (by exact_mod_cast hmin) (by exact_mod_cast hmax)

/-! ### Chains -/

section
variable {f : Flags} (hd : f.d = false) (s : Sense)
include hd

/-- V tells, after the last step, that the result does not fit. -/
theorem overflow_chain {pairs : List (Byte × Byte)} (hne : pairs ≠ []) :
    (chain s.apply f pairs).2.v = true ↔
      ¬ Fits pairs.length
        (signedNumber (pairs.map Prod.fst) + s.sign * signedNumber (pairs.map Prod.snd) +
          s.carried f.c) := by
  obtain ⟨low, ⟨a, b⟩, rfl⟩ := (List.eq_nil_or_concat' pairs).resolve_left hne
  have hvalid : ∀ p ∈ low, binary.Valid p.1 ∧ binary.Valid p.2 := fun _ _ => ⟨trivial, trivial⟩
  have hlow := (binary_law s).number_chain hd hvalid
  have hlt : binary.number (chain s.apply f low).1 < 256 ^ low.length := by
    rw [← length_chain s.apply f low]
    exact Numeral.number_lt fun _ _ => trivial
  -- below the highest byte the chain has left a number without a sign, and a carry
  have htotal : signedNumber ((low ++ [(a, b)]).map Prod.fst) +
      s.sign * signedNumber ((low ++ [(a, b)]).map Prod.snd) + s.carried f.c =
        binary.number (chain s.apply f low).1 + 256 ^ low.length *
          (a.signed + s.sign * b.signed + s.carried (chain s.apply f low).2.c) := by
    simp only [List.map_append, List.map_cons, List.map_nil, signedNumber_concat, List.length_map]
    have hbase : (binary.base : Int) = 256 := rfl
    rw [hbase] at hlow
    linear_combination -hlow
  have hf := (s.chain_d f low).trans hd
  rw [chain_concat, htotal, List.length_append, List.length_singleton,
    fits_concat (Int.natCast_nonneg _) (by exact_mod_cast hlt)]
  exact binary_overflow hf s a b

end

/-- Chains of binary additions and subtractions work out numbers of any length: the bytes and the
last carry are the sum, or the difference with what was borrowed. V tells that the same result in
two's complement does not fit, N and Z describe the highest byte. A comparison leaves the N, Z and C
of a subtraction that starts without a borrow. -/
theorem binary_chain {n : Nat} (hn : 0 < n) {as bs : List Byte} (ha : as.length = n)
    (hb : bs.length = n) {f : Flags} (hd : f.d = false) :
    let sum := chain add f (as.zip bs)
    let difference := chain subtract f (as.zip bs)
    (sum.1.length = n ∧ difference.1.length = n) ∧
    binary.number sum.1 + sum.2.c.toNat * 256 ^ n =
      binary.number as + binary.number bs + f.c.toNat ∧
    (binary.number difference.1 : Int) =
      binary.number as - binary.number bs - (1 - f.c.toNat) +
        (1 - difference.2.c.toNat) * 256 ^ n ∧
    (sum.2.v = true ↔ ¬ Fits n (signedNumber as + signedNumber bs + f.c.toNat)) ∧
    (difference.2.v = true ↔
      ¬ Fits n (signedNumber as - signedNumber bs - (1 - f.c.toNat))) ∧
    (∀ r ∈ [sum, difference], ∃ low top, r.1 = low ++ [top] ∧ r.2.n = top.negative ∧
      r.2.z = (top == 0)) ∧
    ∀ a b, compare f a b = { (subtract { f with c := true } a b).2 with v := f.v } := by
  intro sum difference
  have hsame : as.length = bs.length := ha.trans hb.symm
  have hlength : (as.zip bs).length = n := by rw [List.length_zip, ha, hb, Nat.min_self]
  have hne : as.zip bs ≠ [] := List.ne_nil_of_length_pos (hlength ▸ hn)
  have hadd := (binary_law .sum).add_chain hsame hd (fun _ _ => trivial) fun _ _ => trivial
  have hsubtract := (binary_law .difference).subtract_chain hsame hd (fun _ _ => trivial)
    fun _ _ => trivial
  have hv (s : Sense) := overflow_chain hd s hne
  rw [ha] at hadd hsubtract
  simp only [List.map_fst_zip hsame.le, List.map_snd_zip hsame.ge, hlength] at hv
  refine ⟨⟨?_, ?_⟩, hadd, hsubtract, ?_, ?_, ?_, fun a b => ?_⟩
  · exact (length_chain ..).trans hlength
  · exact (length_chain ..).trans hlength
  · have h := hv .sum
    rwa [Sense.sign, Sense.carried, Int.one_mul] at h
  · have h := hv .difference
    simp only [Sense.sign, Sense.carried] at h
    refine h.trans (not_congr (iff_of_eq (congrArg (Fits n) ?_)))
    ring
  · simp only [List.forall_mem_cons]
    exact ⟨Sense.sum.described_chain f hne, Sense.difference.described_chain f hne,
      List.forall_mem_nil _⟩
  · rw [compare_eq, subtract, hd]
    rfl

/-- The sum of the highest bytes alone would fit: the carry from below them makes it overflow. The
difference fits. -/
theorem binary_chain_carried :
    let as := [0xFF, 0x7F]
    let bs := [0x01, 0x00]
    let sum := chain add {} (as.zip bs)
    let difference := chain subtract {} (as.zip bs)
    (as.length = 2 ∧ bs.length = 2) ∧
      sum = ([0x00, 0x80], { n := true, v := true }) ∧
      ¬ Fits 2 (signedNumber as + signedNumber bs + 0) ∧
      difference = ([0xFD, 0x7F], { c := true }) ∧
      Fits 2 (signedNumber as - signedNumber bs - (1 - 0)) := by
  intro as bs sum difference
  have hsum : sum = ([0x00, 0x80], { n := true, v := true }) := by decide
  have hdifference : difference = ([0xFD, 0x7F], { c := true }) := by decide
  obtain ⟨-, -, -, hv, hv', -, -⟩ :=
    binary_chain (show 0 < 2 by decide) (show as.length = 2 from rfl)
      (show bs.length = 2 from rfl) (f := {}) rfl
  have hclear : difference.2.v ≠ true := by rw [hdifference]; decide
  exact ⟨⟨rfl, rfl⟩, hsum, hv.1 (congrArg (·.2.v) hsum), hdifference,
    not_not.1 fun hfits => hclear (hv'.2 hfits)⟩

end M740.Alu
