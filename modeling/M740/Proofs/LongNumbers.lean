import Mathlib.Data.List.Basic
import Mathlib.Data.Nat.Digits.Defs
import Mathlib.Tactic.LinearCombination
import M740.Alu.Arithmetic

/-!
# Long numbers

A number that does not fit into a byte is worked on byte by byte, from the lowest on, and each step
finds the carry that the one before has left. `Alu.chain` is this loop. If one step obeys the law of
a digit (`Numeral.Law`), the loop obeys it for the whole numbers (`Numeral.Law.number_chain`).
-/

namespace M740.Alu

/-! ### Chains -/

/-- Works through pairs of digits, the lowest first. Each step finds the flags that the one before
has left. -/
def chain (op : Flags → Byte → Byte → Byte × Flags) (f : Flags) :
    List (Byte × Byte) → List Byte × Flags
  | [] => ([], f)
  | (a, b) :: rest =>
    let (r, f) := op f a b
    let (rs, f) := chain op f rest
    (r :: rs, f)

section
variable (op : Flags → Byte → Byte → Byte × Flags) (f : Flags) (pairs : List (Byte × Byte))

theorem length_chain : (chain op f pairs).1.length = pairs.length := by
  induction pairs generalizing f with
  | nil => rfl
  | cons pair rest ih => exact congrArg (· + 1) (ih _)

/-- The lower digits come first, and the higher ones find what they have left. -/
theorem chain_append (higher : List (Byte × Byte)) :
    chain op f (pairs ++ higher) =
      let low := chain op f pairs
      let high := chain op low.2 higher
      (low.1 ++ high.1, high.2) := by
  induction pairs generalizing f with
  | nil => rfl
  | cons pair rest ih => simp only [List.cons_append, chain, ih]

theorem chain_concat (a b : Byte) :
    chain op f (pairs ++ [(a, b)]) =
      let r := chain op f pairs
      (r.1 ++ [(op r.2 a b).1], (op r.2 a b).2) :=
  chain_append ..

end

/-- Addition or subtraction. -/
inductive Sense where
  | sum
  | difference
  deriving DecidableEq, Repr

namespace Sense

/-- The operation on one digit. -/
def apply : Sense → Flags → Byte → Byte → Byte × Flags
  | .sum => add
  | .difference => subtract

/-- What the second number counts for. -/
def sign : Sense → Int
  | .sum => 1
  | .difference => -1

/-- What the carry flag counts for. In a difference it is clear if one was borrowed. -/
def carried : Sense → Bool → Int
  | .sum, c => c.toNat
  | .difference, c => c.toNat - 1

theorem apply_d (s : Sense) (f : Flags) (a b : Byte) : (s.apply f a b).2.d = f.d := by
  cases s with
  | sum =>
    show (add f a b).2.d = f.d
    unfold add
    split <;> rfl
  | difference =>
    show (subtract f a b).2.d = f.d
    unfold subtract
    split <;> rfl

/-- A digit is described by N and Z, whatever it was made of. -/
theorem apply_described (s : Sense) (f : Flags) (a b : Byte) :
    (s.apply f a b).2.n = (s.apply f a b).1.negative ∧
      (s.apply f a b).2.z = ((s.apply f a b).1 == 0) := by
  cases s with
  | sum =>
    show (add f a b).2.n = (add f a b).1.negative ∧ (add f a b).2.z = ((add f a b).1 == 0)
    unfold add
    split <;> exact ⟨rfl, rfl⟩
  | difference =>
    show (subtract f a b).2.n = (subtract f a b).1.negative ∧
      (subtract f a b).2.z = ((subtract f a b).1 == 0)
    unfold subtract
    split <;> exact ⟨rfl, rfl⟩

theorem chain_d (s : Sense) (f : Flags) (pairs : List (Byte × Byte)) :
    (chain s.apply f pairs).2.d = f.d := by
  induction pairs generalizing f with
  | nil => rfl
  | cons pair rest ih => exact (ih _).trans (s.apply_d f pair.1 pair.2)

/-- The highest digit is described by N and Z. -/
theorem described_chain (s : Sense) (f : Flags) {pairs : List (Byte × Byte)} (hne : pairs ≠ []) :
    ∃ low top, (chain s.apply f pairs).1 = low ++ [top] ∧
      (chain s.apply f pairs).2.n = top.negative ∧ (chain s.apply f pairs).2.z = (top == 0) := by
  obtain ⟨low, ⟨a, b⟩, rfl⟩ := (List.eq_nil_or_concat' pairs).resolve_left hne
  rw [chain_concat]
  exact ⟨_, _, rfl, s.apply_described _ a b⟩

end Sense

/-! ### Numbers -/

/-- A way to read bytes as digits. -/
structure Numeral where
  base : Nat
  digit : Byte → Nat
  /-- The bytes that are digits. -/
  Valid : Byte → Prop
  /-- The D flag that has these digits worked with. -/
  decimal : Bool
  one_lt_base : 1 < base
  digit_lt : ∀ {b}, Valid b → digit b < base
  digit_inj : ∀ {b b'}, Valid b → Valid b' → digit b = digit b' → b = b'

namespace Numeral

variable (n : Numeral)

/-- The number that the digits denote, the lowest first. -/
def number (bytes : List Byte) : Nat := Nat.ofDigits n.base (bytes.map n.digit)

@[simp]
theorem number_nil : n.number [] = 0 := rfl

@[simp]
theorem number_cons (b : Byte) (bytes : List Byte) :
    n.number (b :: bytes) = n.digit b + n.base * n.number bytes := rfl

theorem number_concat (bytes : List Byte) (b : Byte) :
    n.number (bytes ++ [b]) = n.number bytes + n.base ^ bytes.length * n.digit b := by
  simp only [number, List.map_append, List.map_cons, List.map_nil, Nat.ofDigits_append,
    Nat.ofDigits_singleton, List.length_map]

variable {n}

theorem digit_lt_of_mem {bytes : List Byte} (h : ∀ b ∈ bytes, n.Valid b) :
    ∀ d ∈ bytes.map n.digit, d < n.base := by
  intro d hd
  obtain ⟨b, hb, rfl⟩ := List.mem_map.1 hd
  exact n.digit_lt (h b hb)

theorem number_lt {bytes : List Byte} (h : ∀ b ∈ bytes, n.Valid b) :
    n.number bytes < n.base ^ bytes.length := by
  have hlt := Nat.ofDigits_lt_base_pow_length n.one_lt_base (digit_lt_of_mem h)
  rwa [List.length_map] at hlt

/-- Digits that denote the same number are the same digits. -/
theorem number_inj {bytes bytes' : List Byte} (hlength : bytes.length = bytes'.length)
    (h : ∀ b ∈ bytes, n.Valid b) (h' : ∀ b ∈ bytes', n.Valid b)
    (hnumber : n.number bytes = n.number bytes') : bytes = bytes' := by
  have hdigits : bytes.map n.digit = bytes'.map n.digit :=
    Nat.ofDigits_inj_of_len_eq n.one_lt_base (by rwa [List.length_map, List.length_map])
      (digit_lt_of_mem h) (digit_lt_of_mem h') hnumber
  refine List.ext_getElem hlength fun i hi hi' => ?_
  have hdigit : (bytes.map n.digit)[i]? = (bytes'.map n.digit)[i]? := by rw [hdigits]
  rw [List.getElem?_map, List.getElem?_map, List.getElem?_eq_getElem hi,
    List.getElem?_eq_getElem hi', Option.map_some, Option.map_some, Option.some.injEq] at hdigit
  exact n.digit_inj (h _ (List.getElem_mem hi)) (h' _ (List.getElem_mem hi')) hdigit

/-- One step works out a digit, and the carry flag takes along what the digit does not hold. -/
structure Law (n : Numeral) (s : Sense) : Prop where
  valid : ∀ {f a b}, f.d = n.decimal → n.Valid a → n.Valid b → n.Valid (s.apply f a b).1
  digit : ∀ {f a b}, f.d = n.decimal → n.Valid a → n.Valid b →
    (n.digit (s.apply f a b).1 : Int) + n.base * s.carried (s.apply f a b).2.c =
      n.digit a + s.sign * n.digit b + s.carried f.c

namespace Law

variable {s : Sense} {f : Flags} {pairs : List (Byte × Byte)}

theorem valid_chain (h : n.Law s) (hf : f.d = n.decimal)
    (hp : ∀ p ∈ pairs, n.Valid p.1 ∧ n.Valid p.2) :
    ∀ r ∈ (chain s.apply f pairs).1, n.Valid r := by
  induction pairs generalizing f with
  | nil => exact fun r hr => nomatch hr
  | cons pair rest ih =>
    obtain ⟨⟨ha, hb⟩, hrest⟩ := List.forall_mem_cons.1 hp
    exact List.forall_mem_cons.2
      ⟨h.valid hf ha hb, ih ((s.apply_d f pair.1 pair.2).trans hf) hrest⟩

/-- The chain works out the number, and the last carry takes along what the digits do not hold. -/
theorem number_chain (h : n.Law s) (hf : f.d = n.decimal)
    (hp : ∀ p ∈ pairs, n.Valid p.1 ∧ n.Valid p.2) :
    (n.number (chain s.apply f pairs).1 : Int) +
        (n.base : Int) ^ pairs.length * s.carried (chain s.apply f pairs).2.c =
      n.number (pairs.map Prod.fst) + s.sign * n.number (pairs.map Prod.snd) + s.carried f.c := by
  induction pairs generalizing f with
  | nil => simp [chain]
  | cons pair rest ih =>
    obtain ⟨⟨ha, hb⟩, hrest⟩ := List.forall_mem_cons.1 hp
    have hdigit := h.digit hf ha hb
    have hhigher := ih ((s.apply_d f pair.1 pair.2).trans hf) hrest
    simp only [chain, List.map_cons, number_cons, List.length_cons, pow_succ]
    push_cast
    -- the carry between the digit and the higher ones cancels
    linear_combination hdigit + (n.base : Int) * hhigher

end Law

section
variable {f : Flags} {as bs : List Byte}

theorem valid_zip (ha : ∀ a ∈ as, n.Valid a) (hb : ∀ b ∈ bs, n.Valid b) :
    ∀ p ∈ as.zip bs, n.Valid p.1 ∧ n.Valid p.2 :=
  fun _ hp => ⟨ha _ (List.of_mem_zip hp).1, hb _ (List.of_mem_zip hp).2⟩

variable (hlength : as.length = bs.length)
include hlength

theorem Law.number_chain_zip {s : Sense} (h : n.Law s) (hf : f.d = n.decimal)
    (ha : ∀ a ∈ as, n.Valid a) (hb : ∀ b ∈ bs, n.Valid b) :
    (n.number (chain s.apply f (as.zip bs)).1 : Int) +
        (n.base : Int) ^ as.length * s.carried (chain s.apply f (as.zip bs)).2.c =
      n.number as + s.sign * n.number bs + s.carried f.c := by
  have hnumber := h.number_chain hf (valid_zip ha hb)
  rwa [List.map_fst_zip hlength.le, List.map_snd_zip hlength.ge, List.length_zip, ← hlength,
    Nat.min_self] at hnumber

theorem Law.add_chain (h : n.Law .sum) (hf : f.d = n.decimal) (ha : ∀ a ∈ as, n.Valid a)
    (hb : ∀ b ∈ bs, n.Valid b) :
    let r := chain add f (as.zip bs)
    n.number r.1 + r.2.c.toNat * n.base ^ as.length =
      n.number as + n.number bs + f.c.toNat := by
  have hnumber := h.number_chain_zip hlength hf ha hb
  simp only [Sense.apply, Sense.sign, Sense.carried, Int.one_mul, Int.mul_comm (_ ^ _)] at hnumber
  exact_mod_cast hnumber

theorem Law.subtract_chain (h : n.Law .difference) (hf : f.d = n.decimal)
    (ha : ∀ a ∈ as, n.Valid a) (hb : ∀ b ∈ bs, n.Valid b) :
    let r := chain subtract f (as.zip bs)
    (n.number r.1 : Int) =
      n.number as - n.number bs - (1 - f.c.toNat) +
        (1 - r.2.c.toNat) * (n.base : Int) ^ as.length := by
  have hnumber := h.number_chain_zip hlength hf ha hb
  simp only [Sense.apply, Sense.sign, Sense.carried] at hnumber ⊢
  linear_combination hnumber

/-- What was added can be subtracted again, if the difference starts without a borrow where the sum
started without a carry. The last carry is then complemented, too. -/
theorem Law.subtract_chain_add_chain (hadd : n.Law .sum) (hsubtract : n.Law .difference)
    (hf : f.d = n.decimal) (ha : ∀ a ∈ as, n.Valid a) (hb : ∀ b ∈ bs, n.Valid b) {g : Flags}
    (hg : g.d = n.decimal) (hc : g.c = !f.c) :
    let sum := chain add f (as.zip bs)
    let difference := chain subtract g (sum.1.zip bs)
    difference.1 = as ∧ difference.2.c = !sum.2.c := by
  intro sum difference
  have hsum : sum.1.length = as.length := by
    rw [length_chain, List.length_zip, ← hlength, Nat.min_self]
  have hdifference : difference.1.length = as.length := by
    rw [length_chain, List.length_zip, hsum, ← hlength, Nat.min_self]
  have hr : ∀ r ∈ sum.1, n.Valid r := hadd.valid_chain hf (valid_zip ha hb)
  have hr' : ∀ r ∈ difference.1, n.Valid r := hsubtract.valid_chain hg (valid_zip hr hb)
  have has : n.number as < n.base ^ as.length := number_lt ha
  have hlt : n.number difference.1 < n.base ^ as.length := hdifference ▸ number_lt hr'
  have hforth : n.number sum.1 + sum.2.c.toNat * n.base ^ as.length =
      n.number as + n.number bs + f.c.toNat := hadd.add_chain hlength hf ha hb
  have hback : (n.number difference.1 : Int) = n.number sum.1 - n.number bs - (1 - g.c.toNat) +
      (1 - difference.2.c.toNat) * (n.base : Int) ^ sum.1.length :=
    hsubtract.subtract_chain (hsum.trans hlength) hg hr hb
  have hborrow : (g.c.toNat : Int) = 1 - f.c.toNat := by rw [hc]; cases f.c <;> rfl
  rw [hborrow, hsum, ← Nat.cast_pow] at hback
  -- both numbers are below the weight of a carry, so the carries cancel
  have hsame : n.number difference.1 = n.number as ∧ difference.2.c = !sum.2.c := by
    generalize n.base ^ as.length = weight at *
    generalize sum.2.c = carry at *
    generalize difference.2.c = carry' at *
    cases carry <;> cases carry' <;>
      simp only [Bool.toNat_true, Bool.toNat_false, Bool.not_true, Bool.not_false, and_true]
        at hforth hback ⊢ <;>
      omega
  exact ⟨number_inj hdifference hr' ha hsame.1, hsame.2⟩

end

end Numeral

end M740.Alu
