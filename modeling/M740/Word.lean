/-!
# Bytes, words and addresses

Registers and memory cells are bytes; operands, pointers and vectors are little-endian words. The
processor drives thirteen address lines, so a word reaches the bus without its top three bits.
-/

namespace M740

abbrev Byte := UInt8

abbrev Word := UInt16

/-- A bus address. Arithmetic wraps at the top of the 8 KiB space. -/
abbrev Address := BitVec 13

/-- Every property of a byte can be checked on the 256 values. -/
instance Byte.decidableForall (P : Byte → Prop) [DecidablePred P] : Decidable (∀ b, P b) :=
  decidable_of_iff (∀ n : Fin 256, P (UInt8.ofFin n))
    ⟨fun h b => by simpa using h b.toFin, fun h n => h _⟩

namespace Byte

/-- The sign bit. -/
def negative (b : Byte) : Bool := 0x80 ≤ b

/-- The number a byte denotes in two's complement. -/
def signed (b : Byte) : Int := (b.toNat : Int).bmod 256

end Byte

namespace Word

def ofBytes (lo hi : Byte) : Word := UInt16.ofNat (lo.toNat + 256 * hi.toNat)

def low (w : Word) : Byte := UInt8.ofNat w.toNat

def high (w : Word) : Byte := UInt8.ofNat (w.toNat / 256)

theorem ofBytes_low_high (w : Word) : ofBytes (low w) (high w) = w := by
  apply UInt16.toNat_inj.1
  have := w.toNat_lt
  simp [ofBytes, low, high]
  omega

theorem low_ofBytes (lo hi : Byte) : low (ofBytes lo hi) = lo := by
  apply UInt8.toNat_inj.1
  have := lo.toNat_lt
  simp [ofBytes, low]

theorem high_ofBytes (lo hi : Byte) : high (ofBytes lo hi) = hi := by
  apply UInt8.toNat_inj.1
  have := lo.toNat_lt
  have := hi.toNat_lt
  simp [ofBytes, high]
  omega

end Word

namespace Address

/-- The thirteen lines a word drives. -/
def ofWord (w : Word) : Address := BitVec.ofNat 13 w.toNat

def toWord (a : Address) : Word := UInt16.ofNat a.toNat

/-- The address a byte names on the page that holds the RAM and the device registers. -/
def zeroPage (b : Byte) : Address := BitVec.ofNat 13 b.toNat

/-- The address a byte names on the special page, the topmost one. -/
def specialPage (b : Byte) : Address := BitVec.ofNat 13 (0x1F00 + b.toNat)

/-- The address a signed displacement away. -/
def displaced (a : Address) (displacement : Byte) : Address :=
  a + BitVec.ofInt 13 displacement.signed

theorem toNat_toWord (a : Address) : (toWord a).toNat = a.toNat :=
  UInt16.toNat_ofNat_of_lt (Nat.lt_trans a.isLt (by decide))

theorem ofWord_toWord (a : Address) : ofWord (toWord a) = a := by
  apply BitVec.eq_of_toNat_eq
  have := a.isLt
  simp [ofWord, toWord]
  omega

/-- A word reaches the bus without its top three bits. -/
theorem toWord_ofWord (w : Word) : toWord (ofWord w) = w &&& 0x1FFF := by
  apply UInt16.toNat_inj.1
  rw [toNat_toWord, UInt16.toNat_and]
  exact (BitVec.toNat_ofNat ..).trans (Nat.and_two_pow_sub_one_eq_mod _ 13).symm

end Address

end M740
