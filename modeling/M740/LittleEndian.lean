import M740.Word

/-!
# Little-endian numbers

A number as `width` bytes, the lowest first; of a number that needs more, the high bytes are left
out. The number that bytes stand for is written back as the same bytes.
-/

namespace M740.LittleEndian

def bytes : Nat → Nat → List Byte
  | 0, _ => []
  | width + 1, n => UInt8.ofNat n :: bytes width (n / 256)

def value : List Byte → Nat
  | [] => 0
  | b :: rest => b.toNat + 256 * value rest

@[simp]
theorem length_bytes (width n : Nat) : (bytes width n).length = width := by
  induction width generalizing n with
  | zero => rfl
  | succ _ ih => simp [bytes, ih]

theorem bytes_value (data : List Byte) : bytes data.length (value data) = data := by
  induction data with
  | nil => rfl
  | cons b rest ih =>
    have h : (b.toNat + 256 * value rest) / 256 = value rest := by
      have := b.toNat_lt
      omega
    have low : UInt8.ofNat (b.toNat + 256 * value rest) = b := by
      apply UInt8.toNat_inj.1
      have := b.toNat_lt
      simp
    simp only [List.length_cons, bytes, value, h, ih, low]

end M740.LittleEndian
