import Mathlib.Algebra.Group.Nat.Defs
import M740.Snapshot

/-!
# The stored form of snapshots

A stored snapshot is a sequence of segments, and a number is read back from the segment that its
offset leads to. So every snapshot is read back field by field (`Snapshot.fields_encode`), and what
`decode` makes of it depends on its values alone (`Snapshot.decode_encode`).
-/

namespace M740

theorem LittleEndian.value_bytes (width n : Nat) : value (bytes width n) = n % 256 ^ width := by
  induction width generalizing n with
  | zero => simp only [bytes, value, Nat.pow_zero, Nat.mod_one]
  | succ width ih =>
    have low : (UInt8.ofNat n).toNat = n % 256 := UInt8.toNat_ofNat'
    rw [bytes, value, ih, low, Nat.pow_succ, Nat.mul_comm (256 ^ width), Nat.mod_mul]

namespace Snapshot

open LittleEndian

/-! ### Reading at an offset -/

section
variable {segment rest : List Byte} {offset width : Nat}

theorem numberAt_append (h : segment.length ≤ offset) :
    numberAt (segment ++ rest) offset width = numberAt rest (offset - segment.length) width := by
  rw [numberAt, List.drop_append, List.drop_eq_nil_of_le h, List.nil_append, numberAt]

theorem numberAt_cons {b : Byte} (h : 1 ≤ offset) :
    numberAt (b :: rest) offset width = numberAt rest (offset - 1) width := by
  rw [← List.singleton_append]
  exact numberAt_append h

theorem numberAt_bytes (n : Nat) :
    numberAt (bytes width n ++ rest) 0 width = n % 256 ^ width := by
  rw [numberAt, List.drop_zero, List.take_left' (length_bytes width n), value_bytes]

theorem numberAt_byte (b : Byte) : numberAt (b :: rest) 0 1 = b.toNat := by
  simp [numberAt, value]

end

/-! ### Stored snapshots -/

variable (s : Snapshot)

/-- The segments, one after the other. -/
theorem encode_eq :
    s.encode = magic ++ (bytes 4 version.toNat ++ (s.a :: s.x :: s.y :: s.s ::
      (bytes 2 s.pc.toNat ++ (s.status :: s.stopped.toUInt8 ::
        (bytes 8 s.budget.toUInt64.toNat ++ (s.clockRemainder ::
          (bytes 8 s.cycles.toNat ++ s.ram.toList))))))) := by
  simp only [encode, List.append_assoc, List.cons_append, List.nil_append]

theorem length_magic : magic.length = 4 := rfl

theorem length_encode : s.encode.length = storedSize := by
  simp only [encode_eq, List.length_append, List.length_cons, length_bytes, length_magic,
    Vector.length_toList, storedSize, headerSize]
  omega

theorem take_magic_encode : s.encode.take magic.length = magic := by
  rw [encode_eq, List.take_left]

theorem drop_header_encode : s.encode.drop headerSize = s.ram.toList :=
  List.drop_left' (by simp [magic, headerSize])

theorem version_encode : UInt32.ofNat (numberAt s.encode 4 4) = version := by
  have h : numberAt s.encode 4 4 = version.toNat % 256 ^ 4 := by
    rw [encode_eq, numberAt_append (by decide)]
    exact numberAt_bytes _
  rw [h]
  decide

theorem latchAt_encode : latchAt s.encode = s.stopped.toUInt8 := by
  simp (disch := simp [magic]) only [latchAt, byteAt, encode_eq, numberAt_append, numberAt_cons,
    length_bytes, length_magic, Nat.reduceSub, numberAt_byte, UInt8.ofNat_toNat]

theorem fields_encode : fields s.encode s.length_encode = s := by
  obtain ⟨a, x, y, s, pc, status, stopped, budget, clockRemainder, cycles, ram⟩ := s
  simp only [fields, mk.injEq, latchAt_encode, drop_header_encode]
  simp (disch := simp [magic]) only [byteAt, encode_eq, numberAt_append, numberAt_cons,
    length_bytes, length_magic, Nat.reduceSub, numberAt_bytes, numberAt_byte, UInt8.ofNat_toNat,
    true_and]
  have hpc : pc.toNat % 256 ^ 2 = pc.toNat := Nat.mod_eq_of_lt pc.toNat_lt
  have hbudget : budget.toUInt64.toNat % 256 ^ 8 = budget.toUInt64.toNat :=
    Nat.mod_eq_of_lt budget.toUInt64.toNat_lt
  have hcycles : cycles.toNat % 256 ^ 8 = cycles.toNat := Nat.mod_eq_of_lt cycles.toNat_lt
  rw [hpc, hbudget, hcycles]
  refine ⟨UInt16.ofNat_toNat, ?_, ?_, UInt64.ofNat_toNat, ?_⟩
  · cases stopped <;> rfl
  · rw [UInt64.ofNat_toNat, Int64.toInt64_toUInt64]
  · rfl

/-- What a stored snapshot is read back as. -/
theorem decode_encode :
    decode s.encode =
      match s.fault? s.stopped.toUInt8 with
      | some field => .error (.impossible field)
      | none => .ok s := by
  have hmagic : ¬ (magic.length ≤ s.encode.length ∧ s.encode.take magic.length ≠ magic) :=
    fun h => h.2 s.take_magic_encode
  have hversion : ¬ UInt32.ofNat (numberAt s.encode 4 4) ≠ version := fun h => h s.version_encode
  cases hf : s.fault? s.stopped.toUInt8 with
  | some field =>
    simp only [decode, if_neg hmagic, dif_pos s.length_encode, if_neg hversion, fields_encode,
      latchAt_encode, hf]
  | none =>
    simp only [decode, if_neg hmagic, dif_pos s.length_encode, if_neg hversion, fields_encode,
      latchAt_encode, hf]

end Snapshot

end M740
