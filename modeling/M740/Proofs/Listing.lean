import M740.Disassembly.Listing

/-!
# The entries of a listing

An entry is an instruction with all its operand bytes, or one byte of data (`Entry.Listed`). It
takes its bytes from the front, so the bytes of the entries of a listing, one after the other, are
the bytes that were taken apart (`Listing.flatMap_bytes_entries`), and the addresses follow from
their number.
-/

namespace M740

namespace Entry

/-- The bytes that an entry stands for. -/
def bytes (e : Entry) : List Byte := e.opcode :: e.operands

/-- The address behind an entry. -/
def next (e : Entry) : Address := Address.ofWord e.address + Address.zeroPage e.size

inductive Listed (e : Entry) : Prop
  | data (hinstruction : e.instruction = none) (hoperands : e.operands = []) (hsize : e.size = 1)
  | whole (i : Instruction) (hdecode : Opcode.decode? e.opcode = some i)
      (hinstruction : e.instruction = some i) (hoperands : e.operands.length = i.mode.operandLength)
      (hsize : e.size = UInt8.ofNat i.size) (hcycles : e.cycles = Timing.cost e.opcode false)

theorem Listed.size_eq {e : Entry} (h : e.Listed) : e.size = UInt8.ofNat e.bytes.length := by
  cases h with
  | data _ hoperands hsize => rw [hsize, bytes, hoperands]; rfl
  | whole i _ _ hoperands hsize =>
    rw [hsize, bytes, List.length_cons, hoperands, Instruction.size, Mode.size, Nat.add_comm]

theorem Listed.length_bytes_le {e : Entry} (h : e.Listed) : e.bytes.length ≤ 3 := by
  have hmode (m : Mode) : m.operandLength ≤ 2 := by cases m <;> decide
  rw [bytes, List.length_cons]
  cases h with
  | data _ hoperands => rw [hoperands]; decide
  | whole i _ _ hoperands => rw [hoperands]; exact Nat.succ_le_succ (hmode _)

theorem Listed.toNat_size {e : Entry} (h : e.Listed) : e.size.toNat = e.bytes.length := by
  have hlen : e.bytes.length < 256 := Nat.lt_of_le_of_lt h.length_bytes_le (by decide)
  rw [h.size_eq]
  exact UInt8.toNat_ofNat_of_lt hlen

theorem Listed.next_eq {e : Entry} (h : e.Listed) :
    e.next = Address.ofWord e.address + BitVec.ofNat 13 e.bytes.length := by
  rw [next, Address.zeroPage, h.toNat_size]

/-- The entry of an instruction with its operand bytes. -/
def whole (address : Word) (opcode : Byte) (i : Instruction) (operands : List Byte) : Entry where
  address
  opcode
  instruction := some i
  operands
  size := UInt8.ofNat i.size
  cycles := Timing.cost opcode false

theorem ofBytes?_cons {address : Word} {opcode : Byte} {rest : List Byte} {e : Entry} :
    ofBytes? address (opcode :: rest) = some e ↔
      ∃ i, Opcode.decode? opcode = some i ∧ i.mode.operandLength ≤ rest.length ∧
        e = whole address opcode i (rest.take i.mode.operandLength) := by
  cases hd : Opcode.decode? opcode with
  | none => simp [ofBytes?, hd]
  | some i =>
    by_cases hshort : rest.length < i.mode.operandLength
    · simp [ofBytes?, hd, hshort, Nat.not_le.2 hshort]
    · simp [ofBytes?, hd, hshort, Nat.not_lt.1 hshort, whole, eq_comm]

theorem listed_of_ofBytes? {address : Word} {bytes : List Byte} {e : Entry}
    (h : ofBytes? address bytes = some e) : e.Listed ∧ e.address = address := by
  cases bytes with
  | nil => cases h
  | cons opcode rest =>
    obtain ⟨i, hd, hlen, rfl⟩ := ofBytes?_cons.1 h
    exact ⟨.whole i hd rfl (List.length_take_of_le hlen) rfl rfl, rfl⟩

section
variable (address : Address) (opcode : Byte) (rest : List Byte)

theorem first_cases :
    (∃ i, Opcode.decode? opcode = some i ∧ i.mode.operandLength ≤ rest.length ∧
      first address opcode rest =
        whole (Address.toWord address) opcode i (rest.take i.mode.operandLength)) ∨
    first address opcode rest = data (Address.toWord address) opcode := by
  cases h : ofBytes? (Address.toWord address) (opcode :: rest) with
  | none => exact .inr (by rw [first, h]; rfl)
  | some e =>
    obtain ⟨i, hd, hlen, rfl⟩ := ofBytes?_cons.1 h
    exact .inl ⟨i, hd, hlen, by rw [first, h]; rfl⟩

theorem listed_first : (first address opcode rest).Listed := by
  rcases first_cases address opcode rest with ⟨i, hd, hlen, h⟩ | h <;> rw [h]
  · exact .whole i hd rfl (List.length_take_of_le hlen) rfl rfl
  · exact .data rfl rfl rfl

theorem address_first : (first address opcode rest).address = Address.toWord address := by
  rcases first_cases address opcode rest with ⟨i, -, -, h⟩ | h <;> rw [h] <;> rfl

theorem opcode_first : (first address opcode rest).opcode = opcode := by
  rcases first_cases address opcode rest with ⟨i, -, -, h⟩ | h <;> rw [h] <;> rfl

/-- An entry takes its bytes from the front. -/
theorem bytes_first :
    (first address opcode rest).bytes ++ rest.drop (first address opcode rest).operands.length =
      opcode :: rest := by
  rcases first_cases address opcode rest with ⟨i, -, hlen, h⟩ | h <;> rw [h]
  · show opcode :: (rest.take i.mode.operandLength ++
      rest.drop (rest.take i.mode.operandLength).length) = opcode :: rest
    rw [List.length_take_of_le hlen, List.take_append_drop]
  · rfl

end

end Entry

namespace Listing

open Entry

theorem entries_nil (address : Address) : entries address [] = [] := by
  rw [entries]

theorem entries_cons (address : Address) (opcode : Byte) (rest : List Byte) :
    entries address (opcode :: rest) =
      first address opcode rest :: entries (first address opcode rest).next
        (rest.drop (first address opcode rest).operands.length) := by
  rw [entries, next, address_first, Address.ofWord_toWord]

theorem listed_entries {address : Address} {bytes : List Byte} {e : Entry}
    (h : e ∈ entries address bytes) : e.Listed := by
  fun_induction entries address bytes with
  | case1 => cases h
  | case2 address opcode rest first ih =>
    rcases List.mem_cons.1 h with rfl | h
    · exact listed_first _ _ _
    · exact ih h

theorem flatMap_bytes_entries (address : Address) (bytes : List Byte) :
    (entries address bytes).flatMap Entry.bytes = bytes := by
  fun_induction entries address bytes with
  | case1 => rfl
  | case2 address opcode rest first ih =>
    rw [List.flatMap_cons, ih]
    exact bytes_first _ _ _

end Listing

end M740
