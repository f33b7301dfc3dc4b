import Mathlib.Data.List.Chain
import M740.Proofs.ListingText

/-!
# The layout of a listing

The bytes behind an entry are listed as if they stood alone (`Listing.entries_split`), so an entry
tells where it stands by the number of bytes in front of it, however often the addresses wrap. The
end of the bytes shows in a listing only where it cuts an instruction off (`Entry.CutOff`); a
listing without such an entry can be continued (`Listing.disassemble_layout`).
-/

namespace M740

namespace Address

theorem toNat_ofWord_add (w : Word) (n : Nat) :
    (ofWord w + BitVec.ofNat 13 n).toNat = (w.toNat + n) % 0x2000 := by
  rw [ofWord, ← BitVec.ofNat_add, BitVec.toNat_ofNat]

theorem ofWord_add (w : Word) (n : Nat) :
    ofWord (w + UInt16.ofNat n) = ofWord w + BitVec.ofNat 13 n := by
  apply BitVec.eq_of_toNat_eq
  rw [toNat_ofWord_add, ofWord, BitVec.toNat_ofNat, UInt16.toNat_add, UInt16.toNat_ofNat']
  omega

end Address

namespace Entry

/-- An opcode with a meaning, listed as data since its operand bytes are not all there. -/
def CutOff (e : Entry) : Prop := e.isData ∧ (Opcode.decode? e.opcode).isSome

instance (e : Entry) : Decidable e.CutOff :=
  inferInstanceAs (Decidable (_ ∧ _))

section
variable {address : Address} {opcode : Byte} {rest : List Byte}

theorem first_whole {i : Instruction} (hd : Opcode.decode? opcode = some i)
    (hlen : i.mode.operandLength ≤ rest.length) :
    first address opcode rest =
      whole (Address.toWord address) opcode i (rest.take i.mode.operandLength) := by
  rw [first, ofBytes?_cons.2 ⟨i, hd, hlen, rfl⟩, Option.getD_some]

theorem first_data
    (hshort : ∀ i, Opcode.decode? opcode = some i → rest.length < i.mode.operandLength) :
    first address opcode rest = data (Address.toWord address) opcode := by
  rcases first_cases address opcode rest with ⟨i, hd, hlen, -⟩ | h
  · exact absurd hlen (Nat.not_le.2 (hshort i hd))
  · exact h

theorem isData_first :
    (first address opcode rest).isData ↔
      ∀ i, Opcode.decode? opcode = some i → rest.length < i.mode.operandLength := by
  refine ⟨fun h i hd => Nat.lt_of_not_le fun hlen => ?_, fun hshort => ?_⟩
  · rw [first_whole hd hlen] at h
    cases h
  · rw [first_data hshort]
    rfl

/-- What follows the bytes changes an entry only if their end cuts it off. -/
theorem first_append (hcut : ¬ (first address opcode rest).CutOff) (more : List Byte) :
    first address opcode (rest ++ more) = first address opcode rest := by
  cases hd : Opcode.decode? opcode with
  | none =>
    have hnone (i : Instruction) (h : Opcode.decode? opcode = some i) : False := by
      rw [hd] at h
      cases h
    rw [first_data fun i h => (hnone i h).elim, first_data fun i h => (hnone i h).elim]
  | some i =>
    have hlen : i.mode.operandLength ≤ rest.length := by
      by_contra hshort
      refine hcut ⟨isData_first.2 fun j hj => ?_, by rw [opcode_first, hd]; rfl⟩
      obtain rfl := Option.some.inj (hd.symm.trans hj)
      exact Nat.lt_of_not_le hshort
    have hmore : i.mode.operandLength ≤ (rest ++ more).length := by
      rw [List.length_append]
      exact Nat.le_add_right_of_le hlen
    rw [first_whole hd hlen, first_whole hd hmore, List.take_append_of_le_length hlen]

variable (address opcode rest)

theorem length_bytes_first :
    (first address opcode rest).bytes.length +
      (rest.drop (first address opcode rest).operands.length).length = rest.length + 1 := by
  rw [← List.length_append, bytes_first, List.length_cons]

theorem length_operands_first_le : (first address opcode rest).operands.length ≤ rest.length := by
  have h := length_bytes_first address opcode rest
  rw [bytes, List.length_cons] at h
  omega

theorem next_first :
    (first address opcode rest).next =
      address + BitVec.ofNat 13 (first address opcode rest).bytes.length := by
  rw [(listed_first address opcode rest).next_eq, address_first, Address.ofWord_toWord]

theorem zeroPage_size_first :
    address + Address.zeroPage (first address opcode rest).size =
      (first address opcode rest).next := by
  rw [next, address_first, Address.ofWord_toWord]

end

end Entry

namespace Listing

open Entry

theorem address_of_head? {address : Address} {bytes : List Byte} {e : Entry}
    (h : (entries address bytes).head? = some e) : e.address = Address.toWord address := by
  cases bytes with
  | nil => rw [entries_nil] at h; cases h
  | cons opcode rest =>
    rw [entries_cons] at h
    obtain rfl := Option.some.inj h
    exact address_first _ _ _

theorem isChain_entries (address : Address) (bytes : List Byte) :
    (entries address bytes).IsChain fun e e' => e'.address = Address.toWord e.next := by
  fun_induction entries address bytes with
  | case1 => exact .nil
  | case2 address opcode rest e ih =>
    refine List.isChain_cons.2 ⟨fun e' he' => ?_, ih⟩
    rw [← zeroPage_size_first]
    exact address_of_head? he'

/-- An entry is the first of a listing of its own, at the address that the bytes before it lead
to. -/
theorem entries_split {address : Address} {bytes : List Byte} {before after : List Entry}
    {e : Entry} (h : entries address bytes = before ++ e :: after) :
    ∃ rest, bytes = before.flatMap Entry.bytes ++ e.opcode :: rest ∧
      e = first (address + BitVec.ofNat 13 (before.flatMap Entry.bytes).length) e.opcode rest := by
  induction before generalizing address bytes with
  | nil =>
    cases bytes with
    | nil => rw [entries_nil] at h; cases h
    | cons opcode rest =>
      rw [entries_cons] at h
      obtain ⟨rfl, -⟩ := List.cons.inj h
      refine ⟨rest, by rw [opcode_first]; rfl, ?_⟩
      rw [opcode_first]
      exact congrArg (first · opcode rest) (BitVec.add_zero address).symm
  | cons front before ih =>
    cases bytes with
    | nil => rw [entries_nil] at h; cases h
    | cons opcode rest =>
      rw [entries_cons] at h
      obtain ⟨rfl, htail⟩ := List.cons.inj h
      obtain ⟨rest', hrest, he⟩ := ih htail
      refine ⟨rest', ?_, ?_⟩
      · rw [List.flatMap_cons, List.append_assoc, ← hrest, bytes_first]
      · rw [next_first, BitVec.add_assoc, ← BitVec.ofNat_add] at he
        rw [List.flatMap_cons, List.length_append]
        exact he

/-- Nothing was cut off at the end of `front`, so `back` is listed as if it stood alone. -/
theorem entries_append {address : Address} {front : List Byte}
    (hcut : ∀ e ∈ entries address front, ¬ e.CutOff) (back : List Byte) :
    entries address (front ++ back) =
      entries address front ++ entries (address + BitVec.ofNat 13 front.length) back := by
  fun_induction entries address front with
  | case1 address => exact congrArg (entries · back) (BitVec.add_zero address).symm
  | case2 address opcode rest e ih =>
    have hfirst : first address opcode (rest ++ back) = e :=
      first_append (hcut e List.mem_cons_self) back
    have hnext : address + Address.zeroPage e.size = e.next := zeroPage_size_first ..
    have hrest := ih fun e' he' => hcut e' (List.mem_cons_of_mem _ he')
    rw [List.cons_append, entries_cons, hfirst,
      List.drop_append_of_le_length (length_operands_first_le address opcode rest), ← hnext, hrest,
      List.cons_append, hnext, next_first, BitVec.add_assoc, ← BitVec.ofNat_add,
      length_bytes_first, List.length_cons]

/-- A listing covers its bytes from the first to the last. Each entry is one to three of them and
has a text; it stands at the address its place leads to, modulo the size of the space, and is data
exactly if the opcode has no meaning or an operand byte is missing. If the end cuts no instruction
off, more bytes are listed behind it as if they stood alone. -/
theorem disassemble_layout (start : Word) (bytes : List Byte) :
    let es := disassemble start bytes
    es.flatMap (fun e => e.opcode :: e.operands) = bytes ∧
    (∀ e ∈ es, e.size.toNat = e.operands.length + 1 ∧ 1 ≤ e.size.toNat ∧ e.size.toNat ≤ 3 ∧
      e.text?.isSome) ∧
    (∀ e, es.head? = some e → e.address = start &&& 0x1FFF) ∧
    es.IsChain (fun e e' => e'.address.toNat = (e.address.toNat + e.size.toNat) % 0x2000) ∧
    (∀ before e after, es = before ++ e :: after →
      let offset := (before.flatMap Entry.bytes).length
      e.address.toNat = (start.toNat + offset) % 0x2000 ∧
      (e.isData ↔ Opcode.decode? e.opcode = none ∨
        ∃ i, Opcode.decode? e.opcode = some i ∧ bytes.length < offset + i.size)) ∧
    ∀ more, (∀ e ∈ es, ¬ e.CutOff) →
      disassemble start (bytes ++ more) =
        es ++ disassemble (start + UInt16.ofNat bytes.length) more := by
  intro es
  refine ⟨flatMap_bytes_entries _ _, fun e he => ?_, fun e he => ?_, ?_, ?_, fun more hcut => ?_⟩
  · have hlisted := listed_entries he
    have hsize := hlisted.toNat_size
    have hle := hlisted.length_bytes_le
    rw [Entry.bytes, List.length_cons] at hsize hle
    exact ⟨hsize, by omega, by omega, hlisted.text?_isSome⟩
  · rw [address_of_head? he, Address.toWord_ofWord]
  · refine (isChain_entries (Address.ofWord start) bytes).imp fun e e' h => ?_
    rw [h, Address.toNat_toWord]
    exact Address.toNat_ofWord_add e.address e.size.toNat
  · intro before e after h offset
    obtain ⟨rest, hbytes, he⟩ := entries_split h
    have hlen : bytes.length = offset + (rest.length + 1) := by
      rw [hbytes, List.length_append, List.length_cons]
    refine ⟨?_, ?_⟩
    · rw [he, address_first, Address.toNat_toWord, Address.toNat_ofWord_add]
    · rw [he, isData_first, opcode_first]
      cases Opcode.decode? e.opcode with
      | none => simp
      | some i =>
        simp only [Option.some.injEq, forall_eq', reduceCtorEq, false_or, exists_eq_left',
          Instruction.size, Mode.size]
        omega
  · rw [disassemble, entries_append hcut, ← Address.ofWord_add]
    rfl

/-- Two instructions around the top of the address space, and a byte without a meaning. -/
def wrappedBytes : List Byte := [0xA9, 0x05, 0x3C, 0x42, 0x10, 0x04]

/-- The instruction in front of the top. -/
def wrappedLoad : Entry := whole 0x1FFE 0xA9 ⟨.read (.accumulate .lda), .immediate⟩ [0x05]

/-- The instruction behind it. -/
def wrappedStore : Entry :=
  whole 0x0000 0x3C ⟨.storeImmediate, .immediateZeroPage⟩ [0x42, 0x10]

theorem disassemble_wrappedBytes :
    disassemble 0x1FFE wrappedBytes = [wrappedLoad, wrappedStore, data 0x0003 0x04] := by
  rw [disassemble, wrappedBytes, entries_cons]
  show _ :: entries 0x0000 [0x3C, 0x42, 0x10, 0x04] = _
  rw [entries_cons]
  show _ :: _ :: entries 0x0003 [0x04] = _
  rw [entries_cons]
  show _ :: _ :: _ :: entries 0x0004 [] = _
  rw [entries_nil]
  rfl

theorem disassemble_layout_wrapped :
    let es := disassemble 0x1FFE wrappedBytes
    es.head? = some wrappedLoad ∧ es = [wrappedLoad] ++ wrappedStore :: [data 0x0003 0x04] ∧
      (∀ e ∈ es, ¬ e.CutOff) ∧
      wrappedLoad.address = 0x1FFE &&& 0x1FFF ∧
      wrappedStore.address.toNat = (0x1FFE + 2) % 0x2000 ∧
      disassemble 0x1FFE (wrappedBytes ++ [0xD0]) = es ++ disassemble 0x2004 [0xD0] := by
  intro es
  have hes : es = [wrappedLoad, wrappedStore, data 0x0003 0x04] := disassemble_wrappedBytes
  have hhead : es.head? = some wrappedLoad := by rw [hes]; rfl
  have hcut : ∀ e ∈ es, ¬ e.CutOff := by
    rw [hes]
    decide
  obtain ⟨-, -, hfirst, -, hplace, hmore⟩ := disassemble_layout 0x1FFE wrappedBytes
  exact ⟨hhead, hes, hcut, hfirst _ hhead, (hplace [wrappedLoad] _ _ hes).1, hmore [0xD0] hcut⟩

end Listing

end M740
