import M740.Proofs.Listing
import M740.Proofs.Names

/-!
# The text of a listing

At a fixed address the text of an entry tells its bytes (`Entry.Listed.bytes_eq`). The mnemonic is
three characters long and tells the operation, together with the bit in front of the operand. Of
the rest, the shape tells the mode (`Entry.operandText?_shape`) and the digits tell the operand
bytes. Two listings with the same text then agree entry by entry, since every entry begins where
the one before it ends.
-/

namespace M740

/-! ### Operands -/

/-- The notation of a mode, with a zero for every digit. -/
def Mode.shape : Mode → String
  | .implied => ""
  | .accumulator => "0"
  | .immediate => "#$00"
  | .immediateZeroPage => "#$00,$00"
  | .zeroPage => "$00"
  | .zeroPageX => "$00,X"
  | .zeroPageY => "$00,Y"
  | .absolute | .relative => "$0000"
  | .absoluteX => "$0000,X"
  | .absoluteY => "$0000,Y"
  | .xIndirect => "($00,X)"
  | .indirectY => "($00),Y"
  | .zeroPageIndirect => "($00)"
  | .absoluteIndirect => "($0000)"
  | .specialPage => "\\$0000"
  | .accumulatorRelative => "0,$0000"
  | .zeroPageRelative => "$00,$0000"

theorem Mode.shape_inj : ∀ m ∈ all, ∀ m' ∈ all, m.shape = m'.shape →
    (m = .relative ↔ m' = .relative) → m = m' := by
  decide +kernel

namespace Entry

/-- What is left of a character when all digits look the same. -/
def blank (c : Char) : Char := if c.isDigit ∨ ('A' ≤ c ∧ c ≤ 'F') then '0' else c

theorem blank_digit : ∀ n < 16, blank (Hex.digit n) = '0' := by decide

@[simp]
theorem map_blank_byte (b : Byte) : (Hex.byte b).toList.map blank = ['0', '0'] := by
  have := b.toNat_lt
  rw [Hex.toList_byte, List.map_cons, List.map_cons, blank_digit _ (by omega),
    blank_digit _ (by omega), List.map_nil]

@[simp]
theorem map_blank_word (w : Word) : (Hex.word w).toList.map blank = ['0', '0', '0', '0'] := by
  rw [Hex.word, String.toList_append, List.map_append, map_blank_byte, map_blank_byte]
  rfl

theorem operandText?_isSome {e : Entry} {m : Mode} (hlen : e.operands.length = m.operandLength) :
    (e.operandText? m).isSome := by
  cases m with
  | implied | accumulator | relative | accumulatorRelative => rfl
  | immediate | zeroPage | zeroPageX | zeroPageY | xIndirect | indirectY | zeroPageIndirect
  | specialPage =>
    obtain ⟨b, hb⟩ := List.length_eq_one_iff.1 hlen
    simp [operandText?, operandText?.byte0, hb]
  | immediateZeroPage | absolute | absoluteX | absoluteY | absoluteIndirect | zeroPageRelative =>
    obtain ⟨b, c, hb⟩ := List.length_eq_two.1 hlen
    simp [operandText?, operandText?.word, operandText?.byte0, operandText?.byte1, hb]

theorem operandText?_shape {e : Entry} {m : Mode} {t : String} (h : e.operandText? m = some t) :
    t.toList.map blank = m.shape.toList := by
  cases m with
  | implied | accumulator | relative | accumulatorRelative =>
    obtain rfl := Option.some.inj h
    simp [targetText, wordText, Mode.shape, blank]
  | immediate | zeroPage | zeroPageX | zeroPageY | xIndirect | indirectY | zeroPageIndirect
  | specialPage | zeroPageRelative =>
    obtain ⟨b, -, rfl⟩ := Option.map_eq_some_iff.1 h
    simp [byteText, targetText, wordText, Mode.shape, blank]
  | absolute | absoluteX | absoluteY | absoluteIndirect =>
    obtain ⟨w, -, rfl⟩ := Option.map_eq_some_iff.1 h
    simp [wordText, Mode.shape, blank]
  | immediateZeroPage =>
    obtain ⟨b, -, h⟩ := Option.bind_eq_some_iff.1 h
    obtain ⟨c, -, h⟩ := Option.bind_eq_some_iff.1 h
    obtain rfl := Option.some.inj h
    simp [byteText, Mode.shape, blank]

/-- In one mode, and at one address, the operand tells the operand bytes. -/
theorem operandText?_inj {e e' : Entry} {m : Mode} {t : String}
    (hlen : e.operands.length = m.operandLength) (hlen' : e'.operands.length = m.operandLength)
    (haddress : e.address = e'.address) (hsize : e.size = e'.size)
    (h : e.operandText? m = some t) (h' : e'.operandText? m = some t) :
    e.operands = e'.operands := by
  replace h := h.trans h'.symm
  cases m with
  | implied | accumulator =>
    rw [List.eq_nil_of_length_eq_zero hlen, List.eq_nil_of_length_eq_zero hlen']
  | immediate | zeroPage | zeroPageX | zeroPageY | xIndirect | indirectY | zeroPageIndirect
  | relative | specialPage | accumulatorRelative =>
    obtain ⟨b, hb⟩ := List.length_eq_one_iff.1 hlen
    obtain ⟨b', hb'⟩ := List.length_eq_one_iff.1 hlen'
    simpa [operandText?, operandText?.byte0, byteText, wordText, targetText, target, hb, hb',
      haddress, hsize, ← String.toList_inj] using h
  | immediateZeroPage | absolute | absoluteX | absoluteY | absoluteIndirect | zeroPageRelative =>
    obtain ⟨b, c, hb⟩ := List.length_eq_two.1 hlen
    obtain ⟨b', c', hb'⟩ := List.length_eq_two.1 hlen'
    simpa [operandText?, operandText?.byte0, operandText?.byte1, operandText?.word, byteText,
      wordText, targetText, target, hb, hb', haddress, hsize, ← String.toList_inj] using h

/-! ### Lines -/

/-- Text behind a separator, if there is any. -/
def separated (separator : String) : List Char → List Char
  | [] => []
  | c :: rest => separator.toList ++ c :: rest

theorem separated_inj {separator : String} {s s' : List Char}
    (h : separated separator s = separated separator s') : s = s' := by
  unfold separated at h
  split at h <;> split at h
  · rfl
  · simp at h
  · simp at h
  · exact List.append_cancel_left h

theorem toList_join (s separator operand : String) :
    (if operand.isEmpty then s else s ++ separator ++ operand).toList =
      s.toList ++ separated separator operand.toList := by
  cases ho : operand.toList with
  | nil =>
    obtain rfl := String.toList_eq_nil_iff.1 ho
    simp [separated]
  | cons c rest =>
    have hne : operand.isEmpty = false := by simp [← String.toList_eq_nil_iff, ho]
    simp [hne, separated, ho]

theorem toList_withBit_some {bit : Byte} (h : bit < 8) (operand : String) :
    (withBit (some bit) operand).toList =
      Hex.digit bit.toNat :: separated "," operand.toList := by
  have hdigit : ∀ n < 8, (toString n).toList = [Hex.digit n] := by decide
  rw [withBit, toList_join, hdigit bit.toNat h, List.singleton_append]

theorem text?_eq_some {e : Entry} {i : Instruction} {t : String} (hi : e.instruction = some i)
    (h : e.text? = some t) : ∃ operand, e.operandText? i.mode = some operand ∧
      t.toList = i.operation.mnemonic.toList ++
        separated " " (withBit i.operation.bit? operand).toList := by
  simp only [text?, hi, Option.bind_eq_bind, Option.bind_eq_some_iff] at h
  obtain ⟨operand, ho, h⟩ := h
  obtain rfl := Option.some.inj h
  exact ⟨operand, ho, toList_join _ _ _⟩

/-- The mnemonic and what stands behind it tell the operation and the operand. -/
theorem withBit_inj {o o' : Operation} {operand operand' : String} (hm : o.mnemonic = o'.mnemonic)
    (hb : o.bit?.all (· < 8)) (hb' : o'.bit?.all (· < 8))
    (h : (withBit o.bit? operand).toList = (withBit o'.bit? operand').toList) :
    o = o' ∧ operand = operand' := by
  have hbit : ∀ b b', o.bit? = some b → o'.bit? = some b' → b = b' := by
    intro b b' ho ho'
    simp only [ho, ho', Option.all_some, decide_eq_true_eq] at h hb hb'
    rw [toList_withBit_some hb, toList_withBit_some hb', List.cons.injEq] at h
    have hlt : b.toNat < 8 := hb
    have hlt' : b'.toNat < 8 := hb'
    exact UInt8.toNat_inj.1 (Hex.digit_inj (by omega) (by omega) h.1)
  obtain rfl := Operation.mnemonic_inj hm hbit
  refine ⟨rfl, String.toList_inj.1 ?_⟩
  cases ho : o.bit? with
  | none => rwa [ho] at h
  | some b =>
    simp only [ho, Option.all_some, decide_eq_true_eq] at h hb
    rw [toList_withBit_some hb, toList_withBit_some hb, List.cons.injEq] at h
    exact separated_inj h.2

theorem data_text? {e : Entry} {t : String} (hi : e.instruction = none) (h : e.text? = some t) :
    t.toList = ".byte $".toList ++ (Hex.byte e.opcode).toList := by
  simp only [text?, hi, Option.some.injEq] at h
  subst h
  simp [byteText]

theorem Listed.text?_isSome {e : Entry} (h : e.Listed) : e.text?.isSome := by
  cases h with
  | data hi => simp [text?, hi]
  | whole i _ hi hlen =>
    obtain ⟨operand, ho⟩ := Option.isSome_iff_exists.1 (operandText?_isSome hlen)
    simp [text?, hi, ho]

/-- A byte of data does not read like an instruction. -/
theorem data_ne_whole {e e' : Entry} {i : Instruction} {t : String} (hi : e.instruction = none)
    (h : e.text? = some t) (hd : Opcode.decode? e'.opcode = some i)
    (hi' : e'.instruction = some i) (h' : e'.text? = some t) : False := by
  obtain ⟨operand, -, ht⟩ := text?_eq_some hi' h'
  have hlen := Opcode.length_mnemonic e'.opcode
  have hhead := Opcode.head_mnemonic e'.opcode
  rw [Opcode.instruction_of_decode? hd] at hlen hhead
  have hfirst := congrArg List.head? ((data_text? hi h).symm.trans ht)
  cases hm : i.operation.mnemonic.toList with
  | nil => rw [hm] at hlen; cases hlen
  | cons c rest =>
    rw [hm] at hfirst hhead
    exact hhead hfirst.symm

/-- At one address, instructions that read alike have the same opcode and operand bytes. -/
theorem whole_bytes_eq {e e' : Entry} {i i' : Instruction} {t : String}
    (haddress : e.address = e'.address) (hd : Opcode.decode? e.opcode = some i)
    (hi : e.instruction = some i) (hlen : e.operands.length = i.mode.operandLength)
    (hsize : e.size = UInt8.ofNat i.size) (h : e.text? = some t)
    (hd' : Opcode.decode? e'.opcode = some i') (hi' : e'.instruction = some i')
    (hlen' : e'.operands.length = i'.mode.operandLength) (hsize' : e'.size = UInt8.ofNat i'.size)
    (h' : e'.text? = some t) : e.bytes = e'.bytes := by
  obtain ⟨operand, ho, ht⟩ := text?_eq_some hi h
  obtain ⟨operand', ho', ht'⟩ := text?_eq_some hi' h'
  have hdo := Opcode.instruction_of_decode? hd
  have hdo' := Opcode.instruction_of_decode? hd'
  have hlength : i.operation.mnemonic.toList.length = i'.operation.mnemonic.toList.length := by
    rw [← hdo, ← hdo', Opcode.length_mnemonic, Opcode.length_mnemonic]
  obtain ⟨hm, hrest⟩ := List.append_inj (ht.symm.trans ht') hlength
  have hoperation : i.operation = i'.operation ∧ operand = operand' :=
    withBit_inj (String.toList_inj.1 hm) (hdo ▸ Opcode.bit_lt e.opcode)
      (hdo' ▸ Opcode.bit_lt e'.opcode) (separated_inj hrest)
  obtain ⟨hoperation, rfl⟩ := hoperation
  have hmode : i.mode = i'.mode := by
    refine Mode.shape_inj _ (Mode.mem_all _) _ (Mode.mem_all _) (String.toList_inj.1 ?_) ?_
    · rw [← operandText?_shape ho, operandText?_shape ho']
    · have hrel := Opcode.relative_iff e.opcode
      have hrel' := Opcode.relative_iff e'.opcode
      rw [hdo] at hrel
      rw [hdo'] at hrel'
      rw [hrel, hrel', hoperation]
  obtain rfl : i = i' := by
    cases i
    cases i'
    exact congr (congrArg Instruction.mk hoperation) hmode
  have hopcode : e.opcode = e'.opcode := Opcode.decode?_inj hd hd'
  have hoperands := operandText?_inj hlen hlen' haddress (hsize.trans hsize'.symm) ho ho'
  rw [bytes, bytes, hopcode, hoperands]

theorem Listed.bytes_eq {e e' : Entry} (he : e.Listed) (he' : e'.Listed)
    (haddress : e.address = e'.address) (htext : e.text? = e'.text?) : e.bytes = e'.bytes := by
  obtain ⟨t, h⟩ := Option.isSome_iff_exists.1 he.text?_isSome
  have h' : e'.text? = some t := htext.symm.trans h
  cases he with
  | data hi hoperands =>
    cases he' with
    | data hi' hoperands' =>
      have hopcode := List.append_cancel_left ((data_text? hi h).symm.trans (data_text? hi' h'))
      rw [bytes, bytes, Hex.toList_byte_inj.1 hopcode, hoperands, hoperands']
    | whole i' hd' hi' => exact (data_ne_whole hi h hd' hi' h').elim
  | whole i hd hi hlen hsize =>
    cases he' with
    | data hi' => exact (data_ne_whole hi' h' hd hi h).elim
    | whole i' hd' hi' hlen' hsize' =>
      exact whole_bytes_eq haddress hd hi hlen hsize h hd' hi' hlen' hsize' h'

end Entry

/-! ### Listings -/

namespace Listing

open Entry

theorem entries_text?_inj {address : Address} {b b' : List Byte}
    (h : (entries address b).map text? = (entries address b').map text?) : b = b' := by
  fun_induction entries address b generalizing b' with
  | case1 =>
    cases b' with
    | nil => rfl
    | cons => rw [entries_cons] at h; cases h
  | case2 address opcode rest e =>
    rename_i ih
    cases b' with
    | nil => rw [entries_nil] at h; cases h
    | cons opcode' rest' =>
      rw [entries_cons, List.map_cons, List.map_cons, List.cons.injEq] at h
      obtain ⟨htext, hrest⟩ := h
      have he : e.Listed := listed_first address opcode rest
      have he' := listed_first address opcode' rest'
      have haddress : e.address = (first address opcode' rest').address :=
        (address_first _ _ _).trans (address_first _ _ _).symm
      have hbytes := he.bytes_eq he' haddress htext
      have hnext : address + Address.zeroPage e.size = (first address opcode' rest').next := by
        rw [next, address_first, Address.ofWord_toWord, he.size_eq, he'.size_eq, hbytes]
      rw [← bytes_first address opcode rest, ← bytes_first address opcode' rest']
      exact congr (congrArg _ hbytes) (ih (hnext ▸ hrest))

/-- A listing loses nothing: every entry has a text, the texts tell the bytes that were taken apart,
and at one address the text of an entry, in whatever listing, tells its opcode and operand bytes. -/
theorem disassemble_text?_inj (start : Word) (b b' : List Byte) :
    (∀ e ∈ disassemble start b, e.text?.isSome) ∧
    ((disassemble start b).map text? = (disassemble start b').map text? → b = b') ∧
    (∀ start', ∀ e ∈ disassemble start b, ∀ e' ∈ disassemble start' b',
      e.address = e'.address → e.text? = e'.text? →
        e.opcode = e'.opcode ∧ e.operands = e'.operands) := by
  refine ⟨fun e he => (listed_entries he).text?_isSome, entries_text?_inj, ?_⟩
  intro start' e he e' he' haddress htext
  exact List.cons.inj ((listed_entries he).bytes_eq (listed_entries he') haddress htext)

/-- A branch at the end of one listing, and with a byte behind it in another. -/
theorem disassemble_text?_inj_branch :
    let b := [0xEA, 0x80, 0x10]
    let b' := [0x80, 0x10, 0x04]
    let e := first 0x1FF8 0x80 [0x10]
    let e' := first 0x1FF8 0x80 [0x10, 0x04]
    e ∈ disassemble 0x1FF7 b ∧ e' ∈ disassemble 0x1FF8 b' ∧ e.text? = some "BRA $000A" ∧
      e.text?.isSome ∧ (e.opcode = e'.opcode ∧ e.operands = e'.operands) ∧
      (disassemble 0x1FF7 b).map text? ≠ (disassemble 0x1FF7 b').map text? := by
  intro b b' e e'
  have he : e ∈ disassemble 0x1FF7 b := by
    rw [disassemble, entries_cons]
    refine .tail _ ?_
    show e ∈ entries 0x1FF8 [0x80, 0x10]
    rw [entries_cons]
    exact .head _
  have he' : e' ∈ disassemble 0x1FF8 b' := by
    rw [disassemble, entries_cons]
    exact .head _
  have h := disassemble_text?_inj 0x1FF7 b b'
  have hne : b ≠ b' := by decide
  exact ⟨he, he', by decide, h.1 e he, h.2.2 0x1FF8 e he e' he' rfl rfl, fun ht => hne (h.2.1 ht)⟩

end Listing

end M740
