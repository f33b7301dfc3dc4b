import Mathlib.Data.List.Nodup
import M740.Disassembly.Entry

/-!
# Names

What tells the parts of a line of assembly apart: digits are read back as the numbers they stand
for, an operation is found under its mnemonic, and no two opcodes stand for one instruction.
-/

namespace M740

/-! ### Numbers -/

namespace Hex

/-- The number a digit stands for. -/
def value (c : Char) : Nat := if c.isDigit then c.toNat - '0'.toNat else c.toNat - 'A'.toNat + 10

theorem value_digit : ∀ n < 16, value (digit n) = n := by decide

theorem digit_inj {m n : Nat} (hm : m < 16) (hn : n < 16) (h : digit m = digit n) : m = n := by
  rw [← value_digit m hm, h, value_digit n hn]

theorem toList_byte (b : Byte) :
    (byte b).toList = [digit (b.toNat / 16), digit (b.toNat % 16)] :=
  String.toList_ofList

@[simp]
theorem byte_append_inj {b b' : Byte} {s s' : List Char} :
    (byte b).toList ++ s = (byte b').toList ++ s' ↔ b = b' ∧ s = s' := by
  refine ⟨fun h => ?_, fun ⟨hb, hs⟩ => hb ▸ hs ▸ rfl⟩
  simp only [toList_byte, List.cons_append, List.nil_append, List.cons.injEq] at h
  obtain ⟨hhigh, hlow, hs⟩ := h
  have hb := b.toNat_lt
  have hb' := b'.toNat_lt
  have := digit_inj (by omega) (by omega) hhigh
  have := digit_inj (by omega) (by omega) hlow
  exact ⟨UInt8.toNat_inj.1 (by omega), hs⟩

@[simp]
theorem word_append_inj {w w' : Word} {s s' : List Char} :
    (word w).toList ++ s = (word w').toList ++ s' ↔ w = w' ∧ s = s' := by
  simp only [word, String.toList_append, List.append_assoc, byte_append_inj]
  refine ⟨fun ⟨hhigh, hlow, hs⟩ => ⟨?_, hs⟩, fun ⟨hw, hs⟩ => hw ▸ ⟨rfl, rfl, hs⟩⟩
  rw [← Word.ofBytes_low_high w, hlow, hhigh, Word.ofBytes_low_high]

@[simp]
theorem toList_byte_inj {b b' : Byte} : (byte b).toList = (byte b').toList ↔ b = b' := by
  rw [← List.append_nil (byte b).toList, ← List.append_nil (byte b').toList, byte_append_inj,
    and_iff_left rfl]

@[simp]
theorem toList_word_inj {w w' : Word} : (word w).toList = (word w').toList ↔ w = w' := by
  rw [← List.append_nil (word w).toList, ← List.append_nil (word w').toList, word_append_inj,
    and_iff_left rfl]

end Hex

@[simp]
theorem Word.ofBytes_inj {lo hi lo' hi' : Byte} :
    ofBytes lo hi = ofBytes lo' hi' ↔ lo = lo' ∧ hi = hi' := by
  refine ⟨fun h => ⟨?_, ?_⟩, fun ⟨hlo, hhi⟩ => hlo ▸ hhi ▸ rfl⟩
  · rw [← low_ofBytes lo hi, h, low_ofBytes]
  · rw [← high_ofBytes lo hi, h, high_ofBytes]

namespace Address

@[simp]
theorem toWord_inj {a a' : Address} : toWord a = toWord a' ↔ a = a' :=
  ⟨fun h => by rw [← ofWord_toWord a, h, ofWord_toWord], fun h => h ▸ rfl⟩

@[simp]
theorem specialPage_inj {b b' : Byte} : specialPage b = specialPage b' ↔ b = b' := by
  refine ⟨fun h => UInt8.toNat_inj.1 ?_, fun h => h ▸ rfl⟩
  have := b.toNat_lt
  have := b'.toNat_lt
  have := congrArg BitVec.toNat h
  simp only [specialPage, BitVec.toNat_ofNat] at this
  omega

/-- The low byte of a displacement on the address lines is the displacement. -/
theorem displacement_mod : ∀ d : Byte, (BitVec.ofInt 13 d.signed).toNat % 256 = d.toNat := by
  decide +kernel

@[simp]
theorem displaced_inj {a : Address} {d d' : Byte} : displaced a d = displaced a d' ↔ d = d' := by
  refine ⟨fun h => UInt8.toNat_inj.1 ?_, fun h => h ▸ rfl⟩
  rw [← displacement_mod d, (BitVec.add_right_inj a).1 h, displacement_mod]

end Address

/-! ### Operations -/

namespace Operation

/-- An operation is found under its mnemonic, if the bit that is asked for is its own. -/
theorem ofMnemonic?_mnemonic {o : Operation} {bit : Byte} (h : ∀ b, o.bit? = some b → b = bit) :
    ofMnemonic? o.mnemonic bit = some o := by
  cases o with
  | read op =>
    cases op with
    | accumulate op => cases op <;> rfl
    | load i | compare i => cases i <;> rfl
    | bit | test => rfl
  | store register => cases register <;> rfl
  | storeImmediate => rfl
  | modify op =>
    cases op with
    | setBit b | clearBit b => rw [h b rfl]; rfl
    | _ => rfl
  | jump op =>
    cases op with
    | branch condition => cases condition <;> rfl
    | _ => rfl
  | branchOnBit b whenSet => rw [h b rfl]; cases whenSet <;> rfl
  | implied op =>
    cases op with
    | flag op | stack op | transfer op | clock op => cases op <;> rfl
    | count op => rcases op with i | i <;> cases i <;> rfl
    | _ => rfl

/-- Mnemonics tell operations apart, but for the bit. -/
theorem mnemonic_inj {o o' : Operation} (h : o.mnemonic = o'.mnemonic)
    (hbit : ∀ b b', o.bit? = some b → o'.bit? = some b' → b = b') : o = o' := by
  -- Any bit that neither of them contradicts finds both.
  have found (bit : Byte) (ho : ∀ b, o.bit? = some b → b = bit)
      (ho' : ∀ b, o'.bit? = some b → b = bit) : o = o' := by
    have := ofMnemonic?_mnemonic ho
    rw [h, ofMnemonic?_mnemonic ho'] at this
    exact (Option.some.inj this).symm
  cases ho : o.bit? with
  | some bit => exact found bit (by simp [ho]) fun b hb => (hbit bit b ho hb).symm
  | none =>
    cases ho' : o'.bit? with
    | some bit => exact found bit (by simp [ho]) (by simp [ho'])
    | none => exact found 0 (by simp [ho]) (by simp [ho'])

/-- Whether a displacement is all that leads to the target. -/
def branches : Operation → Bool
  | .jump (.branch _) | .jump .always => true
  | _ => false

end Operation

/-! ### Opcodes -/

namespace Opcode

theorem instruction_of_decode? {opcode : Byte} {i : Instruction} (h : decode? opcode = some i) :
    instruction opcode = i := by
  rw [instruction, h, Option.getD_some]

theorem instruction_of_undefined {opcode : Byte} (h : decode? opcode = none) :
    instruction opcode = ⟨.implied .nop, .implied⟩ := by
  rw [instruction, h, Option.getD_none]

theorem length_mnemonic :
    ∀ opcode : Byte, (instruction opcode).operation.mnemonic.toList.length = 3 := by
  decide +kernel

theorem head_mnemonic :
    ∀ opcode : Byte, (instruction opcode).operation.mnemonic.toList.head? ≠ some '.' := by
  decide +kernel

theorem bit_lt : ∀ opcode : Byte, (instruction opcode).operation.bit?.all (· < 8) := by
  decide +kernel

theorem relative_iff : ∀ opcode : Byte,
    (instruction opcode).mode = .relative ↔ (instruction opcode).operation.branches = true := by
  decide +kernel

/-- The opcodes in a mode. -/
def inMode (m : Mode) : List Byte :=
  ((List.range 256).map UInt8.ofNat).filter fun b => (decode? b).map (·.mode) = some m

theorem nodup_inMode : ∀ m ∈ Mode.all, ((inMode m).map decode?).Nodup := by
  decide +kernel

theorem mem_inMode {b : Byte} {i : Instruction} (h : decode? b = some i) : b ∈ inMode i.mode := by
  refine List.mem_filter.2 ⟨List.mem_map.2 ⟨b.toNat, List.mem_range.2 b.toNat_lt, ?_⟩, by simp [h]⟩
  exact UInt8.ofNat_toNat

/-- No two opcodes stand for one instruction. -/
theorem decode?_inj {b b' : Byte} {i : Instruction} (h : decode? b = some i)
    (h' : decode? b' = some i) : b = b' :=
  List.inj_on_of_nodup_map (nodup_inMode _ (Mode.mem_all _)) (mem_inMode h) (mem_inMode h')
    (h.trans h'.symm)

end Opcode

end M740
