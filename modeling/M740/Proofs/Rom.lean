import M740.Run

/-!
# The ROM

Nothing that runs against a bus changes the ROM: what the processor reads there is what a host has
installed. `RomHolds` says of bytes that they lie in the ROM from an address on.
-/

namespace M740

variable {σ : Type} [Device σ]

namespace Bus

theorem read_of_not_device (b : Bus σ) {a : Address} (h : a.deviceRegister? = none) :
    b.read a = (b.peek a, b) := by
  cases hp : a.place with
  | device register =>
    unfold Address.place at hp
    split at hp
    · cases hp
    · split at hp
      · cases hp
      · rw [h] at hp
        cases hp
  | ram | rom | unmapped => simp only [read, peek, hp]

/-- Reading disturbs devices only. -/
theorem peek_read (b : Bus σ) (a a' : Address) : (b.read a).2.peek a' = b.peek a' := by
  unfold read
  split <;> rfl

theorem read_rom (b : Bus σ) (a : Address) : (b.read a).2.rom = b.rom := by
  unfold read
  split <;> rfl

theorem write_rom (b : Bus σ) (a : Address) (value : Byte) : (b.write a value).rom = b.rom := by
  unfold write
  split <;> rfl

theorem read_of_rom (b : Bus σ) {a : Address} {cell : Fin romSize} (h : a.place = .rom cell) :
    b.read a = (b.rom.get cell, b) := by
  simp only [read, h]
  rfl

section
omit [Device σ]

/-- An image covers the top of the ROM; below it the old contents stay. -/
theorem install_rom_getElem (b : Bus σ) (image : List Byte) {i : Nat} (hi : i < romSize) :
    (b.install image).rom[i] =
      (if romSize - installedSize image ≤ i then image[i - (romSize - installedSize image)]?
        else none).getD b.rom[i] := by
  have hsize : installedSize image ≤ romSize := Nat.min_le_right ..
  have hlow : (b.rom.toList.take (romSize - installedSize image)).length =
      romSize - installedSize image := by
    rw [List.length_take, Vector.length_toList]
    omega
  simp only [install, Vector.getElem_mk, List.getElem_toArray]
  by_cases hcovered : romSize - installedSize image ≤ i
  · have hlength : installedSize image ≤ image.length := Nat.min_le_left ..
    have hindex : i - (romSize - installedSize image) < image.length := by omega
    rw [if_pos hcovered, List.getElem_append_right (by omega), List.getElem_take,
      List.getElem?_eq_getElem hindex]
    simp only [hlow, Option.getD_some]
  · rw [if_neg hcovered, List.getElem_append_left (by omega), List.getElem_take,
      Vector.getElem_toList]
    rfl

/-- An image that fits is found at the top of the ROM. -/
theorem install_rom (b : Bus σ) {image : List Byte} {k : Nat} (hfit : image.length ≤ romSize)
    (hk : k < image.length) :
    (b.install image).rom[romSize - image.length + k] = image[k] := by
  have hsize : installedSize image = image.length := Nat.min_eq_left hfit
  rw [install_rom_getElem, hsize, if_pos (Nat.le_add_right ..), Nat.add_sub_cancel_left,
    List.getElem?_eq_getElem hk]
  rfl

end

end Bus

theorem Program.run_rom {α ω : Type} (observe : ω → Event → ω) (p : Program α) (bus : Bus σ)
    (seen : ω) : (p.run observe bus seen).2.1.rom = bus.rom := by
  induction p generalizing bus seen with
  | done => rfl
  | read address _ ih => exact (ih _ _ _).trans (bus.read_rom address)
  | write address value _ ih => exact (ih _ _).trans (bus.write_rom address value)
  | poll _ ih => exact ih _ _ _
  | note _ _ ih => exact ih _ _

/-! ### Bytes in the ROM -/

omit [Device σ]

/-- The bytes lie in the ROM from the address on. -/
def RomHolds (rom : Vector Byte romSize) (address : Address) (bytes : List Byte) : Prop :=
  ∀ i (h : i < bytes.length), ∃ cell,
    (address + BitVec.ofNat 13 i).place = .rom cell ∧ rom.get cell = bytes[i]

section
variable {rom : Vector Byte romSize} {address : Address}

theorem RomHolds.head {b : Byte} {rest : List Byte} (h : RomHolds rom address (b :: rest)) :
    ∃ cell, address.place = .rom cell ∧ rom.get cell = b := by
  obtain ⟨cell, hplace, hcell⟩ := h 0 (Nat.zero_lt_succ _)
  exact ⟨cell, by simpa using hplace, hcell⟩

theorem RomHolds.behind {front rest : List Byte} (h : RomHolds rom address (front ++ rest)) :
    RomHolds rom (address + BitVec.ofNat 13 front.length) rest := by
  intro i hi
  obtain ⟨cell, hplace, hcell⟩ := h (front.length + i) (by rw [List.length_append]; omega)
  refine ⟨cell, ?_, ?_⟩
  · rwa [BitVec.ofNat_add, ← BitVec.add_assoc] at hplace
  · rw [hcell, List.getElem_append_right (by omega)]
    simp only [Nat.add_sub_cancel_left]

theorem Address.place_of_romStart_le {a : Address} (h : romStart ≤ a.toNat) :
    ∃ cell : Fin romSize, a.place = .rom cell ∧ cell.val = a.toNat - romStart := by
  have hram : ¬ a.toNat < ramSize := Nat.not_lt.2 (Nat.le_trans (by decide) h)
  have hcell : a.toNat - romStart < romSize := by
    have := a.isLt
    simp only [romStart, romSize] at *
    omega
  exact ⟨⟨a.toNat - romStart, hcell⟩, by rw [place, dif_neg hram, dif_pos h], rfl⟩

/-- What is laid into the ROM region lies in the ROM. -/
theorem romHolds_of_peek {bus : Bus σ} {start : Word} {bytes : List Byte}
    (hlow : romStart ≤ start.toNat) (hhigh : start.toNat + bytes.length ≤ 0x2000)
    (h : ∀ i (h : i < bytes.length),
      bus.peek (Address.ofWord start + BitVec.ofNat 13 i) = bytes[i]) :
    RomHolds bus.rom (Address.ofWord start) bytes := by
  intro i hi
  have hn : (Address.ofWord start + BitVec.ofNat 13 i).toNat = start.toNat + i := by
    simp only [Address.ofWord, BitVec.toNat_add, BitVec.toNat_ofNat]
    omega
  obtain ⟨cell, hplace, -⟩ :=
    Address.place_of_romStart_le (Nat.le_trans hlow (hn ▸ Nat.le_add_right _ _))
  have hpeek := h i hi
  rw [Bus.peek, hplace] at hpeek
  exact ⟨cell, hplace, hpeek⟩

/-- What the ROM holds is seen on the bus. -/
theorem RomHolds.peek {bus : Bus σ} {bytes : List Byte}
    (h : RomHolds bus.rom address bytes) {i : Nat} (hi : i < bytes.length) :
    bus.peek (address + BitVec.ofNat 13 i) = bytes[i] := by
  obtain ⟨cell, hplace, hcell⟩ := h i hi
  rw [Bus.peek, hplace]
  exact hcell

/-- An image that fits is held at the top of the ROM. -/
theorem romHolds_install (b : Bus σ) {image : List Byte}
    (hfit : image.length ≤ romSize) :
    RomHolds (b.install image).rom (BitVec.ofNat 13 (0x2000 - image.length)) image := by
  intro i hi
  have hsize : image.length ≤ 0x1000 := hfit
  have hn : (BitVec.ofNat 13 (0x2000 - image.length) + BitVec.ofNat 13 i).toNat =
      0x2000 - image.length + i := by
    simp only [BitVec.toNat_add, BitVec.toNat_ofNat]
    omega
  obtain ⟨cell, hplace, hcell⟩ := Address.place_of_romStart_le
    (show romStart ≤ (BitVec.ofNat 13 (0x2000 - image.length) + BitVec.ofNat 13 i).toNat by
      rw [hn, romStart]; omega)
  have hindex : cell.val = romSize - image.length + i := by
    rw [hcell, hn, romStart, romSize]
    omega
  refine ⟨cell, hplace, ?_⟩
  rw [← b.install_rom hfit hi]
  show (b.install image).rom[cell.val] = _
  simp only [hindex]

end

end M740
