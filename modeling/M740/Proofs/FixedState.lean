import M740.Proofs.History
import M740.Proofs.Saving
import M740.Proofs.Traces

/-!
# Fixed state

What a machine executes can store anywhere, but some addresses keep nothing: the ROM changes only
when a host installs an image, and where nothing is mapped there is nothing to change. So the
processor reads at these addresses what was there before, throughout every run, and registers keep
to their ranges (`Machine.calls_keep_fixed_state`).
-/

namespace M740

open History

namespace Address

/-- Neither memory nor a register is mapped there. -/
def Unmapped (address : Nat) : Prop :=
  0x60 ≤ address ∧ address ≤ 0xCF ∨ 0xEA ≤ address ∧ address ≤ 0xF8 ∨
    0x100 ≤ address ∧ address ≤ 0xFFF

/-- Writes to the address change nothing. -/
def Fixed (a : Address) : Prop := 0x1000 ≤ a.toNat ∨ Unmapped a.toNat

theorem Fixed.not_ram {a : Address} (h : a.Fixed) : ¬ a.toNat ≤ 0x5F := by
  simp only [Fixed, Unmapped] at h
  omega

theorem register?_of_unmapped {n : Nat} (h : Unmapped n) : register? n = none := by
  simp only [Unmapped] at h
  rw [register?, dif_neg (by omega), dif_neg (by omega), dif_neg (by omega)]

theorem Fixed.register? {a : Address} (h : a.Fixed) : History.register? a.toNat = none :=
  h.elim register?_of_rom register?_of_unmapped

end Address

variable {σ : Type}

namespace Bus

theorem peek_of_unmapped (b : Bus σ) {a : Address} (h : Address.Unmapped a.toNat) :
    b.peek a = 0xFF := by
  have hrom : ¬ 0x1000 ≤ a.toNat := by
    simp only [Address.Unmapped] at h
    omega
  rw [peek, Address.place_of_between (Address.Fixed.not_ram (.inr h)) hrom,
    Address.register?_of_unmapped h]
  rfl

/-- What a fixed address shows is a matter of the ROM. -/
theorem peek_of_rom_eq {b b' : Bus σ} (hrom : b'.rom = b.rom) {a : Address} (h : a.Fixed) :
    b'.peek a = b.peek a := by
  rcases h with h | h
  · obtain ⟨cell, hplace, -⟩ := Address.place_of_romStart_le h
    simp only [peek, hplace, hrom]
  · rw [b'.peek_of_unmapped h, b.peek_of_unmapped h]

theorem read_of_fixed [Device σ] (b : Bus σ) {a : Address} (h : a.Fixed) :
    b.read a = (b.peek a, b) := by
  rw [read_eq, h.register?]

end Bus

/-! ### Runs -/

/-- Every read at a fixed address finds what the bus shows there. -/
def ReadsFixed (b : Bus σ) (events : List Event) : Prop :=
  ∀ a value, .read a value ∈ events → a.Fixed → value = b.peek a

theorem ReadsFixed.trace {b : Bus σ} {events : List Event} (h : ReadsFixed b events) {e : Event}
    (he : ∀ a value, e = .read a value → a.Fixed → value = b.peek a) :
    ReadsFixed b (trace events e) := by
  intro a value hm
  rcases List.mem_append.1 hm with hm | hm
  · exact h a value hm
  · exact he a value (List.mem_singleton.1 hm).symm

/-- Nothing that a program does on the way changes what it reads at fixed addresses. -/
theorem Program.run_readsFixed [Device σ] {α : Type} (p : Program α) {b bus : Bus σ}
    (hrom : bus.rom = b.rom) {seen : List Event} (h : ReadsFixed b seen) :
    ReadsFixed b (p.run M740.trace bus seen).2.2 := by
  induction p generalizing bus seen with
  | done => exact h
  | read address _ ih =>
    refine ih _ ((bus.read_rom address).trans hrom) (h.trace ?_)
    rintro a value ⟨⟩ hfixed
    have hread := bus.read_of_fixed hfixed
    exact (congrArg Prod.fst hread).trans (Bus.peek_of_rom_eq hrom hfixed)
  | write address value _ ih =>
    exact ih ((bus.write_rom address value).trans hrom) (h.trace fun _ _ he => nomatch he)
  | poll _ ih => exact ih _ hrom h
  | note _ _ ih => exact ih hrom (h.trace fun _ _ he => nomatch he)

/-! ### Calls -/

/-- The call installs a ROM image. -/
def Call.installs : Call → Bool
  | .setRom _ => true
  | _ => false

theorem Bus.prepare_rom (b : Bus σ) {call : Call} (h : call.installs = false) :
    (b.prepare call).rom = b.rom := by
  cases call with
  | setRom => cases h
  | reset | runFor | step | interrupt | read | write | set | restore => rfl

namespace Machine

variable [Device σ]

theorem call_rom {ω : Type} (observe : ω → Event → ω) (m : Machine σ) (seen : ω) {call : Call}
    (h : call.installs = false) : (m.call observe seen call).2.1.bus.rom = m.bus.rom :=
  (Program.run_rom ..).trans (Bus.prepare_rom _ h)

theorem call_readsFixed {b : Bus σ} {m : Machine σ} (hrom : m.bus.rom = b.rom)
    {seen : List Event} (hseen : ReadsFixed b seen) {call : Call} (h : call.installs = false) :
    ReadsFixed b (m.call trace seen call).2.2 :=
  Program.run_readsFixed _ ((Bus.prepare_rom _ h).trans hrom) hseen

/-- Calls that install no image leave the ROM as it is, and read nothing else there. -/
theorem calls_readsFixed {b : Bus σ} {m : Machine σ} (hrom : m.bus.rom = b.rom)
    {seen : List Event} (hseen : ReadsFixed b seen) {calls : List Call}
    (h : ∀ call ∈ calls, call.installs = false) :
    (m.calls trace seen calls).2.1.bus.rom = b.rom ∧
      ReadsFixed b (m.calls trace seen calls).2.2 := by
  induction calls generalizing m seen with
  | nil => exact ⟨hrom, hseen⟩
  | cons call rest ih =>
    have hc := h call List.mem_cons_self
    exact ih ((m.call_rom trace seen hc).trans hrom) (call_readsFixed hrom hseen hc)
      fun c hm => h c (List.mem_cons_of_mem _ hm)

/-- Whatever a machine executes, its fixed state stays: the ROM, the open addresses, and the ranges
of the program counter, of the ticks left over and of the packed status. -/
theorem calls_keep_fixed_state (m : Machine σ) {calls : List Call}
    (h : ∀ call ∈ calls, call.installs = false) :
    let r := m.calls trace [] calls
    let s := r.2.1.snapshot
    (∀ a, 0x1000 ≤ wrapped a →
      r.2.1.peek a = m.peek a ∧ (r.2.1.call trace [] (.read a)).1 = .byte (m.peek a)) ∧
    (∀ a, Address.Unmapped (wrapped a) →
      r.2.1.peek a = 0xFF ∧ (r.2.1.call trace [] (.read a)).1 = .byte 0xFF) ∧
    (∀ a value, .read (Address.ofWord a) value ∈ r.2.2 →
      (0x1000 ≤ wrapped a → value = m.peek a) ∧ (Address.Unmapped (wrapped a) → value = 0xFF)) ∧
    s.pc ≤ 0x1FFF ∧ s.clockRemainder.toNat < 4 ∧ s.status &&& 0x10 = 0 := by
  intro r s
  have hnothing : ReadsFixed m.bus [] := fun _ _ hm => absurd hm List.not_mem_nil
  obtain ⟨hrom, hreads⟩ := calls_readsFixed rfl hnothing h
  have hpeek {a : Address} (ha : a.Fixed) : r.2.1.bus.peek a = m.bus.peek a :=
    Bus.peek_of_rom_eq hrom ha
  have hread {a : Word} (ha : (Address.ofWord a).Fixed) :
      (r.2.1.call trace [] (.read a)).1 = .byte (m.peek a) := by
    show Answer.byte (r.2.1.bus.read (Address.ofWord a)).1 = _
    rw [Bus.read_of_fixed _ ha, hpeek ha]
    rfl
  simp only [← Address.toNat_ofWord]
  refine ⟨fun a ha => ⟨hpeek (.inl ha), hread (.inl ha)⟩, fun a ha => ?_,
    fun a value hm => ⟨fun ha => hreads _ _ hm (.inl ha), fun ha => ?_⟩,
    Snapshot.capture_pc_le _ _, Snapshot.capture_clockRemainder_lt _ _,
    Snapshot.capture_status _ _⟩
  · have hopen : m.peek a = 0xFF := m.bus.peek_of_unmapped ha
    exact ⟨r.2.1.bus.peek_of_unmapped ha, (hread (.inr ha)).trans (congrArg _ hopen)⟩
  · exact (hreads _ _ hm (.inr ha)).trans (m.bus.peek_of_unmapped ha)

/-- A ROM whose program enables interrupts, stores to its own first byte, counts up where nothing is
mapped, and starts over. -/
def selfWritingImage : List Byte :=
  [0x58, 0x8D, 0xE0, 0x1F, 0xEE, 0x00, 0x02, 0x80, 0xF7] ++
    List.replicate 11 0xEA ++ [0xE0, 0x1F] ++ List.replicate 8 0xEA ++ [0xE0, 0x1F]

theorem calls_keep_fixed_state_selfWriting :
    let m := (fresh ({} : Unconnected)).after (.setRom selfWritingImage)
    let calls : List Call := [.step, .step, .runFor 4, .interrupt, .reset]
    let r := m.calls trace [] calls
    (∀ call ∈ calls, call.installs = false) ∧
      (.write 0x1FE0 0x00 ∈ r.2.2 ∧ .write 0x0200 0x00 ∈ r.2.2) ∧
      r.2.1.peek 0x1FE0 = 0x58 ∧ r.2.1.peek 0x0200 = 0xFF := by
  have h : ∀ call ∈ ([.step, .step, .runFor 4, .interrupt, .reset] : List Call),
      call.installs = false := by decide
  obtain ⟨hrom, hopen, -⟩ := calls_keep_fixed_state
    ((fresh ({} : Unconnected)).after (.setRom selfWritingImage)) h
  have hbyte :
      ((fresh ({} : Unconnected)).after (.setRom selfWritingImage)).peek 0x1FE0 = 0x58 := by
    decide +kernel
  refine ⟨h, by decide +kernel, ?_, (hopen 0x0200 ?_).1⟩
  · exact ((hrom 0x1FE0 (by decide)).1).trans hbyte
  · exact .inr (.inr (by decide))

end Machine

end M740
