import M740.Proofs.StackList
import M740.Proofs.Unindexed

/-!
# Handlers

A handler is entered by a hardware interrupt or by a software break, and left by RTI. An entry puts
the return address and the status on the stack, and RTI takes from there all that the entry has
changed. So it returns from whatever the handler did, as long as those three bytes are still there
(`Machine.entry_return`).
-/

namespace M740

open Program

namespace Processor

variable {σ ω : Type} [Device σ] {p : Processor}

/-- RTI takes the flags and the return address from the stack. -/
theorem rti_run (observe : ω → Event → ω) {bus : Bus σ} {status : Byte} {returns : Address}
    {rest : List Byte} (h : bus.Holds p.s
      (status :: Word.low (Address.toWord returns) :: Word.high (Address.toWord returns) :: rest))
    (seen : ω) :
    let r := (Implied.perform .rti p).run observe bus seen
    r.1 = { p with s := p.s + 1 + 1 + 1, pc := returns, flags := Flags.unpack status } ∧
      r.2.1 = bus := by
  obtain ⟨hstatus, hlo, hhi, -⟩ := h
  simp only [Implied.perform, pullFlags, pullWord, pull, fetch, read_bind, done_bind, pure_eq, run,
    Bus.read_of_ram hstatus, Bus.read_of_ram hlo, Bus.read_of_ram hhi, Word.ofBytes_low_high,
    Address.ofWord_toWord]
  exact ⟨trivial, trivial⟩

/-- The bytes that an entry leaves on the stack, if it finds room for them. -/
theorem enterHandler_stacked (h : 2 ≤ p.s.toNat) (hram : p.s.toNat < ramSize) (bus : Bus σ)
    (marker : Byte) :
    let after := (p.enterHandler marker).run trace bus []
    let ram := after.2.1.ram
    after.1 = { p with
      s := p.s - 3
      pc := Address.ofWord (Word.ofBytes (bus.peek 0x1FF4) (bus.peek 0x1FF5))
      flags := { p.flags with i := true } } ∧
    ram[p.s.toNat]? = some (Word.high (Address.toWord p.pc)) ∧
    ram[p.s.toNat - 1]? = some (Word.low (Address.toWord p.pc)) ∧
    ram[p.s.toNat - 2]? = some (p.status ||| marker) ∧
    ∀ cell, cell < p.s.toNat - 2 ∨ p.s.toNat < cell → ram[cell]? = bus.ram[cell]? := by
  have hone : (p.s - 1).toNat = p.s.toNat - 1 := Bus.toNat_sub_one_of_pos (by omega)
  have htwo : (p.s - 1 - 1).toNat = p.s.toNat - 2 := by
    rw [Bus.toNat_sub_one_of_pos (by omega), hone]
    omega
  have hthree : ∀ s : Byte, s - 1 - 1 - 1 = s - 3 := by decide +kernel
  have hlo : bus.peek 0x1FF4 = bus.rom[0xFF4] := rfl
  have hhi : bus.peek 0x1FF5 = bus.rom[0xFF5] := rfl
  have hrun := p.enterHandler_trace marker bus
  dsimp only at hrun ⊢
  rw [hrun]
  simp only [Bus.write_ram, Address.toNat_zeroPage, hone, htwo, hthree, hlo, hhi]
  refine ⟨trivial, ?_, ?_, ?_, fun cell hcell => ?_⟩
  · rw [if_neg (by omega), if_neg (by omega), if_pos ⟨trivial, hram⟩]
  · rw [if_neg (by omega), if_pos ⟨trivial, by omega⟩]
  · rw [if_pos ⟨trivial, by omega⟩]
  · rw [if_neg (by omega), if_neg (by omega), if_neg (by omega)]

end Processor

namespace Machine

variable {σ : Type} [Device σ]

/-- The ways into the handler: the call that enters it, the address that is saved, and the marker of
the saved status. -/
inductive Enters (m : Machine σ) : Call → Address → Byte → Prop
  | hardware (h : m.core.processor.flags.i = false) : m.Enters .interrupt m.core.processor.pc 0
  | software (h : m.instruction.operation = .implied .brk) :
    m.Enters .step (m.core.processor.pc + 2) breakMarker

/-- `m'` is at the beginning of the handler. The return address and the status before the entry are
on the stack, and no other RAM has changed. -/
structure Entered (m m' : Machine σ) (returns : Address) (marker : Byte) : Prop where
  processor : m'.core.processor = { m.core.processor with
    s := m.core.processor.s - 3
    pc := Address.ofWord (Word.ofBytes (m.peek 0x1FF4) (m.peek 0x1FF5))
    flags := { m.core.processor.flags with i := true } }
  high : m'.bus.ram[m.core.processor.s.toNat]? = some (Word.high (Address.toWord returns))
  low : m'.bus.ram[m.core.processor.s.toNat - 1]? = some (Word.low (Address.toWord returns))
  status : m'.bus.ram[m.core.processor.s.toNat - 2]? = some (m.core.processor.status ||| marker)
  marked : (m.core.processor.status ||| marker) &&& breakMarker = marker
  others : ∀ cell, cell < m.core.processor.s.toNat - 2 ∨ m.core.processor.s.toNat < cell →
    m'.bus.ram[cell]? = m.bus.ram[cell]?

theorem call_interrupt_taken_iff {m : Machine σ} (hs : m.core.processor.stopped = false) :
    (m.call trace [] .interrupt).1 = .taken true ↔ m.core.processor.flags.i = false := by
  cases ha : m.core.processor.acceptsInterrupt with
  | true =>
    rw [call_interrupt_taken trace [] ha]
    exact iff_of_true rfl (Processor.acceptsInterrupt_iff.1 ha).1
  | false =>
    rw [call_interrupt_refused trace [] ha]
    refine iff_of_false (fun h => by cases h) fun hi => ?_
    rw [Processor.acceptsInterrupt_iff.2 ⟨hi, hs⟩] at ha
    cases ha

/-- The marker of a saved status is the only bit that is not a flag. -/
theorem Enters.marker_cases {m : Machine σ} {call : Call} {returns : Address} {marker : Byte}
    (h : m.Enters call returns marker) : marker = 0 ∨ marker = breakMarker := by
  cases h with
  | hardware => exact .inl rfl
  | software => exact .inr rfl

theorem status_marked (f : Flags) {marker : Byte} (h : marker = 0 ∨ marker = breakMarker) :
    (f.pack ||| marker) &&& breakMarker = marker ∧ Flags.unpack (f.pack ||| marker) = f := by
  obtain ⟨n, v, t, d, i, z, c⟩ := f
  rcases h with rfl | rfl <;> revert n v t d i z c <;> decide

section
variable {m : Machine σ} (hs : m.core.processor.stopped = false)
  (hlow : 2 ≤ m.core.processor.s.toNat) (hhigh : m.core.processor.s.toNat < ramSize)
include hs hlow hhigh

theorem Enters.entered {call : Call} {returns : Address} {marker : Byte}
    (h : m.Enters call returns marker) : m.Entered (m.after call) returns marker := by
  have hmarked := (status_marked m.core.processor.flags h.marker_cases).1
  rw [← m.call_machine trace []]
  cases h with
  | hardware hi =>
    obtain ⟨hprocessor, hh, hl, hstatus, hothers⟩ :=
      Processor.enterHandler_stacked hlow hhigh m.bus 0
    rw [call_interrupt_taken trace [] (Processor.acceptsInterrupt_iff.2 ⟨hi, hs⟩),
      Processor.takeInterrupt, run_bind]
    exact ⟨hprocessor, hh, hl, hstatus, hmarked, hothers⟩
  | software hop =>
    let p := (m.core.processor.advance 1).advance 1
    let bus := (m.bus.read m.core.processor.pc).2
    have hpc : p.pc = m.core.processor.pc + 2 := BitVec.add_assoc ..
    obtain ⟨hprocessor, hh, hl, hstatus, hothers⟩ :=
      Processor.enterHandler_stacked (p := p) hlow hhigh bus breakMarker
    obtain ⟨hafter, hbus⟩ := step_implied hs hop
    rw [hpc] at hh hl
    simp only [bus, Bus.peek_read, Bus.read_ram] at hprocessor hothers
    rw [m.call_machine]
    refine ⟨?_, ?_, ?_, ?_, hmarked, ?_⟩
    · exact hafter.trans hprocessor
    · rw [hbus]; exact hh
    · rw [hbus]; exact hl
    · rw [hbus]; exact hstatus
    · rw [hbus]; exact hothers

end

theorem pointer_of_entry :
    ∀ s : Byte, s - 3 + 1 = s - 1 - 1 ∧ s - 3 + 1 + 1 = s - 1 ∧ s - 3 + 1 + 1 + 1 = s := by
  decide +kernel

omit [Device σ] in
/-- The bytes on the stack, from the one that a pull finds first. -/
theorem Entered.holds {m m' : Machine σ} {returns : Address} {marker : Byte}
    (h : m.Entered m' returns marker) (hlow : 2 ≤ m.core.processor.s.toNat) :
    m'.bus.Holds (m.core.processor.s - 3) [m.core.processor.status ||| marker,
      Word.low (Address.toWord returns), Word.high (Address.toWord returns)] := by
  obtain ⟨hstatus, hl, hh⟩ := pointer_of_entry m.core.processor.s
  have hone := Bus.toNat_sub_one_of_pos (s := m.core.processor.s) (by omega)
  have htwo := Bus.toNat_sub_one_of_pos (s := m.core.processor.s - 1) (by omega)
  refine ⟨?_, ?_, ?_, trivial⟩
  · rw [hstatus, htwo, hone]
    exact h.status
  · rw [hl, hone]
    exact h.low
  · rw [hh]
    exact h.high

/-- RTI restores what the entry changed, if it finds the three bytes. -/
theorem Enters.rti {m m' : Machine σ} {call : Call} {returns : Address} {marker : Byte}
    (h : m.Enters call returns marker)
    (hs : m'.core.processor.stopped = false)
    (hop : m'.instruction.operation = .implied .rti)
    (hheld : m'.bus.Holds m'.core.processor.s [m.core.processor.status ||| marker,
      Word.low (Address.toWord returns), Word.high (Address.toWord returns)]) :
    (m'.after .step).core.processor = { m'.core.processor with
        s := m'.core.processor.s + 1 + 1 + 1
        pc := returns
        flags := m.core.processor.flags } ∧
      (m'.after .step).bus.ram = m'.bus.ram := by
  obtain ⟨hprocessor, hbus⟩ := step_implied hs hop
  have hflags := (status_marked m.core.processor.flags h.marker_cases).2
  have hfetched := hheld.of_ram (m'.bus.read_ram m'.core.processor.pc)
  obtain ⟨hreturned, hkept⟩ :=
    Processor.rti_run (p := m'.core.processor.advance 1) trace hfetched []
  rw [hprocessor, hbus, hreturned, hkept, Bus.read_ram]
  refine ⟨?_, rfl⟩
  rw [Processor.status, hflags]
  rfl

/-- RTI is the inverse of an entry, through any handler. -/
theorem entry_return {m : Machine σ} (hs : m.core.processor.stopped = false)
    (hlow : 2 ≤ m.core.processor.s.toNat) (hhigh : m.core.processor.s.toNat ≤ 0x5F) :
    ((m.call trace [] .interrupt).1 = .taken true ↔ m.core.processor.flags.i = false) ∧
    ∀ {call : Call} {returns : Address} {marker : Byte}, m.Enters call returns marker →
      m.Entered (m.after call) returns marker ∧
      ∀ m' : Machine σ, m'.core.processor.stopped = false →
        m'.core.processor.s = m.core.processor.s - 3 →
        (m.after call).bus.SameCells m'.bus (m.core.processor.s.toNat - 2)
          m.core.processor.s.toNat →
        m'.instruction.operation = .implied .rti →
        (m'.after .step).core.processor = { m'.core.processor with
            s := m.core.processor.s
            pc := returns
            flags := m.core.processor.flags } ∧
          (m'.after .step).bus.ram = m'.bus.ram := by
  refine ⟨call_interrupt_taken_iff hs, fun {call returns marker} h => ?_⟩
  have hentered := h.entered hs hlow (Nat.lt_succ_of_le hhigh)
  refine ⟨hentered, fun m' hs' hpointer hcells hop => ?_⟩
  obtain ⟨hstatus, -, hrestored⟩ := pointer_of_entry m.core.processor.s
  have hfirst : (m.core.processor.s - 3 + 1).toNat = m.core.processor.s.toNat - 2 := by
    have hone := Bus.toNat_sub_one_of_pos (s := m.core.processor.s) (by omega)
    rw [hstatus, Bus.toNat_sub_one_of_pos (by omega), hone]
    omega
  have hheld : m'.bus.Holds (m.core.processor.s - 3) _ :=
    (hentered.holds hlow).congr fun cell hle hlt => by
      rw [hfirst] at hle hlt
      simp only [List.length_cons, List.length_nil] at hlt
      exact hcells cell hle (by omega)
  rw [← hpointer] at hheld hrestored
  have hreturned := h.rti hs' hop hheld
  rwa [hrestored] at hreturned

/-- At a break in the last byte of an empty ROM, with index mode and carry set, and room for three
bytes. -/
def breaking : Machine Unconnected :=
  (fresh {}).afterAll [.set (.pc 0x1FFF), .set (.stackPointer 2), .set (.status 0x25)]

/-- At a return, when the handler has used A, the flags and other RAM. -/
def handled : Machine Unconnected :=
  (breaking.after .step).afterAll
    [.write 0x10 0x40, .set (.pc 0x10), .set (.register .a 7), .set (.status 0x80)]

/-- The return address is behind the skipped byte, at the beginning of the address space. -/
theorem entry_return_breaking :
    (breaking.core.processor.stopped = false ∧ breaking.core.processor.s = 2) ∧
      breaking.Enters .step 0x0001 breakMarker ∧
      (breaking.after .step).core.processor.s = 0xFF ∧
      (breaking.after .step).bus.ram[0]? = some 0x35 ∧
      (handled.after .step).core.processor =
        { a := 7, s := 2, pc := 0x0001, flags := Flags.unpack 0x25 } := by
  obtain ⟨⟨hs, hpointer, hflags, hop, hpc⟩, hop', hprocessor, hcells⟩ :
      (breaking.core.processor.stopped = false ∧ breaking.core.processor.s = 2 ∧
        breaking.core.processor.flags = Flags.unpack 0x25 ∧
        breaking.instruction.operation = .implied .brk ∧
        breaking.core.processor.pc + 2 = 0x0001) ∧
      handled.instruction.operation = .implied .rti ∧
      handled.core.processor = { a := 7, s := 0xFF, pc := 0x10, flags := { n := true } } ∧
      ∀ cell ≤ 2, handled.bus.ram[cell]? = (breaking.after .step).bus.ram[cell]? := by
    decide +kernel
  have henters : breaking.Enters .step 0x0001 breakMarker := hpc ▸ .software hop
  obtain ⟨-, hreturn⟩ := entry_return hs (by rw [hpointer]; decide) (by rw [hpointer]; decide)
  obtain ⟨hentered, hrestored⟩ := hreturn henters
  rw [hpointer] at hrestored
  have hhandled := hrestored handled (by rw [hprocessor]) (by rw [hprocessor]; rfl)
    (fun cell _ hle => hcells cell hle) hop'
  refine ⟨⟨hs, hpointer⟩, henters, ?_, ?_, ?_⟩
  · rw [hentered.processor, hpointer]
    rfl
  · have hpushed := hentered.status
    rw [hpointer, Processor.status, hflags] at hpushed
    exact hpushed
  · rw [hhandled.1, hprocessor, hflags]

end Machine

end M740
