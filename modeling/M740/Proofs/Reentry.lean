import M740.Proofs.Calls

/-!
# Reentry

A handler that begins by enabling interrupts can be entered again after its first instruction. A
host that makes this instruction a single step pays for the entries only, and never gets to the
end of the handler: with every round the debt grows by the cost of an interrupt, beyond any bound
(`Machine.Reentrant.afterAll_rounds`).
-/

namespace M740

open Program

/-- The handler in a ROM begins with the instruction that enables interrupts. -/
structure ReentrantRom (rom : Vector Byte romSize) (handler : Address) : Prop where
  enables : ∃ cell, handler.place = .rom cell ∧ rom.get cell = 0x58
  vector : Address.ofWord (Word.ofBytes rom[0xFF4] rom[0xFF5]) = handler

namespace Opcode

theorem plan_cli : plan 0x58 = .implied (.flag .cli) := by decide +kernel

theorem perform_cli (p : Processor) :
    perform 0x58 p = .done
      { processor := { p.advance 1 with flags := { p.flags with i := false } } } := by
  have hsize : (instruction 0x58).size = 1 := by decide +kernel
  rw [perform, plan_cli, hsize]
  rfl

end Opcode

namespace Processor

variable {σ ω : Type} [Device σ] (observe : ω → Event → ω)

theorem performNext_cli {p : Processor} {bus : Bus σ} (seen : ω)
    (h : ReentrantRom bus.rom p.pc) :
    let r := p.performNext.run observe bus seen
    r.1.1 = { p.advance 1 with flags := { p.flags with i := false } } ∧ r.2.1 = bus := by
  obtain ⟨cell, hplace, hcell⟩ := h.enables
  simp only [performNext, fetch, report, read_bind, done_bind, note_bind, run,
    bus.read_of_rom hplace, hcell, Opcode.perform_cli]
  exact ⟨rfl, rfl⟩

end Processor

namespace Machine

variable {σ : Type} [Device σ]

/-- The machine is at the beginning of a handler that enables interrupts. -/
structure Reentrant (m : Machine σ) : Prop where
  running : m.core.processor.stopped = false
  rom : ReentrantRom m.bus.rom m.core.processor.pc

theorem Reentrant.after_step {m : Machine σ} (h : m.Reentrant) :
    (m.after .step).core.processor.acceptsInterrupt = true ∧
      (m.after .step).bus = m.bus ∧
      (m.after .step).core.clock.budget = m.core.clock.budget := by
  obtain ⟨hp, hb⟩ := Processor.performNext_cli (fun seen _ => seen) () h.rom
  have hs := h.running
  simp only [after, call_step _ _ hs, hp, hb, Processor.acceptsInterrupt, Processor.advance, hs]
  exact ⟨rfl, trivial, rfl⟩

/-- A step that enables interrupts, and an interrupt. -/
def round : List Call := [.step, .interrupt]

theorem Reentrant.afterAll_round {m : Machine σ} (h : m.Reentrant) :
    (m.afterAll round).Reentrant ∧
      (m.afterAll round).core.clock.budget = m.core.clock.budget - Timing.interruptCost := by
  obtain ⟨ha, hbus, hbudget⟩ := h.after_step
  obtain ⟨hpc, hs, hrom, hcharge⟩ := after_interrupt ha
  rw [hbus] at hpc hrom
  have hstart : (m.afterAll round).core.processor.pc = m.core.processor.pc :=
    hpc.trans h.rom.vector
  refine ⟨⟨hs, ?_⟩, hbudget ▸ hcharge⟩
  rw [hstart]
  exact hrom ▸ h.rom

/-- Every round adds the cost of an interrupt to the debt. -/
theorem Reentrant.afterAll_rounds {m : Machine σ} (h : m.Reentrant) (n : Nat) :
    (m.afterAll (List.replicate n round).flatten).core.clock.budget =
      m.core.clock.budget - n * Timing.interruptCost := by
  induction n generalizing m with
  | zero => simp [afterAll]
  | succ n ih =>
    obtain ⟨hr, hb⟩ := h.afterAll_round
    have hsplit : m.afterAll (List.replicate (n + 1) round).flatten =
        (m.afterAll round).afterAll (List.replicate n round).flatten := by
      simp only [afterAll, List.replicate_succ, List.flatten_cons, List.foldl_append]
    rw [hsplit, ih hr, hb, Timing.interruptCost]
    omega

/-- A handler that only enables interrupts, with both vectors leading to it. -/
def reentrantImage : List Byte := [0x58, 0xF3, 0x1F, 0, 0, 0, 0, 0, 0, 0, 0, 0xF3, 0x1F]

theorem reentrant_setRom (m : Machine σ) : (m.after (.setRom reentrantImage)).Reentrant := by
  obtain ⟨hpc, hs, hbus, -⟩ := m.after_setRom reentrantImage
  have installed {k : Nat} (hk : k < reentrantImage.length) :=
    m.bus.install_rom (by decide) hk
  have hentry : (m.bus.install reentrantImage).rom[0xFF3] = 0x58 := installed (by decide : 0 < 13)
  have hlow : (m.bus.install reentrantImage).rom[0xFF4] = 0xF3 := installed (by decide : 1 < 13)
  have hhigh : (m.bus.install reentrantImage).rom[0xFF5] = 0x1F := installed (by decide : 2 < 13)
  have hstart : (m.bus.install reentrantImage).rom[0xFFE] = 0xF3 := installed (by decide : 11 < 13)
  have hpage : (m.bus.install reentrantImage).rom[0xFFF] = 0x1F := installed (by decide : 12 < 13)
  rw [hstart, hpage] at hpc
  refine ⟨hs, ?_⟩
  rw [hbus, hpc]
  refine ⟨⟨⟨0xFF3, by decide⟩, by decide, hentry⟩, ?_⟩
  rw [hlow, hhigh]

end Machine

end M740
