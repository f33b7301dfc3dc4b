import M740.Proofs.Reachable
import M740.Proofs.Rom

/-!
# What calls do

What a turn of a run, a single step, an interrupt and the installation of a ROM come to when they
run against the bus of a machine.
-/

namespace M740

open Program

namespace Processor

variable {σ ω : Type} [Device σ] (observe : ω → Event → ω)

theorem acceptsInterrupt_iff {p : Processor} :
    p.acceptsInterrupt = true ↔ p.flags.i = false ∧ p.stopped = false := by
  simp only [acceptsInterrupt, Bool.and_eq_true, Bool.not_eq_true']

theorem turn_run_interrupt {p : Processor} {bus : Bus σ} (seen : ω)
    (hl : Device.requestsInterrupt bus.devices = true) (ha : p.acceptsInterrupt = true) :
    let r := p.takeInterrupt.run observe bus seen
    p.turn.run observe bus seen = ((r.1, .interrupt), r.2) := by
  simp only [turn, interruptLine, poll_bind, done_bind, run, hl, ha, Bool.and_self, if_true,
    run_bind, pure_eq]

theorem turn_run_performNext (p : Processor) (bus : Bus σ) (seen : ω)
    (h : (Device.requestsInterrupt bus.devices && p.acceptsInterrupt) = false) :
    p.turn.run observe bus seen = p.performNext.run observe bus seen := by
  simp only [turn, interruptLine, poll_bind, done_bind, run, h, Bool.false_eq_true, if_false]

theorem takeInterrupt_run (p : Processor) (bus : Bus σ) (seen : ω) :
    let r := p.takeInterrupt.run observe bus seen
    r.1.pc = Address.ofWord (Word.ofBytes bus.rom[0xFF4] bus.rom[0xFF5]) ∧
      r.1.stopped = p.stopped := by
  have hlo : interruptVector.place = .rom ⟨0xFF4, by decide⟩ := by decide
  have hhi : (interruptVector + 1).place = .rom ⟨0xFF5, by decide⟩ := by decide
  simp only [takeInterrupt, enterHandler, pushWord, push, fetchWord, store, fetch, report,
    write_bind, read_bind, done_bind, note_bind, pure_eq, run, Bus.read_of_rom _ hlo,
    Bus.read_of_rom _ hhi, Bus.write_rom]
  exact ⟨rfl, trivial⟩

end Processor

namespace Machine

variable {σ ω : Type} [Device σ]

section
variable (observe : ω → Event → ω)

/-- Single steps perform the next instruction and count its charge. -/
theorem call_step {m : Machine σ} (seen : ω) (hs : m.core.processor.stopped = false) :
    let r := m.core.processor.performNext.run observe m.bus seen
    m.call observe seen .step =
      (.units r.1.2.units,
        { core := { processor := r.1.1, clock := m.core.clock.count r.1.2 }, bus := r.2.1 },
        r.2.2) := by
  simp [call, Core.answer, Core.step, hs, run_bind, run, Bus.prepare]

theorem call_interrupt_taken {m : Machine σ} (seen : ω)
    (ha : m.core.processor.acceptsInterrupt = true) :
    let r := m.core.processor.takeInterrupt.run observe m.bus seen
    m.call observe seen .interrupt =
      (.taken true,
        { core := { processor := r.1, clock := m.core.clock.charge .interrupt }, bus := r.2.1 },
        r.2.2) := by
  simp [call, Core.answer, Core.interrupt, ha, run_bind, run, Bus.prepare]

theorem call_interrupt_refused {m : Machine σ} (seen : ω)
    (ha : m.core.processor.acceptsInterrupt = false) :
    m.call observe seen .interrupt = (.taken false, m, seen) := by
  simp [call, Core.answer, Core.interrupt, ha, run, Bus.prepare]

end

theorem after_interrupt {m : Machine σ} (ha : m.core.processor.acceptsInterrupt = true) :
    (m.after .interrupt).core.processor.pc =
        Address.ofWord (Word.ofBytes m.bus.rom[0xFF4] m.bus.rom[0xFF5]) ∧
      (m.after .interrupt).core.processor.stopped = false ∧
      (m.after .interrupt).bus.rom = m.bus.rom ∧
      (m.after .interrupt).core.clock.budget = m.core.clock.budget - Timing.interruptCost := by
  obtain ⟨hpc, hstopped⟩ :=
    Processor.takeInterrupt_run (fun seen _ => seen) m.core.processor m.bus ()
  have hs := (Processor.acceptsInterrupt_iff.1 ha).2
  simp only [after, call_interrupt_taken _ _ ha]
  exact ⟨hpc, hstopped.trans hs, run_rom _ _ _ _, rfl⟩

theorem after_setRom (m : Machine σ) (image : List Byte) :
    let rom := (m.bus.install image).rom
    (m.after (.setRom image)).core.processor.pc =
        Address.ofWord (Word.ofBytes rom[0xFFE] rom[0xFFF]) ∧
      (m.after (.setRom image)).core.processor.stopped = false ∧
      (m.after (.setRom image)).bus = m.bus.install image ∧
      (m.after (.setRom image)).core.clock = m.core.clock := by
  have hlo : resetVector.place = .rom ⟨0xFFE, by decide⟩ := by decide
  have hhi : (resetVector + 1).place = .rom ⟨0xFFF, by decide⟩ := by decide
  by_cases ht : installedSize image < image.length <;>
    simp only [after, call, Core.answer, Core.startRom, Core.reset, Processor.reset, fetchWord,
      fetch, report, ht, if_true, if_false, note_bind, read_bind, done_bind, pure_eq, run,
      Bus.prepare, Bus.read_of_rom _ hlo, Bus.read_of_rom _ hhi, and_true]
  · rfl
  · rfl

end Machine

end M740
