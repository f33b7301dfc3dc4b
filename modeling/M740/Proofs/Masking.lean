import M740.Proofs.Debt
import M740.Proofs.Latches
import M740.Proofs.Reentry

/-!
# Masking

A hardware interrupt is entered only while interrupts are enabled, and entering it disables them.
No turn enables them but an instruction that is there for it, so between two entries of a run such
an instruction is performed (`Machine.entries_enabled_between`).
-/

namespace M740

open Program

namespace Turns

variable {σ ω : Type} [Device σ] {observe : ω → Event → ω} {s s' : Processor × Bus σ × ω}
  {turns : List (Processor × Turn)}

/-- From a processor with interrupts disabled, the first entry comes behind an instruction that can
enable them. -/
theorem enabled_of_masked (h : Turns observe s turns s') (hi : s.1.flags.i = true)
    (hp : ∀ x ∈ turns, x.2.Permitted x.1) {front rest : List Turn}
    (hsplit : turns.map Prod.snd = front ++ .entry :: rest) :
    ∃ opcode, .instruction opcode ∈ front ∧
      (Opcode.instruction opcode).operation.unmasks = true := by
  induction h generalizing front with
  | done =>
    rw [List.map_nil, List.nil_eq, List.append_eq_nil_iff] at hsplit
    cases hsplit.2
  | entry rest' ih =>
    have hi' := (hp _ List.mem_cons_self).2 rfl
    exact Bool.noConfusion (hi.symm.trans hi')
  | @instruction q bus seen turns s' rest' ih =>
    cases front with
    | nil => cases hsplit
    | cons x front =>
      obtain ⟨rfl, hrest⟩ := List.cons_eq_cons.1 hsplit
      cases hu : (Opcode.instruction (bus.read q.pc).1).operation.unmasks with
      | true => exact ⟨_, List.mem_cons_self, hu⟩
      | false =>
        have hmasked := Opcode.perform_masked (p := q) hu hi
        have hi' := Processor.performNext_run_ensures observe (Q := (·.flags.i = true)) hmasked seen
        obtain ⟨opcode, hm, hunmasks⟩ :=
          ih hi' (fun y hy => hp y (List.mem_cons_of_mem _ hy)) hrest
        exact ⟨opcode, List.mem_cons_of_mem _ hm, hunmasks⟩

/-- Between two entries there is an instruction that can enable interrupts. -/
theorem enabled_between (h : Turns observe s turns s') (hp : ∀ x ∈ turns, x.2.Permitted x.1)
    {front mid rest : List Turn}
    (hsplit : turns.map Prod.snd = front ++ .entry :: mid ++ .entry :: rest) :
    ∃ opcode, .instruction opcode ∈ mid ∧
      (Opcode.instruction opcode).operation.unmasks = true := by
  rw [List.append_assoc] at hsplit
  obtain ⟨xs, ys, rfl, -, hys⟩ := List.map_eq_append_iff.1 hsplit
  obtain ⟨⟨p, t⟩, behind, rfl, ht, hbehind⟩ := List.map_eq_cons_iff.1 hys
  obtain rfl : t = .entry := ht
  obtain ⟨_, -, hentered⟩ := h.split
  cases hentered with
  | @entry _ bus seen _ _ hmid =>
    have hi : (p.takeInterrupt.run observe bus seen).1.flags.i = true :=
      p.takeInterrupt_masked.run observe bus seen
    refine hmid.enabled_of_masked hi (fun x hx => hp x ?_) hbehind
    exact List.mem_append_right _ (List.mem_cons_of_mem _ hx)

end Turns

namespace Machine

variable {σ ω : Type} [Device σ] (observe : ω → Event → ω)

theorem call_interrupt_of_refused {m : Machine σ} {seen : ω}
    (h : (m.call observe seen .interrupt).1 = .taken false) :
    m.call observe seen .interrupt = (.taken false, m, seen) := by
  cases ha : m.core.processor.acceptsInterrupt with
  | true =>
    rw [call_interrupt_taken observe seen ha] at h
    cases h
  | false => exact call_interrupt_refused observe seen ha

/-- Whatever a driven machine runs, between two entries of a hardware interrupt that it reports it
performs an instruction that enables interrupts: CLI, PLP or RTI. None is entered while the
processor is stopped, and a request that is refused changes nothing. -/
theorem entries_enabled_between (m : Machine σ) {calls : List Call}
    (hc : ∀ call ∈ calls, call.takesTurns) :
    let r := m.calls trace [] calls
    (∀ front mid rest, Event.turns r.2.2 = front ++ .entry :: mid ++ .entry :: rest →
      ∃ opcode, .instruction opcode ∈ mid ∧
        (Opcode.instruction opcode).operation ∈
          [.implied (.flag .cli), .implied (.stack .plp), .implied .rti]) ∧
    (∃ turns : List (Processor × Turn),
      Turns trace (m.core.processor, m.bus, []) turns
        (r.2.1.core.processor, r.2.1.bus, r.2.2) ∧
      turns.map Prod.snd = Event.turns r.2.2 ∧
      ∀ p, (p, .entry) ∈ turns → p.stopped = false) ∧
    ∀ front rest, calls = front ++ .interrupt :: rest →
      let m' := (m.calls trace [] front).2
      (m'.1.call trace m'.2 .interrupt).1 = .taken false →
        m'.1.call trace m'.2 .interrupt = (.taken false, m') := by
  intro r
  obtain ⟨turns, hp, h⟩ := m.calls_turns trace [] hc
  have hreported : turns.map Prod.snd = Event.turns r.2.2 := h.reported.symm
  refine ⟨?_, ⟨turns, h, hreported, fun p hm => (hp _ hm).1⟩, ?_⟩
  · intro front mid rest hsplit
    obtain ⟨opcode, hm, hu⟩ := h.enabled_between hp (hreported.trans hsplit)
    exact ⟨opcode, hm, Operation.mem_of_unmasks hu⟩
  · intro front rest _ m' hrefused
    exact call_interrupt_of_refused trace hrefused

/-- At the beginning of a handler that enables interrupts. -/
def reentrant : Machine Unconnected := (fresh {}).after (.setRom reentrantImage)

/-- The handler enables interrupts before it is entered again; the request in between is refused. -/
theorem entries_enabled_between_reentrant :
    let calls : List Call := [.step, .interrupt, .interrupt, .step, .interrupt]
    let r := reentrant.calls trace [] calls
    let entered := (reentrant.calls trace [] [.step, .interrupt]).2
    (∀ call ∈ calls, call.takesTurns) ∧
      r.1 = [.units 2, .taken true, .taken false, .units 2, .taken true] ∧
      Event.turns r.2.2 = [.instruction 0x58, .entry, .instruction 0x58, .entry] ∧
      (∃ opcode, .instruction opcode ∈ [Turn.instruction 0x58] ∧
        (Opcode.instruction opcode).operation ∈
          [.implied (.flag .cli), .implied (.stack .plp), .implied .rti]) ∧
      entered.1.call trace entered.2 .interrupt = (.taken false, entered) := by
  intro calls r entered
  have hc : ∀ call ∈ calls, call.takesTurns := by decide
  -- the calls are named as the theorem names them, or they would be run to compare the two
  dsimp only [r]
  obtain ⟨hanswers, hturns⟩ :
      (reentrant.calls trace [] calls).1 =
          [.units 2, .taken true, .taken false, .units 2, .taken true] ∧
        Event.turns (reentrant.calls trace [] calls).2.2 =
          [.instruction 0x58, .entry, .instruction 0x58, .entry] := by
    decide +kernel
  have hfalse : (entered.1.call trace entered.2 .interrupt).1 = .taken false := by decide +kernel
  obtain ⟨hbetween, -, hrefused⟩ := entries_enabled_between reentrant hc
  have henabled := hbetween [.instruction 0x58] [.instruction 0x58] [] hturns
  have hagain := hrefused [.step, .interrupt] [.step, .interrupt] rfl hfalse
  exact ⟨hc, hanswers, hturns, henabled, hagain⟩

end Machine

end M740
