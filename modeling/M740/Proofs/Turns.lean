import M740.Proofs.Calls
import M740.Proofs.Slicing
import M740.Proofs.Transcript

/-!
# Turns

What a driven processor does is a sequence of turns: it enters a hardware interrupt, or it performs
an instruction. `Turns observe s turns s'` says that the turns lead from the processor, the bus and
what an observer has seen in `s` to those in `s'`. Runs, single steps and interrupts are made of
turns and of nothing else, and only a running processor takes one (`Machine.calls_turns`).
-/

namespace M740

open Program

/-- What the processor does in one turn. -/
inductive Turn where
  /-- Enters a hardware interrupt. -/
  | entry
  | instruction (opcode : Byte)
  deriving DecidableEq, Repr

/-- Whether a processor may take the turn. -/
def Turn.Permitted (t : Turn) (p : Processor) : Prop :=
  p.stopped = false ∧ (t = .entry → p.flags.i = false)

section
variable {σ ω : Type} [Device σ] (observe : ω → Event → ω)

/-- Turns taken one after the other, each listed with the processor that takes it. -/
inductive Turns :
    Processor × Bus σ × ω → List (Processor × Turn) → Processor × Bus σ × ω → Prop where
  | done (s : Processor × Bus σ × ω) : Turns s [] s
  | entry {p : Processor} {bus : Bus σ} {seen : ω} {turns : List (Processor × Turn)}
      {s : Processor × Bus σ × ω} (rest : Turns (p.takeInterrupt.run observe bus seen) turns s) :
      Turns (p, bus, seen) ((p, .entry) :: turns) s
  | instruction {p : Processor} {bus : Bus σ} {seen : ω} {turns : List (Processor × Turn)}
      {s : Processor × Bus σ × ω}
      (rest : Turns ((p.performNext.run observe bus seen).1.1,
        (p.performNext.run observe bus seen).2) turns s) :
      Turns (p, bus, seen) ((p, .instruction (bus.read p.pc).1) :: turns) s

namespace Turns

variable {observe} {s s' s'' : Processor × Bus σ × ω} {xs ys : List (Processor × Turn)}

theorem append (h : Turns observe s xs s') (h' : Turns observe s' ys s'') :
    Turns observe s (xs ++ ys) s'' := by
  induction h with
  | done => exact h'
  | entry _ ih => exact .entry (ih h')
  | instruction _ ih => exact .instruction (ih h')

theorem split (h : Turns observe s (xs ++ ys) s'') :
    ∃ s', Turns observe s xs s' ∧ Turns observe s' ys s'' := by
  induction xs generalizing s with
  | nil => exact ⟨s, .done s, h⟩
  | cons x xs ih =>
    cases h with
    | entry rest =>
      obtain ⟨s', hxs, hys⟩ := ih rest
      exact ⟨s', .entry hxs, hys⟩
    | instruction rest =>
      obtain ⟨s', hxs, hys⟩ := ih rest
      exact ⟨s', .instruction hxs, hys⟩

end Turns

/-- What an opcode ensures holds after the instruction at the program counter. -/
theorem Processor.performNext_run_ensures {p : Processor} {bus : Bus σ} {Q : Processor → Prop}
    (h : (Opcode.perform (bus.read p.pc).1 p).Ensures fun o => Q o.processor) (seen : ω) :
    Q (p.performNext.run observe bus seen).1.1 := by
  simp only [performNext, fetch, report, read_bind, note_bind, done_bind, run, run_bind, pure_eq]
  exact h.run _ _ _

/-! ### Traces -/

namespace Event

/-- The turn that a note reports. -/
def turn? : Event → Option Turn
  | .note (.fetch _ opcode) => some (.instruction opcode)
  | .note (.interrupt _) => some .entry
  | _ => none

/-- The turns that are reported, in order. -/
def turns (events : List Event) : List Turn := events.filterMap turn?

theorem mem_turns_instruction {events : List Event} {opcode : Byte} :
    .instruction opcode ∈ turns events ↔ ∃ p, .note (.fetch p opcode) ∈ events := by
  rw [turns, List.mem_filterMap]
  constructor
  · rintro ⟨e, he, hturn⟩
    unfold turn? at hturn
    split at hturn
    · cases hturn
      exact ⟨_, he⟩
    · cases hturn
    · cases hturn
  · rintro ⟨p, hp⟩
    exact ⟨_, hp, rfl⟩

theorem turns_append (xs ys : List Event) : turns (xs ++ ys) = turns xs ++ turns ys :=
  List.filterMap_append

end Event

theorem Opcode.perform_turns (opcode : Byte) (p : Processor) (bus : Bus σ) :
    Event.turns ((perform opcode p).run trace bus []).2.2 = [] := by
  have h := (perform_reports opcode p).shows.run bus
  refine List.filterMap_eq_nil_iff.2 fun e he => ?_
  cases e with
  | read | write => rfl
  | note n =>
    have hremark := h n he
    cases n with
    | fetch | interrupt => cases hremark
    | _ => rfl

theorem Processor.takeInterrupt_turns (p : Processor) (bus : Bus σ) :
    Event.turns (p.takeInterrupt.run trace bus []).2.2 = [.entry] := by
  have h : p.takeInterrupt.Shows fun events _ => Event.turns events = [.entry] :=
    fun _ _ => rfl
  exact h.run bus

theorem Processor.performNext_turns (p : Processor) (bus : Bus σ) :
    Event.turns (p.performNext.run trace bus []).2.2 = [.instruction (bus.read p.pc).1] := by
  rw [performNext_trace]
  exact congrArg (_ :: ·) (Opcode.perform_turns _ p _)

/-- The turns that are reported are those taken. -/
theorem Turns.reported {s s' : Processor × Bus σ × List Event} {turns : List (Processor × Turn)}
    (h : Turns trace s turns s') :
    Event.turns s'.2.2 = Event.turns s.2.2 ++ turns.map Prod.snd := by
  induction h with
  | done => simp
  | @entry p bus seen turns s' rest ih =>
    have hentered : p.takeInterrupt.run trace bus seen = _ := run_trace _ _ _
    simp only [ih, hentered, Event.turns_append, p.takeInterrupt_turns bus, List.map_cons,
      List.append_assoc, List.singleton_append]
  | @instruction p bus seen turns s' rest ih =>
    have hnext : p.performNext.run trace bus seen = _ := run_trace _ _ _
    simp only [ih, hnext, Event.turns_append, p.performNext_turns bus, List.map_cons,
      List.append_assoc, List.singleton_append]

/-! ### Calls -/

/-- A turn of a clocked run. -/
theorem Processor.turn_turns {p : Processor} (hs : p.stopped = false) (bus : Bus σ) (seen : ω) :
    ∃ t : Turn, t.Permitted p ∧
      Turns observe (p, bus, seen) [(p, t)]
        ((p.turn.run observe bus seen).1.1, (p.turn.run observe bus seen).2) := by
  cases ht : Device.requestsInterrupt bus.devices && p.acceptsInterrupt with
  | true =>
    obtain ⟨hl, ha⟩ := Bool.and_eq_true_iff.1 ht
    refine ⟨.entry, ⟨hs, fun _ => (acceptsInterrupt_iff.1 ha).1⟩, ?_⟩
    rw [turn_run_interrupt observe seen hl ha]
    exact .entry (.done _)
  | false =>
    refine ⟨.instruction (bus.read p.pc).1, ⟨hs, fun h => by cases h⟩, ?_⟩
    rw [turn_run_performNext observe p bus seen ht]
    exact .instruction (.done _)

theorem Core.spend_turns (c : Core) (bus : Bus σ) (seen : ω) :
    ∃ turns : List (Processor × Turn), (∀ x ∈ turns, x.2.Permitted x.1) ∧
      Turns observe (c.processor, bus, seen) turns
        ((c.spend.run observe bus seen).1.processor, (c.spend.run observe bus seen).2) := by
  induction c using Core.spend.induct generalizing bus seen with
  | case1 c hb ih =>
    obtain ⟨t, ht, hturn⟩ := Processor.turn_turns observe hb.2 bus seen
    obtain ⟨turns, hpermitted, hturns⟩ := ih _ (c.processor.turn.run observe bus seen).1.2
      (c.processor.turn.run observe bus seen).2.1 (c.processor.turn.run observe bus seen).2.2
    refine ⟨(c.processor, t) :: turns, List.forall_mem_cons.2 ⟨ht, hpermitted⟩, ?_⟩
    rw [spend_of_busy hb, run_bind]
    exact hturn.append hturns
  | case2 c hb =>
    rw [spend_of_not_busy hb]
    exact ⟨[], List.forall_mem_nil _, .done _⟩

end

/-- The calls that make a processor take turns. -/
def Call.takesTurns : Call → Bool
  | .runFor _ | .step | .interrupt => true
  | _ => false

namespace Machine

variable {σ ω : Type} [Device σ] (observe : ω → Event → ω)

theorem call_turns (m : Machine σ) (seen : ω) {call : Call} (hc : call.takesTurns) :
    let r := m.call observe seen call
    ∃ turns : List (Processor × Turn), (∀ x ∈ turns, x.2.Permitted x.1) ∧
      Turns observe (m.core.processor, m.bus, seen) turns
        (r.2.1.core.processor, r.2.1.bus, r.2.2) := by
  cases call with
  | runFor ticks =>
    obtain ⟨turns, hpermitted, hturns⟩ :=
      (m.core.receive ticks.toNat).spend_turns observe m.bus seen
    refine ⟨turns, hpermitted, ?_⟩
    simp only [call_runFor, runTicks, Core.runTicks, run_bind, pure_eq, run, Core.settle_processor]
    exact hturns
  | step =>
    cases hs : m.core.processor.stopped with
    | true =>
      refine ⟨[], List.forall_mem_nil _, ?_⟩
      simp only [call, Core.answer, Core.step, hs, if_true, pure_eq, done_bind, run, Bus.prepare]
      exact .done _
    | false =>
      refine ⟨[(m.core.processor, .instruction (m.bus.read m.core.processor.pc).1)], ?_, ?_⟩
      · exact List.forall_mem_singleton.2 ⟨hs, fun h => by cases h⟩
      · rw [call_step observe seen hs]
        exact .instruction (.done _)
  | interrupt =>
    cases ha : m.core.processor.acceptsInterrupt with
    | true =>
      obtain ⟨hi, hs⟩ := Processor.acceptsInterrupt_iff.1 ha
      refine ⟨[(m.core.processor, .entry)], List.forall_mem_singleton.2 ⟨hs, fun _ => hi⟩, ?_⟩
      rw [call_interrupt_taken observe seen ha]
      exact .entry (.done _)
    | false =>
      refine ⟨[], List.forall_mem_nil _, ?_⟩
      rw [call_interrupt_refused observe seen ha]
      exact .done _
  | setRom | reset | read | write | set | restore => cases hc

theorem calls_turns (m : Machine σ) (seen : ω) {calls : List Call}
    (hc : ∀ call ∈ calls, call.takesTurns) :
    let r := m.calls observe seen calls
    ∃ turns : List (Processor × Turn), (∀ x ∈ turns, x.2.Permitted x.1) ∧
      Turns observe (m.core.processor, m.bus, seen) turns
        (r.2.1.core.processor, r.2.1.bus, r.2.2) := by
  induction calls generalizing m seen with
  | nil => exact ⟨[], List.forall_mem_nil _, .done _⟩
  | cons call rest ih =>
    obtain ⟨hcall, hrest⟩ := List.forall_mem_cons.1 hc
    obtain ⟨xs, hxs, hfirst⟩ := m.call_turns observe seen hcall
    obtain ⟨ys, hys, hlast⟩ := ih (m.call observe seen call).2.1 (m.call observe seen call).2.2 hrest
    exact ⟨xs ++ ys, List.forall_mem_append.2 ⟨hxs, hys⟩, hfirst.append hlast⟩

end Machine

end M740
