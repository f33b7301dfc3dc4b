import M740.Proofs.Reachable

/-!
# Traces

A trace is all that an observer can see. The trace of calls made one after the other is that of the
first call and then that of the rest. An opcode is fetched when a read is reported as a fetch, and
nothing but the beginning of an instruction reports that (`Program.Quiet`).
-/

namespace M740

/-- The observer that keeps everything. -/
def trace (seen : List Event) (e : Event) : List Event := seen ++ [e]

namespace Event

def isFetch : Event → Bool
  | .note (.fetch ..) => true
  | _ => false

/-- The opcodes that were fetched, with their addresses. -/
def fetches : List Event → List (Address × Byte)
  | .read address value :: .note (.fetch ..) :: rest => (address, value) :: fetches rest
  | _ :: rest => fetches rest
  | [] => []

theorem fetches_of_quiet {events : List Event} (h : ∀ e ∈ events, e.isFetch = false) :
    fetches events = [] := by
  fun_induction fetches events with
  | case1 address value p opcode rest =>
    cases h (.note (.fetch p opcode)) (.tail _ (.head _))
  | case2 e rest _ ih => exact ih fun e he => h e (.tail _ he)
  | case3 => rfl

/-- A fetch is not divided between two traces if the second does not begin with its report. -/
theorem fetches_append {xs ys : List Event} (h : ∀ e ∈ ys.head?, e.isFetch = false) :
    fetches (xs ++ ys) = fetches xs ++ fetches ys := by
  fun_induction fetches xs with
  | case1 address value p opcode rest ih =>
    simp only [List.cons_append, fetches, ih]
  | case2 e rest hne ih =>
    rw [List.cons_append, fetches, ih]
    intro address value p opcode tail he htail
    cases rest with
    | nil =>
      rw [List.nil_append] at htail
      rw [htail] at h
      cases h _ rfl
    | cons e' rest =>
      rw [List.cons_append] at htail
      exact hne address value p opcode rest he (by rw [(List.cons.inj htail).1])
  | case3 => rfl

theorem quiet_trace {seen : List Event} {e : Event} (hseen : ∀ e ∈ seen, e.isFetch = false)
    (he : e.isFetch = false) : ∀ e' ∈ trace seen e, e'.isFetch = false := by
  rintro e' he'
  rcases List.mem_append.1 he' with he' | he'
  · exact hseen e' he'
  · rwa [List.mem_singleton.1 he']

end Event

namespace Program

variable {σ α β : Type}

/-- No fetch is reported, whatever is read on the way. -/
def Quiet : Program α → Prop
  | .done _ => True
  | .read _ next => ∀ value, (next value).Quiet
  | .write _ _ next => next.Quiet
  | .poll next => ∀ level, (next level).Quiet
  | .note n next => (Event.note n).isFetch = false ∧ next.Quiet

/-- Every note that is reported satisfies `N`, whatever is read on the way. -/
def Reports (N : Note → Prop) : Program α → Prop
  | .done _ => True
  | .read _ next => ∀ value, (next value).Reports N
  | .write _ _ next => next.Reports N
  | .poll next => ∀ level, (next level).Reports N
  | .note n next => N n ∧ next.Reports N

variable {N : Note → Prop}

@[simp]
theorem reports_done {a : α} : (Program.done a).Reports N ↔ True := .rfl

@[simp]
theorem reports_bind {p : Program α} {f : α → Program β} :
    (p >>= f).Reports N ↔ p.Reports N ∧ p.Ensures fun a => (f a).Reports N := by
  induction p with
  | done => exact iff_of_eq (true_and _).symm
  | read _ _ ih => exact (forall_congr' ih).trans forall_and
  | write _ _ _ ih => exact ih
  | poll _ ih => exact (forall_congr' ih).trans forall_and
  | note _ _ ih => exact (and_congr_right fun _ => ih).trans (and_assoc).symm

@[simp]
theorem reports_fetch {address : Address} : (fetch address).Reports N ↔ True := forall_const _

@[simp]
theorem reports_store {address : Address} {value : Byte} :
    (store address value).Reports N ↔ True := .rfl

@[simp]
theorem reports_report {n : Note} : (report n).Reports N ↔ N n := iff_of_eq (and_true _)

theorem Reports.quiet {p : Program α} (h : p.Reports N)
    (hN : ∀ n, N n → (Event.note n).isFetch = false) : p.Quiet := by
  induction p with
  | done => trivial
  | read _ _ ih => exact fun v => ih v (h v)
  | write _ _ _ ih => exact ih h
  | poll _ ih => exact fun b => ih b (h b)
  | note n _ ih => exact ⟨hN n h.1, ih h.2⟩

variable [Device σ]

/-- What is seen in a run comes behind what was seen before it. -/
theorem run_trace (p : Program α) (bus : Bus σ) (seen : List Event) :
    p.run trace bus seen =
      let r := p.run trace bus []
      (r.1, r.2.1, seen ++ r.2.2) := by
  induction p generalizing bus seen with
  | done => simp only [run, List.append_nil]
  | read address _ ih =>
    simp only [run]
    rw [ih, ih _ _ (trace [] _)]
    simp only [trace, List.append_assoc, List.nil_append]
  | write address value _ ih =>
    simp only [run]
    rw [ih, ih _ (trace [] _)]
    simp only [trace, List.append_assoc, List.nil_append]
  | poll _ ih => exact ih _ _ _
  | note n _ ih =>
    simp only [run]
    rw [ih, ih _ (trace [] _)]
    simp only [trace, List.append_assoc, List.nil_append]

theorem Quiet.run {p : Program α} (h : p.Quiet) (bus : Bus σ) {seen : List Event}
    (hseen : ∀ e ∈ seen, e.isFetch = false) :
    ∀ e ∈ (p.run trace bus seen).2.2, e.isFetch = false := by
  induction p generalizing bus seen with
  | done => exact hseen
  | read _ _ ih => exact ih _ (h _) _ (Event.quiet_trace hseen rfl)
  | write _ _ _ ih => exact ih h _ (Event.quiet_trace hseen rfl)
  | poll _ ih => exact ih _ (h _) _ hseen
  | note _ _ ih => exact ih h.2 _ (Event.quiet_trace hseen h.1)

end Program

/-! ### Instructions -/

open Program

/-- The notes that come from operations. -/
def Note.isRemark : Note → Bool
  | .stop _ | .ignored _ => true
  | _ => false

theorem Locator.locate_reports (l : Locator) (p : Processor) {N : Note → Prop} :
    (l.locate p).Reports N := by
  cases l <;> simp [locate, fetchWord, fetchPointer]

theorem StackOp.perform_reports (op : StackOp) (p : Processor) {N : Note → Prop} :
    (op.perform p).Reports N := by
  cases op <;> simp [perform, Processor.push, Processor.pull, Processor.pullFlags]

theorem Implied.perform_reports (op : Implied) (p : Processor) :
    (op.perform p).Reports (·.isRemark) := by
  cases op with
  | stack op => exact op.perform_reports p
  | stp | clock => simp [perform, Note.isRemark]
  | brk => simp [perform, Processor.enterHandler, Processor.pushWord, Processor.push, fetchWord]
  | rti | rts => simp [perform, Processor.pullFlags, Processor.pullWord, Processor.pull]
  | nop | flag | count | transfer => trivial

theorem Accumulate.perform_reports (op : Accumulate) (value : Byte) (p : Processor)
    {N : Note → Prop} : (op.perform value p).Reports N := by
  unfold perform
  split
  · split
    · simp only [reports_bind, reports_fetch, ensures_fetch, true_and]
      intro target
      split <;> trivial
    · simp only [reports_bind, ensures_pure]
      split <;> trivial
  · split <;> trivial

theorem Reading.perform_reports (op : Reading) (value : Byte) (p : Processor) {N : Note → Prop} :
    (op.perform value p).Reports N := by
  cases op with
  | accumulate op => exact op.perform_reports value p
  | load | compare | bit | test => trivial

theorem Jumping.perform_reports (op : Jumping) (target : Address) (p : Processor)
    {N : Note → Prop} : (op.perform target p).Reports N := by
  cases op <;> simp [perform, Processor.pushWord, Processor.push]

theorem Plan.perform_reports (plan : Plan) (size : Nat) (p : Processor) :
    (plan.perform size p).Reports (·.isRemark) := by
  cases plan with
  | implied op => simp [perform, op.perform_reports]
  | readImmediate op => simp [perform, op.perform_reports]
  | read op locator => simp [perform, locator.locate_reports, op.perform_reports]
  | store register locator => simp [perform, locator.locate_reports]
  | modify op locator => simp [perform, Modifying.performAt, locator.locate_reports]
  | jump op locator => simp [perform, locator.locate_reports, op.perform_reports]
  | modifyA | storeImmediate | branchOnBitOfA | branchOnBitOfCell => simp [perform]

namespace Opcode

theorem perform_reports (opcode : Byte) (p : Processor) :
    (perform opcode p).Reports (·.isRemark) :=
  (plan opcode).perform_reports _ p

theorem perform_quiet (opcode : Byte) (p : Processor) : (perform opcode p).Quiet := by
  refine (perform_reports opcode p).quiet fun n hn => ?_
  cases n with
  | fetch => cases hn
  | _ => rfl

end Opcode

namespace Processor

variable {σ : Type} [Device σ]

/-- Performing an instruction begins with the fetch of its opcode, the only one. -/
theorem performNext_trace (p : Processor) (bus : Bus σ) :
    let opcode := (bus.read p.pc).1
    let r := (Opcode.perform opcode p).run trace (bus.read p.pc).2 []
    p.performNext.run trace bus [] =
      ((r.1.processor, Opcode.charge opcode p.flags.t r.1.branched), r.2.1,
        .read p.pc opcode :: .note (.fetch p opcode) :: r.2.2) := by
  simp only [performNext, fetch, report, read_bind, done_bind, note_bind, run, run_bind, pure_eq,
    trace, List.nil_append]
  rw [run_trace]
  rfl

theorem performNext_run {p : Processor} {bus : Bus σ} {opcode : Byte}
    (h : bus.read p.pc = (opcode, bus)) :
    let r := (Opcode.perform opcode p).run trace bus []
    p.performNext.run trace bus [] =
      ((r.1.processor, Opcode.charge opcode p.flags.t r.1.branched), r.2.1,
        .read p.pc opcode :: .note (.fetch p opcode) :: r.2.2) := by
  have hrun := p.performNext_trace bus
  rwa [h] at hrun

end Processor

/-! ### Calls -/

namespace Machine

variable {σ : Type} [Device σ]

theorem call_trace (m : Machine σ) (seen : List Event) (c : Call) :
    m.call trace seen c =
      let r := m.call trace [] c
      (r.1, r.2.1, seen ++ r.2.2) := by
  simp only [call]
  rw [Program.run_trace]

theorem calls_trace (m : Machine σ) (seen : List Event) (cs : List Call) :
    m.calls trace seen cs =
      let r := m.calls trace [] cs
      (r.1, r.2.1, seen ++ r.2.2) := by
  induction cs generalizing m seen with
  | nil => simp only [calls, List.append_nil]
  | cons c rest ih =>
    simp only [calls]
    rw [m.call_trace seen, ih, ih _ (m.call trace [] c).2.2]
    simp only [List.append_assoc]

theorem calls_trace_cons (m : Machine σ) (c : Call) (rest : List Call) :
    m.calls trace [] (c :: rest) =
      let first := m.call trace [] c
      let r := (m.after c).calls trace [] rest
      (first.1 :: r.1, r.2.1, first.2.2 ++ r.2.2) := by
  simp only [calls]
  rw [calls_trace, call_machine]

end Machine

end M740
