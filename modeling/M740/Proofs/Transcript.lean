import M740.Proofs.Traces

/-!
# What a program shows

`p.Shows Q` says that whatever the bus answers, the events of `p` and its result satisfy `Q`. It is
`Ensures` with the events in sight: what a sequence of programs shows is what the first shows,
followed by what the second does (`shows_bind`), and a run shows it whatever bus it runs against
(`Shows.run`).
-/

namespace M740.Program

variable {σ α β : Type}

/-- The events and the result satisfy `Q`, whatever is read on the way. -/
def Shows (Q : List Event → α → Prop) : Program α → Prop
  | .done result => Q [] result
  | .read address next =>
    ∀ value, (next value).Shows fun events => Q (.read address value :: events)
  | .write address value next => next.Shows fun events => Q (.write address value :: events)
  | .poll next => ∀ level, (next level).Shows Q
  | .note n next => next.Shows fun events => Q (.note n :: events)

variable {Q R : List Event → α → Prop}

@[simp]
theorem shows_done {a : α} : (Program.done a).Shows Q ↔ Q [] a := .rfl

@[simp]
theorem shows_pure {a : α} : (pure a : Program α).Shows Q ↔ Q [] a := .rfl

@[simp]
theorem shows_bind {p : Program α} {f : α → Program β} {Q : List Event → β → Prop} :
    (p >>= f).Shows Q ↔
      p.Shows fun events a => (f a).Shows fun events' => Q (events ++ events') := by
  induction p generalizing Q with
  | done => exact .rfl
  | read _ _ ih => exact forall_congr' fun v => ih v
  | write _ _ _ ih => exact ih
  | poll _ ih => exact forall_congr' fun b => ih b
  | note _ _ ih => exact ih

theorem Shows.imp {p : Program α} (h : p.Shows Q) (hQR : ∀ events a, Q events a → R events a) :
    p.Shows R := by
  induction p generalizing Q R with
  | done => exact hQR _ _ h
  | read _ _ ih => exact fun v => ih v (h v) fun _ => hQR _
  | write _ _ _ ih => exact ih h fun _ => hQR _
  | poll _ ih => exact fun b => ih b (h b) hQR
  | note _ _ ih => exact ih h fun _ => hQR _

/-- What is ensured of the result is so whatever the events are. -/
theorem Ensures.shows {P : α → Prop} {p : Program α} (h : p.Ensures P) :
    p.Shows fun _ a => P a := by
  induction p with
  | done => exact h
  | read _ _ ih => exact fun v => ih v (h v)
  | write _ _ _ ih => exact ih h
  | poll _ ih => exact fun b => ih b (h b)
  | note _ _ ih => exact ih h

/-- The notes among the events are those that the program reports. -/
theorem Reports.shows {N : Note → Prop} {p : Program α} (h : p.Reports N) :
    p.Shows fun events _ => ∀ n, .note n ∈ events → N n := by
  induction p with
  | done => exact fun _ hn => nomatch hn
  | read _ _ ih => exact fun v => (ih v (h v)).imp fun _ _ hN n hn => hN n (by simpa using hn)
  | write _ _ _ ih => exact (ih h).imp fun _ _ hN n hn => hN n (by simpa using hn)
  | poll _ ih => exact fun b => ih b (h b)
  | note n _ ih =>
    refine (ih h.2).imp fun _ _ hN n' hn => ?_
    rcases List.mem_cons.1 hn with hn | hn
    · obtain rfl : n' = n := Event.note.inj hn
      exact h.1
    · exact hN n' hn

/-! ### Single transactions -/

@[simp]
theorem shows_fetch {address : Address} {Q : List Event → Byte → Prop} :
    (fetch address).Shows Q ↔ ∀ value, Q [.read address value] value := .rfl

@[simp]
theorem shows_store {address : Address} {value : Byte} {Q : List Event → Unit → Prop} :
    (store address value).Shows Q ↔ Q [.write address value] () := .rfl

@[simp]
theorem shows_report {n : Note} {Q : List Event → Unit → Prop} :
    (report n).Shows Q ↔ Q [.note n] () := .rfl

@[simp]
theorem shows_fetchWord {address : Address} {Q : List Event → Word → Prop} :
    (fetchWord address).Shows Q ↔
      ∀ lo hi, Q [.read address lo, .read (address + 1) hi] (Word.ofBytes lo hi) := .rfl

@[simp]
theorem shows_fetchPointer {cell : Byte} {Q : List Event → Word → Prop} :
    (fetchPointer cell).Shows Q ↔
      ∀ lo hi, Q [.read (Address.zeroPage cell) lo, .read (Address.zeroPage (cell + 1)) hi]
        (Word.ofBytes lo hi) := .rfl

/-! ### Runs -/

theorem Shows.run [Device σ] {p : Program α} (h : p.Shows Q) (bus : Bus σ) :
    Q (p.run trace bus []).2.2 (p.run trace bus []).1 := by
  induction p generalizing Q bus with
  | done => exact h
  | read address _ ih =>
    simp only [Program.run]
    rw [run_trace]
    exact ih _ (h _) _
  | write address value _ ih =>
    simp only [Program.run]
    rw [run_trace]
    exact ih h _
  | poll _ ih => exact ih _ (h _) _
  | note n _ ih =>
    simp only [Program.run]
    rw [run_trace]
    exact ih h _

end M740.Program
