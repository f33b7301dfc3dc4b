import M740.Run

/-!
# What a program ensures

`p.Ensures P` says that whatever the bus answers, `p` ends with a result that satisfies `P`. The
lemmas here take such a statement through a sequence of programs and into a run against a bus. An
observer only watches: what a run returns does not depend on it.
-/

namespace M740.Program

variable {σ α β ω : Type}

/-- Every result satisfies `P`, whatever is read on the way. -/
def Ensures (P : α → Prop) : Program α → Prop
  | .done result => P result
  | .read _ next => ∀ value, (next value).Ensures P
  | .write _ _ next => next.Ensures P
  | .poll next => ∀ level, (next level).Ensures P
  | .note _ next => next.Ensures P

variable {P Q : α → Prop}

@[simp]
theorem ensures_done {a : α} : (Program.done a).Ensures P ↔ P a := .rfl

@[simp]
theorem ensures_pure {a : α} : (pure a : Program α).Ensures P ↔ P a := .rfl

@[simp]
theorem ensures_bind {p : Program α} {f : α → Program β} {R : β → Prop} :
    (p >>= f).Ensures R ↔ p.Ensures fun a => (f a).Ensures R := by
  induction p with
  | done => exact .rfl
  | read _ _ ih => exact forall_congr' ih
  | write _ _ _ ih => exact ih
  | poll _ ih => exact forall_congr' ih
  | note _ _ ih => exact ih

theorem Ensures.imp {p : Program α} (h : p.Ensures P) (hPQ : ∀ a, P a → Q a) : p.Ensures Q := by
  induction p with
  | done => exact hPQ _ h
  | read _ _ ih => exact fun v => ih v (h v)
  | write _ _ _ ih => exact ih h
  | poll _ ih => exact fun b => ih b (h b)
  | note _ _ ih => exact ih h

theorem Ensures.and {p : Program α} (hP : p.Ensures P) (hQ : p.Ensures Q) :
    p.Ensures fun a => P a ∧ Q a := by
  induction p with
  | done => exact ⟨hP, hQ⟩
  | read _ _ ih => exact fun v => ih v (hP v) (hQ v)
  | write _ _ _ ih => exact ih hP hQ
  | poll _ ih => exact fun b => ih b (hP b) (hQ b)
  | note _ _ ih => exact ih hP hQ

@[simp]
theorem ensures_true {p : Program α} : p.Ensures fun _ => True := by
  induction p with
  | done => trivial
  | read _ _ ih => exact ih
  | write _ _ _ ih => exact ih
  | poll _ ih => exact ih
  | note _ _ ih => exact ih

theorem ensures_of_forall {p : Program α} (h : ∀ a, P a) : p.Ensures P :=
  ensures_true.imp fun a _ => h a

/-- Two ways to go on are the same if they are so for every result. -/
theorem Ensures.bind_congr {p : Program α} {f g : α → Program β}
    (h : p.Ensures fun a => f a = g a) : p >>= f = p >>= g := by
  induction p with
  | done => exact h
  | read _ _ ih => exact congrArg (Program.read _) (funext fun v => ih v (h v))
  | write _ _ _ ih => exact congrArg (Program.write _ _) (ih h)
  | poll _ ih => exact congrArg Program.poll (funext fun b => ih b (h b))
  | note _ _ ih => exact congrArg (Program.note _) (ih h)

/-! ### Single transactions -/

@[simp]
theorem ensures_fetch {address : Address} {P : Byte → Prop} :
    (fetch address).Ensures P ↔ ∀ value, P value := .rfl

@[simp]
theorem ensures_store {address : Address} {value : Byte} {P : Unit → Prop} :
    (store address value).Ensures P ↔ P () := .rfl

@[simp]
theorem ensures_interruptLine {P : Bool → Prop} : interruptLine.Ensures P ↔ ∀ level, P level :=
  .rfl

@[simp]
theorem ensures_report {n : Note} {P : Unit → Prop} : (report n).Ensures P ↔ P () := .rfl

/-! ### Runs -/

section
variable [Device σ]

theorem Ensures.run {p : Program α} (h : p.Ensures P) (observe : ω → Event → ω) (bus : Bus σ)
    (seen : ω) : P (p.run observe bus seen).1 := by
  induction p generalizing bus seen with
  | done => exact h
  | read _ _ ih => exact ih _ (h _) _ _
  | write _ _ _ ih => exact ih h _ _
  | poll _ ih => exact ih _ (h _) _ _
  | note _ _ ih => exact ih h _ _

/-- Two observers see runs that return the same and leave the same bus. -/
theorem run_observer {ω' : Type} (observe : ω → Event → ω) (observe' : ω' → Event → ω')
    (p : Program α) (bus : Bus σ) (seen : ω) (seen' : ω') :
    (p.run observe bus seen).1 = (p.run observe' bus seen').1 ∧
      (p.run observe bus seen).2.1 = (p.run observe' bus seen').2.1 := by
  induction p generalizing bus seen seen' with
  | done => exact ⟨rfl, rfl⟩
  | read _ _ ih => exact ih _ _ _ _
  | write _ _ _ ih => exact ih _ _ _
  | poll _ ih => exact ih _ _ _ _
  | note _ _ ih => exact ih _ _ _

end

end M740.Program
