import M740.Proofs.StackList
import M740.Proofs.Transcript

/-!
# The stack as a list

A push puts a byte in front of a list, and a pull takes the first one. S and the RAM do the same as
long as three rules are kept, which `StackAction.Obeys` states: there is room for what is pushed, no
more is pulled than was pushed, and no other write goes to the live bytes. What a sequence of actions
does to memory is told by the writes that it makes and by where it leaves S, and so is what any other
program does: if the two agree, the list is the same (`Bus.Stack.acts`).
-/

namespace M740

open Program

/-- What is done with the stack, or to the bus meanwhile. -/
inductive StackAction where
  | push (value : Byte)
  | pull
  | write (address : Address) (value : Byte)
  deriving DecidableEq, Repr

namespace StackAction

/-! ### On a list -/

/-- The values on the stack after the action, the topmost first. -/
def next (values : List Byte) : StackAction → List Byte
  | push value => value :: values
  | pull => values.tail
  | write .. => values

/-- What the action returns. -/
def answer? (values : List Byte) : StackAction → Option Byte
  | pull => values.head?
  | push _ | write .. => none

/-- The values that are not pulled yet, the one pushed last first. -/
def outstanding (values : List Byte) (actions : List StackAction) : List Byte :=
  actions.foldl next values

/-- The rules for one action. The stack begins at `base`, and the lowest `floor` values stay. -/
def Allowed (base : Byte) (floor : Nat) (values : List Byte) : StackAction → Prop
  | push _ => values.length ≤ base.toNat
  | pull => floor < values.length
  | write address _ => address.toNat + values.length ≤ base.toNat ∨ base.toNat < address.toNat

instance (base : Byte) (floor : Nat) (values : List Byte) :
    (action : StackAction) → Decidable (action.Allowed base floor values)
  | push _ => inferInstanceAs (Decidable (values.length ≤ base.toNat))
  | pull => inferInstanceAs (Decidable (floor < values.length))
  | write .. => inferInstanceAs (Decidable (_ ∨ _))

/-- Every action is allowed when it is taken. -/
def Obeys (base : Byte) (floor : Nat) : List Byte → List StackAction → Prop
  | _, [] => True
  | values, action :: rest =>
    action.Allowed base floor values ∧ Obeys base floor (action.next values) rest

instance decidableObeys (base : Byte) (floor : Nat) :
    (values : List Byte) → (actions : List StackAction) → Decidable (Obeys base floor values actions)
  | _, [] => inferInstanceAs (Decidable True)
  | values, action :: rest =>
    have := decidableObeys base floor (action.next values) rest
    inferInstanceAs (Decidable (_ ∧ _))

theorem obeys_append {base : Byte} {floor : Nat} {values : List Byte} {xs ys : List StackAction} :
    Obeys base floor values (xs ++ ys) ↔
      Obeys base floor values xs ∧ Obeys base floor (outstanding values xs) ys := by
  induction xs generalizing values with
  | nil => exact ⟨fun h => ⟨trivial, h⟩, And.right⟩
  | cons x xs ih => exact (and_congr_right fun _ => ih).trans and_assoc.symm

/-- What lies on the floor is not pulled. -/
theorem outstanding_append {base : Byte} {live kept : List Byte} {actions : List StackAction}
    (h : Obeys base kept.length (live ++ kept) actions) :
    ∃ live', outstanding (live ++ kept) actions = live' ++ kept := by
  induction actions generalizing live with
  | nil => exact ⟨live, rfl⟩
  | cons action rest ih =>
    obtain ⟨hallowed, hrest⟩ := h
    cases action with
    | push value => exact @ih (value :: live) hrest
    | pull =>
      cases live with
      | nil => exact absurd hallowed (Nat.lt_irrefl _)
      | cons _ live => exact @ih live hrest
    | write => exact ih hrest

/-- Balanced actions leave the list as it was. -/
theorem outstanding_balanced {base : Byte} {kept : List Byte} {actions : List StackAction}
    (h : Obeys base kept.length kept actions)
    (hbalanced : (outstanding kept actions).length = kept.length) :
    outstanding kept actions = kept := by
  obtain ⟨live, hlive⟩ := @outstanding_append base [] kept actions h
  rw [List.nil_append] at hlive
  rw [hlive, List.length_append] at hbalanced
  rw [hlive, List.eq_nil_of_length_eq_zero (Nat.add_eq_right.1 hbalanced), List.nil_append]

/-! ### On the bus -/

def perform (action : StackAction) (p : Processor) : Program (Option Byte × Processor) :=
  match action with
  | push value => return (none, ← p.push value)
  | pull => do
    let (value, p) ← p.pull
    return (some value, p)
  | write address value => do
    Program.store address value
    return (none, p)

def performAll : List StackAction → Processor → Program Processor
  | [], p => return p
  | action :: rest, p => do
    let (_, p) ← action.perform p
    performAll rest p

/-- Where the actions leave S. -/
def pointer (s : Byte) : List StackAction → Byte
  | [] => s
  | push _ :: rest => pointer (s - 1) rest
  | pull :: rest => pointer (s + 1) rest
  | write .. :: rest => pointer s rest

/-- What the actions write, in order. -/
def writes (s : Byte) : List StackAction → List (Address × Byte)
  | [] => []
  | push value :: rest => (Address.zeroPage s, value) :: writes (s - 1) rest
  | pull :: rest => writes (s + 1) rest
  | write address value :: rest => (address, value) :: writes s rest

end StackAction

/-! ### Writes -/

namespace Event

def write? : Event → Option (Address × Byte)
  | .write address value => some (address, value)
  | .read .. | .note _ => none

/-- What is written where, in order. -/
def writes (events : List Event) : List (Address × Byte) := events.filterMap write?

theorem writes_append (events events' : List Event) :
    writes (events ++ events') = writes events ++ writes events' :=
  List.filterMap_append

end Event

section
variable {σ : Type} [Device σ]

namespace Bus

/-- The bus after writes made one after the other. -/
def writeAll (b : Bus σ) (writes : List (Address × Byte)) : Bus σ :=
  writes.foldl (fun b w => b.write w.1 w.2) b

theorem writeAll_ram_congr {b b' : Bus σ} (h : b'.ram = b.ram) (writes : List (Address × Byte)) :
    (b'.writeAll writes).ram = (b.writeAll writes).ram := by
  induction writes generalizing b b' with
  | nil => exact h
  | cons w rest ih =>
    refine ih (Vector.ext fun cell hcell => ?_)
    rw [← Option.some_inj, ← Vector.getElem?_eq_getElem, ← Vector.getElem?_eq_getElem, write_ram,
      write_ram, h]

end Bus

/-- A run changes RAM by the writes among its events. -/
theorem Program.run_ram {α : Type} (p : Program α) (bus : Bus σ) :
    let r := p.run trace bus []
    r.2.1.ram = (bus.writeAll (Event.writes r.2.2)).ram := by
  induction p generalizing bus with
  | done => rfl
  | read address _ ih =>
    simp only [run]
    rw [run_trace]
    exact (ih _ _).trans (Bus.writeAll_ram_congr (bus.read_ram address) _)
  | write address value _ ih =>
    simp only [run]
    rw [run_trace]
    exact ih _
  | poll _ ih => exact ih _ _
  | note n _ ih =>
    simp only [run]
    rw [run_trace]
    exact ih _

/-- Memory does to the list what the actions do, if they explain S and the writes. -/
theorem Bus.Stack.acts {b b' : Bus σ} {base s : Byte} {floor : Nat} {values : List Byte}
    {actions : List StackAction} (h : b.Stack base s values) (hbase : base.toNat < ramSize)
    (hobey : StackAction.Obeys base floor values actions)
    (hram : b'.ram = (b.writeAll (StackAction.writes s actions)).ram) :
    b'.Stack base (StackAction.pointer s actions) (StackAction.outstanding values actions) := by
  induction actions generalizing b s values with
  | nil => exact h.of_ram hram
  | cons action rest ih =>
    obtain ⟨hallowed, hrest⟩ := hobey
    cases action with
    | push value => exact ih (h.push hbase hallowed value) hrest hram
    | pull =>
      cases values with
      | nil => cases hallowed
      | cons value values => exact ih h.pull.2 hrest hram
    | write address value =>
      refine ih (h.congr fun cell hle hlt => ?_) hrest hram
      have hout : address.toNat + values.length ≤ base.toNat ∨ base.toNat < address.toNat := hallowed
      exact (b.write_ram address value cell).trans (if_neg (by omega))

namespace StackAction

theorem performAll_shows (actions : List StackAction) (p : Processor) :
    (performAll actions p).Shows fun events p' =>
      Event.writes events = writes p.s actions ∧ p'.s = pointer p.s actions := by
  induction actions generalizing p with
  | nil => exact ⟨rfl, rfl⟩
  | cons action rest ih =>
    cases action with
    | push value =>
      exact (ih { p with s := p.s - 1 }).imp fun _ _ h => ⟨congrArg (_ :: ·) h.1, h.2⟩
    | pull => exact fun _ => ih { p with s := p.s + 1 }
    | write address value => exact (ih p).imp fun _ _ h => ⟨congrArg (_ :: ·) h.1, h.2⟩

/-- The list is all there is to know of the stack. -/
theorem performAll_stack {base : Byte} (hbase : base.toNat < ramSize) {floor : Nat}
    {actions : List StackAction} {p : Processor} {bus : Bus σ} {values : List Byte}
    (h : bus.Stack base p.s values) (hobey : Obeys base floor values actions) :
    let r := (performAll actions p).run trace bus []
    r.2.1.Stack base r.1.s (outstanding values actions) := by
  intro r
  obtain ⟨hwrites, hpointer⟩ := (performAll_shows actions p).run bus
  rw [show r.1.s = pointer p.s actions from hpointer]
  exact h.acts hbase hobey (hwrites ▸ (performAll actions p).run_ram bus)

/-- What an action returns is what the list says, and what it finds above the base stays. -/
theorem perform_allowed {base : Byte} (hbase : base.toNat < ramSize) {floor : Nat}
    {action : StackAction} {p : Processor} {bus : Bus σ} {values : List Byte}
    (h : bus.Stack base p.s values) (hallowed : action.Allowed base floor values) :
    let r := (action.perform p).run trace bus []
    r.1.1 = action.answer? values ∧
      ((∀ address value, action ≠ .write address value) →
        ∀ cell, base.toNat < cell → r.2.1.ram[cell]? = bus.ram[cell]?) := by
  cases action with
  | push value =>
    refine ⟨rfl, fun _ cell hcell => ?_⟩
    have hroom := h.toNat_of_room hbase hallowed
    exact (bus.write_ram _ value cell).trans (if_neg (by rw [Address.toNat_zeroPage]; omega))
  | pull =>
    cases values with
    | nil => cases hallowed
    | cons value values =>
      simp only [perform, run_bind, Processor.pull_run trace h.pull.1, pure_eq, run]
      exact ⟨rfl, fun _ _ _ => trivial⟩
  | write address value => exact ⟨rfl, fun h => absurd rfl (h address value)⟩

end StackAction

end

end M740
