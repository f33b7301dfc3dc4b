import M740.Note

/-!
# Programs of bus transactions

An instruction is a conversation with the bus: it reads some addresses, writes others, and what it
does next may depend on the bytes it was given. `Program` is such a conversation, apart from any
memory. Running one against a memory, counting its accesses or comparing two of them are all
recursions on it.
-/

namespace M740

inductive Program (α : Type) where
  /-- The conversation is over. -/
  | done (result : α)
  | read (address : Address) (next : Byte → Program α)
  | write (address : Address) (value : Byte) (next : Program α)
  /-- Looks at the interrupt line. -/
  | poll (next : Bool → Program α)
  | note (note : Note) (next : Program α)

namespace Program

variable {α β γ : Type}

protected def bind : Program α → (α → Program β) → Program β
  | .done a, f => f a
  | .read address next, f => .read address fun v => (next v).bind f
  | .write address value next, f => .write address value (next.bind f)
  | .poll next, f => .poll fun b => (next b).bind f
  | .note n next, f => .note n (next.bind f)

instance : Monad Program where
  pure := .done
  bind := Program.bind

@[simp]
theorem pure_eq (a : α) : (pure a : Program α) = .done a := rfl

@[simp]
theorem done_bind (a : α) (f : α → Program β) : Program.done a >>= f = f a := rfl

@[simp]
theorem read_bind (address : Address) (next : Byte → Program α) (f : α → Program β) :
    Program.read address next >>= f = .read address fun v => next v >>= f := rfl

@[simp]
theorem write_bind (address : Address) (value : Byte) (next : Program α) (f : α → Program β) :
    Program.write address value next >>= f = .write address value (next >>= f) := rfl

@[simp]
theorem poll_bind (next : Bool → Program α) (f : α → Program β) :
    Program.poll next >>= f = .poll fun b => next b >>= f := rfl

@[simp]
theorem note_bind (n : Note) (next : Program α) (f : α → Program β) :
    Program.note n next >>= f = .note n (next >>= f) := rfl

theorem bind_done (p : Program α) : p >>= Program.done = p := by
  induction p with
  | done => rfl
  | read _ _ ih => simp [ih]
  | write _ _ _ ih => simp [ih]
  | poll _ ih => simp [ih]
  | note _ _ ih => simp [ih]

theorem bind_assoc (p : Program α) (f : α → Program β) (g : β → Program γ) :
    p >>= f >>= g = p >>= fun a => f a >>= g := by
  induction p with
  | done => rfl
  | read _ _ ih => simp [ih]
  | write _ _ _ ih => simp [ih]
  | poll _ ih => simp [ih]
  | note _ _ ih => simp [ih]

instance : LawfulMonad Program :=
  LawfulMonad.mk' Program (fun p => bind_done p) (fun _ _ => rfl) bind_assoc

/-! ### Single transactions -/

/-- Reads one byte. -/
def fetch (address : Address) : Program Byte := .read address .done

/-- Writes one byte. -/
def store (address : Address) (value : Byte) : Program Unit := .write address value (.done ())

/-- The level of the interrupt line. -/
def interruptLine : Program Bool := .poll .done

def report (n : Note) : Program Unit := .note n (.done ())

/-- Reads a little-endian word. -/
def fetchWord (address : Address) : Program Word := do
  let lo ← fetch address
  let hi ← fetch (address + 1)
  return Word.ofBytes lo hi

/-- Reads a little-endian word whose bytes both lie on page zero. -/
def fetchPointer (cell : Byte) : Program Word := do
  let lo ← fetch (Address.zeroPage cell)
  let hi ← fetch (Address.zeroPage (cell + 1))
  return Word.ofBytes lo hi

end Program

end M740
