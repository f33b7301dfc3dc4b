import M740.Proofs.Accesses
import M740.Proofs.History
import M740.Proofs.Operands

/-!
# What the stack holds

The live bytes of the stack lie in RAM above S. `b.Holds s values` lists them from the top, the byte
that the next pull returns first. S wraps around within page zero, so the list may reach down to
address zero, with S at `0xFF` when nothing is left below.
-/

namespace M740

open Program

variable {σ : Type}

namespace Bus

/-- The RAM above `s` holds the values, the topmost first. -/
def Holds (b : Bus σ) : Byte → List Byte → Prop
  | _, [] => True
  | s, value :: rest => b.ram[(s + 1).toNat]? = some value ∧ b.Holds (s + 1) rest

/-- The RAM cells from `first` to `last` are the same. -/
def SameCells (b b' : Bus σ) (first last : Nat) : Prop :=
  ∀ cell, first ≤ cell → cell ≤ last → b'.ram[cell]? = b.ram[cell]?

/-! ### RAM -/

theorem toNat_add_one_of_ram {s : Byte} (h : s.toNat < ramSize) : (s + 1).toNat = s.toNat + 1 := by
  simp only [ramSize] at h
  rw [UInt8.toNat_add, UInt8.toNat_one]
  omega

theorem toNat_sub_one_of_pos {s : Byte} (h : 0 < s.toNat) : (s - 1).toNat = s.toNat - 1 := by
  have := s.toNat_lt
  rw [UInt8.toNat_sub, UInt8.toNat_one]
  omega

theorem lt_of_ram_eq_some {b : Bus σ} {cell : Nat} {value : Byte} (h : b.ram[cell]? = some value) :
    cell < ramSize :=
  (Vector.getElem?_eq_some_iff.1 h).1

section
variable [Device σ]

theorem read_ram (b : Bus σ) (a : Address) : (b.read a).2.ram = b.ram := by
  unfold read
  split <;> rfl

theorem read_of_ram {b : Bus σ} {cell value : Byte} (h : b.ram[cell.toNat]? = some value) :
    b.read (Address.zeroPage cell) = (value, b) := by
  obtain ⟨hlt, hvalue⟩ := Vector.getElem?_eq_some_iff.1 h
  have hcell : (Address.zeroPage cell).toNat = cell.toNat := Address.toNat_zeroPage cell
  have hplace := Address.place_of_ram (a := Address.zeroPage cell) (by
    rw [hcell]
    exact Nat.le_of_lt_succ hlt)
  have hread : b.ram[(⟨(Address.zeroPage cell).toNat, hcell ▸ hlt⟩ : Fin ramSize)] = value := by
    simpa only [Fin.getElem_fin, hcell] using hvalue
  simp only [read, hplace]
  exact Prod.ext hread rfl

/-- A write changes the RAM at its address, if there is RAM. -/
theorem write_ram (b : Bus σ) (a : Address) (value : Byte) (cell : Nat) :
    (b.write a value).ram[cell]? =
      if a.toNat = cell ∧ cell < ramSize then some value else b.ram[cell]? := by
  rw [write_eq]
  by_cases hram : a.toNat ≤ 0x5F
  · rw [Address.register?_of_ram hram]
    simp only [dif_pos hram, Vector.getElem?_set]
    by_cases h : a.toNat = cell
    · have hlt : cell < ramSize := h ▸ Nat.lt_succ_of_le hram
      rw [if_pos h, if_pos ⟨h, hlt⟩]
    · rw [if_neg h, if_neg fun hc => h hc.1]
  · have hout : ¬ (a.toNat = cell ∧ cell < ramSize) := by
      simp only [ramSize]
      omega
    rw [if_neg hout]
    cases History.register? a.toNat with
    | some register => rfl
    | none => simp only [dif_neg hram]

end

/-! ### Live bytes -/

section
variable {b b' : Bus σ} {s value : Byte} {values : List Byte}

/-- What the stack holds is a matter of its live cells. -/
theorem Holds.congr (h : b.Holds s values)
    (hb : ∀ cell, (s + 1).toNat ≤ cell → cell < (s + 1).toNat + values.length →
      b'.ram[cell]? = b.ram[cell]?) : b'.Holds s values := by
  induction values generalizing s with
  | nil => trivial
  | cons value rest ih =>
    have hlt := lt_of_ram_eq_some h.1
    rw [List.length_cons] at hb
    refine ⟨(hb _ (Nat.le_refl _) (by omega)).trans h.1, ih h.2 fun cell hle hlt' => ?_⟩
    have hnext := toNat_add_one_of_ram hlt
    exact hb cell (by omega) (by omega)

theorem Holds.of_ram (h : b.Holds s values) (hb : b'.ram = b.ram) : b'.Holds s values :=
  h.congr fun _ _ _ => by rw [hb]

/-- A push adds a byte on top of the live ones. -/
theorem Holds.push [Device σ] (h : b.Holds s values) (hs : s.toNat < ramSize) :
    (b.write (Address.zeroPage s) value).Holds (s - 1) (value :: values) := by
  have hs' : s - 1 + 1 = s := UInt8.sub_add_cancel s 1
  have hnext := toNat_add_one_of_ram hs
  refine ⟨?_, ?_⟩
  · rw [hs', write_ram, Address.toNat_zeroPage, if_pos ⟨rfl, hs⟩]
  · rw [hs']
    refine h.congr fun cell hle _ => ?_
    rw [write_ram, Address.toNat_zeroPage, if_neg (by omega)]

end

/-! ### A stack and its base -/

/-- The values are all that is on the stack since S was at `base`. -/
structure Stack (b : Bus σ) (base s : Byte) (values : List Byte) : Prop where
  pointer : (s + 1).toNat + values.length = base.toNat + 1
  held : b.Holds s values

section
variable {b b' : Bus σ} {base s value : Byte} {values : List Byte}

theorem Stack.empty (b : Bus σ) (hbase : base.toNat < ramSize) : b.Stack base base [] :=
  ⟨toNat_add_one_of_ram hbase, trivial⟩

/-- S is below its base by one for each value, and wraps when the stack is full. -/
theorem Stack.toNat_pointer (h : b.Stack base s values) :
    (s.toNat : Int) = (base.toNat - values.length) % 256 := by
  have hpointer := h.pointer
  have := s.toNat_lt
  have := base.toNat_lt
  rw [UInt8.toNat_add, UInt8.toNat_one] at hpointer
  omega

theorem Stack.eq_base (h : b.Stack base s []) : s = base := by
  have hpointer := h.toNat_pointer
  have := base.toNat_lt
  rw [List.length_nil] at hpointer
  exact UInt8.toNat_inj.1 (by omega)

/-- The pointer of a stack that is not full. -/
theorem Stack.toNat_of_room (h : b.Stack base s values) (hbase : base.toNat < ramSize)
    (hroom : values.length ≤ base.toNat) : s.toNat + values.length = base.toNat := by
  have hpointer := h.toNat_pointer
  simp only [ramSize] at hbase
  omega

theorem Stack.push [Device σ] (h : b.Stack base s values) (hbase : base.toNat < ramSize)
    (hroom : values.length ≤ base.toNat) (value : Byte) :
    (b.write (Address.zeroPage s) value).Stack base (s - 1) (value :: values) := by
  have hpointer := h.toNat_of_room hbase hroom
  refine ⟨?_, h.held.push (by omega)⟩
  rw [UInt8.sub_add_cancel, List.length_cons]
  omega

theorem Stack.pull (h : b.Stack base s (value :: values)) :
    b.ram[(s + 1).toNat]? = some value ∧ b.Stack base (s + 1) values := by
  obtain ⟨hpointer, htop, hrest⟩ := h
  have hnext := toNat_add_one_of_ram (lt_of_ram_eq_some htop)
  rw [List.length_cons] at hpointer
  exact ⟨htop, by omega, hrest⟩

/-- A stack is a matter of the cells from the topmost value to the base. -/
theorem Stack.congr (h : b.Stack base s values)
    (hb : b.SameCells b' (base.toNat + 1 - values.length) base.toNat) :
    b'.Stack base s values := by
  have hpointer := h.pointer
  exact ⟨hpointer, h.held.congr fun cell _ _ => hb cell (by omega) (by omega)⟩

theorem Stack.of_ram (h : b.Stack base s values) (hb : b'.ram = b.ram) :
    b'.Stack base s values :=
  ⟨h.pointer, h.held.of_ram hb⟩

end

end Bus

/-! ### Pulls -/

namespace Processor

variable {ω : Type} [Device σ] (observe : ω → Event → ω) {p : Processor} {bus : Bus σ}

theorem pull_run {value : Byte} (h : bus.ram[(p.s + 1).toNat]? = some value) (seen : ω) :
    p.pull.run observe bus seen =
      ((value, { p with s := p.s + 1 }), bus,
        observe seen (.read (Address.zeroPage (p.s + 1)) value)) := by
  simp only [pull, fetch, read_bind, done_bind, pure_eq, run, Bus.read_of_ram h]

end Processor

/-! ### Instructions without an operand -/

namespace Opcode

theorem perform_implied {opcode : Byte} {op : Implied}
    (h : (instruction opcode).operation = .implied op) (p : Processor) :
    perform opcode p = do return { processor := ← op.perform (p.advance 1) } := by
  have hoperation := (operation_plan opcode).trans h
  unfold perform
  rw [Instruction.size, ← mode_plan]
  cases hplan : plan opcode with
  | implied op' =>
    rw [hplan] at hoperation
    cases hoperation
    rfl
  | modifyA | readImmediate | read | store | modify | jump | storeImmediate | branchOnBitOfA
  | branchOnBitOfCell =>
    rw [hplan] at hoperation
    cases hoperation

end Opcode

theorem Machine.step_implied [Device σ] {m : Machine σ} (hs : m.core.processor.stopped = false)
    {op : Implied} (hop : m.instruction.operation = .implied op) :
    let p := m.core.processor
    let r := (op.perform (p.advance 1)).run trace (m.bus.read p.pc).2 []
    (m.after .step).core.processor = r.1 ∧ (m.after .step).bus = r.2.1 := by
  rw [← m.call_machine trace [], step_trace hs, Opcode.perform_implied hop, run_bind]
  exact ⟨rfl, rfl⟩

end M740
