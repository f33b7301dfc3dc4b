import M740.Proofs.Latches
import M740.Proofs.Operands
import M740.Proofs.StackActions
import M740.Proofs.Turns

/-!
# Code and the stack

Every instruction but TXS pushes, or pulls, or leaves S alone, and so does the entry of an interrupt.
Code that is made of these acts on the stack as a list of actions does, the pushed bytes and the
other writes being those that it makes (`Code.stack`). If the actions are allowed and take back what
they put on the stack, what was on it before is there afterwards, and PHP, PHA before such code and
PLA, PLP after it save A and the flags (`Machine.stack_refines_list`).
-/

namespace M740

open Program StackAction

/-! ### Uses of the stack -/

inductive StackUse where
  | none
  | pushes
  | pulls (count : Nat)
  /-- S is loaded. -/
  | loads
  deriving DecidableEq, Repr

def Operation.stackUse : Operation → StackUse
  | .implied (.stack .pha) | .implied (.stack .php) | .jump .call | .implied .brk => .pushes
  | .implied (.stack .pla) | .implied (.stack .plp) => .pulls 1
  | .implied .rts => .pulls 2
  | .implied .rti => .pulls 3
  | .implied (.transfer .txs) => .loads
  | _ => .none

namespace StackUse

/-- The actions that the events of such a use are. -/
def actions? (use : StackUse) (events : List Event) : Option (List StackAction) :=
  match use with
  | .none => some ((Event.writes events).map fun w => .write w.1 w.2)
  | .pushes => some ((Event.writes events).map fun w => .push w.2)
  | .pulls count => some (List.replicate count .pull)
  | .loads => Option.none

/-- The actions explain what has been written and where S is. -/
def Explains (use : StackUse) (s : Byte) (events : List Event) (s' : Byte) : Prop :=
  ∀ actions, use.actions? events = some actions →
    Event.writes events = writes s actions ∧ s' = pointer s actions

theorem writes_map_write (s : Byte) (ws : List (Address × Byte)) :
    writes s (ws.map fun w => .write w.1 w.2) = ws ∧
      pointer s (ws.map fun w => .write w.1 w.2) = s := by
  induction ws with
  | nil => exact ⟨rfl, rfl⟩
  | cons w rest ih => exact ⟨congrArg (w :: ·) ih.1, ih.2⟩

theorem explains_none {s s' : Byte} (h : s' = s) (events : List Event) :
    StackUse.none.Explains s events s' := by
  rintro _ ⟨⟩
  obtain ⟨hwrites, hpointer⟩ := writes_map_write s (Event.writes events)
  exact ⟨hwrites.symm, h.trans hpointer.symm⟩

end StackUse

/-! ### Operations that leave S alone -/

theorem Implied.perform_s {op : Implied} (h : (Operation.implied op).stackUse = .none)
    (p : Processor) : (op.perform p).Ensures fun p' => p'.s = p.s := by
  cases op with
  | brk | rti | rts => cases h
  | stp | nop | flag | clock => rfl
  | count step => exact (step.apply_sameControl p).1
  | stack op => cases op <;> cases h
  | transfer op =>
    refine (Transfer.apply_sameControl ?_ p).1
    rintro rfl
    cases h

theorem Plan.perform_s {plan : Plan} (h : plan.operation.stackUse = .none) (size : Nat)
    (p : Processor) : (plan.perform size p).Ensures fun o => o.processor.s = p.s := by
  have hcall : plan.operation ≠ .jump .call := fun heq => by
    rw [heq] at h
    cases h
  cases plan with
  | implied op =>
    simp only [perform, ensures_bind, ensures_pure]
    exact Implied.perform_s h (p.advance size)
  | _ => exact (perform_sameControl (fun _ h => by cases h) hcall size p).imp fun _ h => h.1

/-! ### All operations -/

theorem Program.ReadOnly.shows_writes {α : Type} {p : Program α} (hp : p.ReadOnly) :
    p.Shows fun events _ => Event.writes events = [] := by
  induction p with
  | done => rfl
  | read _ _ ih => exact fun value => ih value (hp value)
  | write => cases hp
  | poll _ ih => exact fun level => ih level (hp level)
  | note _ _ ih => exact ih hp

theorem Processor.enterHandler_explains (p : Processor) (marker : Byte) :
    (p.enterHandler marker).Shows fun events p' => StackUse.pushes.Explains p.s events p'.s := by
  intro _ _
  rintro _ ⟨⟩
  exact ⟨rfl, rfl⟩

theorem StackOp.perform_explains (op : StackOp) (p : Processor) :
    (op.perform p).Shows fun events p' =>
      (Operation.implied (.stack op)).stackUse.Explains p.s events p'.s := by
  cases op with
  | pha | php =>
    rintro _ ⟨⟩
    exact ⟨rfl, rfl⟩
  | pla | plp =>
    intro _
    rintro _ ⟨⟩
    exact ⟨rfl, rfl⟩

theorem Implied.perform_explains (op : Implied) (p : Processor) :
    (op.perform p).Shows fun events p' =>
      (Operation.implied op).stackUse.Explains p.s events p'.s := by
  cases hop : (Operation.implied op).stackUse with
  | none => exact (perform_s hop p).shows.imp fun events _ h => StackUse.explains_none h events
  | loads =>
    refine ensures_true.shows.imp fun _ _ _ => ?_
    rintro _ ⟨⟩
  | pushes | pulls count =>
    rw [← hop]
    cases op with
    | brk => exact (p.advance 1).enterHandler_explains breakMarker
    | rti =>
      intro _ _ _
      rintro _ ⟨⟩
      exact ⟨rfl, rfl⟩
    | rts =>
      intro _ _
      rintro _ ⟨⟩
      exact ⟨rfl, rfl⟩
    | stack op => exact op.perform_explains p
    | transfer op => cases op <;> cases hop
    | stp | nop | flag | count | clock => cases hop

theorem Plan.perform_explains (plan : Plan) (size : Nat) (p : Processor) :
    (plan.perform size p).Shows fun events o =>
      plan.operation.stackUse.Explains p.s events o.processor.s := by
  cases hop : plan.operation.stackUse with
  | none => exact (perform_s hop size p).shows.imp fun events _ h => StackUse.explains_none h events
  | loads =>
    refine ensures_true.shows.imp fun _ _ _ => ?_
    rintro _ ⟨⟩
  | pushes | pulls count =>
    rw [← hop]
    cases plan with
    | implied op =>
      simp only [perform, shows_bind, shows_pure, List.append_nil]
      exact op.perform_explains (p.advance size)
    | jump op locator =>
      cases op with
      | call =>
        simp only [perform, shows_bind]
        refine (locator.locate_readOnly p).shows_writes.imp fun events target hwrites => ?_
        rintro _ ⟨⟩
        rw [Event.writes_append, hwrites]
        exact ⟨rfl, rfl⟩
      | branch | always | jump => cases hop
    | modifyA | readImmediate | read | store | modify | storeImmediate | branchOnBitOfA
    | branchOnBitOfCell => cases hop

namespace Opcode

theorem perform_explains (opcode : Byte) (p : Processor) :
    (perform opcode p).Shows fun events o =>
      (instruction opcode).operation.stackUse.Explains p.s events o.processor.s :=
  operation_plan opcode ▸ (plan opcode).perform_explains _ p

end Opcode

/-! ### Code -/

section
variable {σ : Type} [Device σ]

/-- The actions of the instruction at the program counter. -/
def instructionActions? (p : Processor) (bus : Bus σ) : Option (List StackAction) :=
  (Opcode.instruction (bus.read p.pc).1).operation.stackUse.actions?
    (p.performNext.run trace bus []).2.2

/-- The actions of an interrupt entry. -/
def entryActions? (p : Processor) (bus : Bus σ) : Option (List StackAction) :=
  StackUse.pushes.actions? (p.takeInterrupt.run trace bus []).2.2

/-- What code does with the stack while it leads from one state of processor and bus to another.
Between its turns the bus may be written to, and devices may change by themselves. Whatever a machine
is made to run is code unless it loads S (`Machine.calls_code`). -/
inductive Code : Processor × Bus σ → List StackAction → Processor × Bus σ → Prop
  | done (s : Processor × Bus σ) : Code s [] s
  | instruction {p : Processor} {bus : Bus σ} {actions rest : List StackAction}
    {s : Processor × Bus σ} (h : instructionActions? p bus = some actions)
    (hrest : Code ((p.performNext.run trace bus []).1.1, (p.performNext.run trace bus []).2.1)
      rest s) : Code (p, bus) (actions ++ rest) s
  | entry {p : Processor} {bus : Bus σ} {actions rest : List StackAction} {s : Processor × Bus σ}
    (h : entryActions? p bus = some actions)
    (hrest : Code ((p.takeInterrupt.run trace bus []).1, (p.takeInterrupt.run trace bus []).2.1)
      rest s) : Code (p, bus) (actions ++ rest) s
  | write {p : Processor} {bus : Bus σ} (address : Address) (value : Byte)
    {rest : List StackAction} {s : Processor × Bus σ}
    (hrest : Code (p, bus.write address value) rest s) :
    Code (p, bus) (.write address value :: rest) s
  | devices {p : Processor} {bus bus' : Bus σ} (hram : bus'.ram = bus.ram)
    {rest : List StackAction} {s : Processor × Bus σ} (hrest : Code (p, bus') rest s) :
    Code (p, bus) rest s

theorem Processor.performNext_explains {p : Processor} {bus : Bus σ} {actions : List StackAction}
    (h : instructionActions? p bus = some actions) :
    let r := p.performNext.run trace bus []
    r.1.1.s = pointer p.s actions ∧ r.2.1.ram = (bus.writeAll (writes p.s actions)).ram := by
  intro r
  obtain ⟨hwrites, hpointer⟩ :
      Event.writes r.2.2 = writes p.s actions ∧ r.1.1.s = pointer p.s actions := by
    have hexplains := (Opcode.perform_explains (bus.read p.pc).1 p).run (bus.read p.pc).2
    rw [instructionActions?, performNext_trace] at h
    rw [show r = _ from p.performNext_trace bus]
    exact hexplains actions h
  exact ⟨hpointer, hwrites ▸ p.performNext.run_ram bus⟩

theorem Processor.takeInterrupt_explains {p : Processor} {bus : Bus σ} {actions : List StackAction}
    (h : entryActions? p bus = some actions) :
    let r := p.takeInterrupt.run trace bus []
    r.1.s = pointer p.s actions ∧ r.2.1.ram = (bus.writeAll (writes p.s actions)).ram := by
  have hshows : p.takeInterrupt.Shows fun events p' =>
      StackUse.pushes.Explains p.s events p'.s := by
    rw [takeInterrupt, shows_bind]
    exact p.enterHandler_explains 0
  obtain ⟨hwrites, hpointer⟩ := hshows.run bus actions h
  exact ⟨hpointer, hwrites ▸ p.takeInterrupt.run_ram bus⟩

/-- Code that keeps the rules does to the list what its actions do. -/
theorem Code.stack {s s' : Processor × Bus σ} {actions : List StackAction} (h : Code s actions s')
    {base : Byte} (hbase : base.toNat < ramSize) {floor : Nat} {values : List Byte}
    (hstack : s.2.Stack base s.1.s values) (hobey : Obeys base floor values actions) :
    s'.2.Stack base s'.1.s (outstanding values actions) := by
  induction h generalizing values with
  | done => exact hstack
  | @instruction p bus actions rest s h _ ih =>
    obtain ⟨hfirst, hrest⟩ := obeys_append.1 hobey
    obtain ⟨hpointer, hram⟩ := Processor.performNext_explains h
    rw [outstanding, List.foldl_append]
    exact ih (hpointer ▸ hstack.acts hbase hfirst hram) hrest
  | @entry p bus actions rest s h _ ih =>
    obtain ⟨hfirst, hrest⟩ := obeys_append.1 hobey
    obtain ⟨hpointer, hram⟩ := Processor.takeInterrupt_explains h
    rw [outstanding, List.foldl_append]
    exact ih (hpointer ▸ hstack.acts hbase hfirst hram) hrest
  | @write p bus address value rest s _ ih =>
    have hfirst : Obeys base floor values [.write address value] := ⟨hobey.1, trivial⟩
    exact ih (hstack.acts hbase hfirst rfl) hobey.2
  | devices hram _ ih => exact ih (hstack.of_ram hram) hobey

/-! ### Which runs are code -/

theorem StackUse.actions?_isSome {use : StackUse} (h : use ≠ .loads) (events : List Event) :
    ∃ actions, use.actions? events = some actions := by
  cases use with
  | loads => exact absurd rfl h
  | none | pushes | pulls => exact ⟨_, rfl⟩

theorem Operation.eq_txs {o : Operation} (h : o.stackUse = .loads) :
    o = .implied (.transfer .txs) := by
  cases o with
  | implied op =>
    cases op with
    | transfer op =>
      cases op with
      | txs => rfl
      | tax | tay | txa | tya | tsx => cases h
    | stack op => cases op <;> cases h
    | brk | rti | rts | stp | nop | flag | count | clock => cases h
  | jump op => cases op <;> cases h
  | read | store | storeImmediate | modify | branchOnBit => cases h

/-- Turns among which S is never loaded are code. -/
theorem Turns.code {s s' : Processor × Bus σ × List Event} {turns : List (Processor × Turn)}
    (h : Turns trace s turns s')
    (htxs : ∀ opcode, Turn.instruction opcode ∈ turns.map Prod.snd →
      (Opcode.instruction opcode).operation ≠ .implied (.transfer .txs)) :
    ∃ actions, Code (s.1, s.2.1) actions (s'.1, s'.2.1) := by
  induction h with
  | done => exact ⟨[], .done _⟩
  | @entry p bus seen turns s' _ ih =>
    obtain ⟨actions, hentry⟩ : ∃ actions, entryActions? p bus = some actions := ⟨_, rfl⟩
    obtain ⟨rest, hrest⟩ := ih fun opcode hm => htxs opcode (List.mem_cons_of_mem _ hm)
    rw [run_trace] at hrest
    exact ⟨actions ++ rest, .entry hentry hrest⟩
  | @instruction p bus seen turns s' _ ih =>
    obtain ⟨actions, hactions⟩ := StackUse.actions?_isSome
      (fun hloads => htxs _ List.mem_cons_self (Operation.eq_txs hloads))
      (p.performNext.run trace bus []).2.2
    obtain ⟨rest, hrest⟩ := ih fun opcode hm => htxs opcode (List.mem_cons_of_mem _ hm)
    rw [run_trace] at hrest
    exact ⟨actions ++ rest, .instruction hactions hrest⟩

/-! ### Steps -/

/-- The byte that the operation pushes, if it does. -/
def StackOp.pushed? (op : StackOp) (p : Processor) : Option Byte :=
  match op with
  | .pha => some p.a
  | .php => some p.status
  | .pla | .plp => none

theorem StackOp.perform_of_pushed? {op : StackOp} {p : Processor} {value : Byte}
    (h : op.pushed? p = some value) : op.perform p = p.push value := by
  cases op with
  | pha | php =>
    obtain rfl := Option.some.inj h
    rfl
  | pla | plp => cases h

namespace Machine

/-- Whatever a machine is made to run is code if it does not load S. -/
theorem calls_code (m : Machine σ) {calls : List Call} (hc : ∀ call ∈ calls, call.takesTurns)
    (htxs : ∀ opcode, Turn.instruction opcode ∈ Event.turns (m.calls trace [] calls).2.2 →
      (Opcode.instruction opcode).operation ≠ .implied (.transfer .txs)) :
    ∃ actions, Code (m.core.processor, m.bus) actions
      ((m.afterAll calls).core.processor, (m.afterAll calls).bus) := by
  obtain ⟨turns, -, h⟩ := m.calls_turns trace [] hc
  rw [← m.calls_machine trace []]
  refine h.code fun opcode hm => htxs opcode ?_
  exact h.reported.symm ▸ List.mem_append_right _ hm

/-! ### Saving and restoring -/

theorem step_code {m : Machine σ} (hs : m.core.processor.stopped = false)
    {actions rest : List StackAction} {s : Processor × Bus σ}
    (h : instructionActions? m.core.processor m.bus = some actions)
    (hrest : Code ((m.after .step).core.processor, (m.after .step).bus) rest s) :
    Code (m.core.processor, m.bus) (actions ++ rest) s := by
  rw [← m.call_machine trace [], call_step trace [] hs] at hrest
  exact .instruction h hrest

section
variable {m : Machine σ} (hs : m.core.processor.stopped = false) {base value : Byte}
  {values : List Byte}
include hs

theorem step_push {op : StackOp} (hop : m.instruction.operation = .implied (.stack op))
    (hpushed : op.pushed? (m.core.processor.advance 1) = some value) (hbase : base.toNat < ramSize)
    (h : m.bus.Stack base m.core.processor.s values) (hroom : values.length ≤ base.toNat) :
    (m.after .step).core.processor =
        { m.core.processor.advance 1 with s := m.core.processor.s - 1 } ∧
      (m.after .step).bus.Stack base (m.after .step).core.processor.s (value :: values) := by
  obtain ⟨hprocessor, hbus⟩ := step_implied hs hop
  have hfetched := h.of_ram (m.bus.read_ram m.core.processor.pc)
  rw [hprocessor, hbus, Implied.perform, StackOp.perform_of_pushed? hpushed]
  exact ⟨rfl, hfetched.push hbase hroom value⟩

theorem step_pla (hop : m.instruction.operation = .implied (.stack .pla))
    (h : m.bus.Stack base m.core.processor.s (value :: values)) :
    (m.after .step).core.processor = Processor.load
        { m.core.processor.advance 1 with s := m.core.processor.s + 1 } value .a ∧
      (m.after .step).bus.Stack base (m.after .step).core.processor.s values := by
  obtain ⟨hprocessor, hbus⟩ := step_implied hs hop
  have hfetched := h.of_ram (m.bus.read_ram m.core.processor.pc)
  have hpulled := Processor.pull_run (p := m.core.processor.advance 1) trace hfetched.pull.1 []
  rw [hprocessor, hbus, Implied.perform, StackOp.perform, run_bind, hpulled]
  exact ⟨rfl, hfetched.pull.2⟩

theorem step_plp (hop : m.instruction.operation = .implied (.stack .plp))
    (h : m.bus.Stack base m.core.processor.s (value :: values)) :
    (m.after .step).core.processor = { m.core.processor.advance 1 with
        s := m.core.processor.s + 1
        flags := Flags.unpack value } ∧
      (m.after .step).bus.Stack base (m.after .step).core.processor.s values := by
  obtain ⟨hprocessor, hbus⟩ := step_implied hs hop
  have hfetched := h.of_ram (m.bus.read_ram m.core.processor.pc)
  have hpulled := Processor.pull_run (p := m.core.processor.advance 1) trace hfetched.pull.1 []
  rw [hprocessor, hbus, Implied.perform, StackOp.perform, Processor.pullFlags, run_bind, hpulled]
  exact ⟨rfl, hfetched.pull.2⟩

end

/-- Between `m` and `m'` A and the flags are saved: behind `m` come PHP, PHA and code that takes back
what it puts on the stack, and at `m'` come PLA and PLP. -/
structure Saves (m m' : Machine σ) (actions : List StackAction) : Prop where
  php : m.instruction.operation = .implied (.stack .php)
  pha : (m.after .step).instruction.operation = .implied (.stack .pha)
  code :
    let saved := (m.after .step).after .step
    Code (saved.core.processor, saved.bus) actions (m'.core.processor, m'.bus)
  obeys : Obeys m.core.processor.s 2 [m.core.processor.a, m.core.processor.status] actions
  balanced :
    (outstanding [m.core.processor.a, m.core.processor.status] actions).length = 2
  pla : m'.instruction.operation = .implied (.stack .pla)
  plp : (m'.after .step).instruction.operation = .implied (.stack .plp)

/-- What was saved is on the stack again. -/
theorem Saves.stack {m m' : Machine σ} {actions : List StackAction} (h : m.Saves m' actions)
    (hs : m.core.processor.stopped = false) (hlow : 1 ≤ m.core.processor.s.toNat)
    (hram : m.core.processor.s.toNat < ramSize) :
    m'.bus.Stack m.core.processor.s m'.core.processor.s
      [m.core.processor.a, m.core.processor.status] := by
  obtain ⟨hphp, hstatus⟩ := step_push hs h.php rfl hram (.empty m.bus hram) (Nat.zero_le _)
  obtain ⟨-, hsaved⟩ :=
    step_push (by rw [hphp]; exact hs) h.pha (by rw [hphp]; rfl) hram hstatus hlow
  have hstack : m'.bus.Stack m.core.processor.s m'.core.processor.s
      (outstanding [m.core.processor.a, m.core.processor.status] actions) :=
    h.code.stack hram hsaved h.obeys
  rwa [outstanding_balanced h.obeys h.balanced] at hstack

/-- The stack is a list. Whatever is pushed, pulled and written elsewhere, a pull returns the value
pushed last among those not pulled yet, S is below its start by their number, and pushes and pulls
leave the RAM above the start alone. So A, S and the flags survive code between PHP, PHA and PLA, PLP
that keeps the rules. -/
theorem stack_refines_list :
    (∀ (p : Processor) (bus : Bus σ) (before after : List StackAction), p.s.toNat ≤ 0x5F →
      Obeys p.s 0 [] (before ++ after) →
      let r := (performAll before p).run trace bus []
      let values := outstanding [] before
      (r.1.s.toNat : Int) = (p.s.toNat - values.length) % 256 ∧
      ∀ action rest, after = action :: rest →
        let r' := (action.perform r.1).run trace r.2.1 []
        (action = .pull → ∃ value, values.head? = some value ∧ r'.1.1 = some value) ∧
        ((∀ address value, action ≠ .write address value) →
          ∀ cell, p.s.toNat < cell → r'.2.1.ram[cell]? = r.2.1.ram[cell]?)) ∧
    ∀ {m m' : Machine σ} {actions : List StackAction},
      m.core.processor.stopped = false → m'.core.processor.stopped = false →
      1 ≤ m.core.processor.s.toNat → m.core.processor.s.toNat ≤ 0x5F → m.Saves m' actions →
      let p := ((m'.after .step).after .step).core.processor
      p.a = m.core.processor.a ∧ p.s = m.core.processor.s ∧ p.flags = m.core.processor.flags := by
  refine ⟨fun p bus before after hhigh hobey => ?_, fun {m m' actions} hs hs' hlow hhigh h => ?_⟩
  · obtain ⟨hbefore, hafter⟩ := obeys_append.1 hobey
    have hram := Nat.lt_succ_of_le hhigh
    have hstack := performAll_stack hram (.empty bus hram) hbefore
    refine ⟨hstack.toNat_pointer, ?_⟩
    rintro action rest rfl
    obtain ⟨hallowed, -⟩ := hafter
    obtain ⟨hanswer, habove⟩ := perform_allowed hram hstack hallowed
    refine ⟨?_, habove⟩
    rintro rfl
    obtain ⟨value, below, hvalues⟩ := List.exists_cons_of_length_pos hallowed
    have hvalue : (outstanding [] before).head? = some value := congrArg List.head? hvalues
    exact ⟨value, hvalue, hanswer.trans hvalue⟩
  · have hstack := h.stack hs hlow (Nat.lt_succ_of_le hhigh)
    obtain ⟨hpla, hstatus⟩ := step_pla hs' h.pla hstack
    obtain ⟨hplp, hempty⟩ := step_plp (by rw [hpla]; exact hs') h.plp hstatus
    refine ⟨?_, hempty.eq_base, ?_⟩
    · rw [hplp, hpla]
      rfl
    · rw [hplp]
      exact m.core.processor.flags.unpack_pack

/-- PHP, PHA, the call of a routine that loads A, PLA and PLP. -/
def savingBytes : List Byte :=
  [0x08, 0x48, 0x20, 0x18, 0x00, 0x68, 0x28, 0x00, 0xA9, 0x80, 0x60]

/-- At PHP in RAM, with room for four bytes on the stack. -/
def saving : Machine Unconnected :=
  (fresh {}).afterAll
    (savingBytes.mapIdx (fun k value => .write (UInt16.ofNat (0x10 + k)) value) ++
      [.set (.pc 0x10), .set (.stackPointer 3), .set (.register .a 7), .set (.status 0xCB)])

/-- At PLA. -/
def restoring : Machine Unconnected :=
  ((((saving.after .step).after .step).after .step).after .step).after .step

/-- The call fills the stack, so that S wraps, and its return makes the room again. -/
def callActions : List StackAction := [.push 0x00, .push 0x14, .pull, .pull]

theorem saves_saving : saving.Saves restoring callActions := by
  let calling := (saving.after .step).after .step
  obtain ⟨⟨hphp, hpha, hpla, hplp⟩, hcall, hload, hreturn⟩ :
      (saving.instruction.operation = .implied (.stack .php) ∧
        (saving.after .step).instruction.operation = .implied (.stack .pha) ∧
        restoring.instruction.operation = .implied (.stack .pla) ∧
        (restoring.after .step).instruction.operation = .implied (.stack .plp)) ∧
      (calling.core.processor.stopped = false ∧
        instructionActions? calling.core.processor calling.bus = some [.push 0x00, .push 0x14]) ∧
      ((calling.after .step).core.processor.stopped = false ∧
        instructionActions? (calling.after .step).core.processor (calling.after .step).bus =
          some []) ∧
      ((calling.after .step).after .step).core.processor.stopped = false ∧
        instructionActions? ((calling.after .step).after .step).core.processor
          ((calling.after .step).after .step).bus = some [.pull, .pull] := by
    decide +kernel
  have hrestoring : restoring = ((calling.after .step).after .step).after .step := rfl
  have hcode : Code (calling.core.processor, calling.bus) callActions
      (restoring.core.processor, restoring.bus) := by
    rw [hrestoring]
    refine step_code hcall.1 hcall.2 (step_code hload.1 hload.2 ?_)
    exact step_code hreturn.1 hreturn.2 (.done _)
  exact ⟨hphp, hpha, hcode, by decide +kernel, by decide +kernel, hpla, hplp⟩

/-- A stack that is full, and one that is full meanwhile. -/
theorem stack_refines_list_full :
    let actions : List StackAction := [.push 1, .write 0x03 9, .push 2, .push 3]
    let bus : Bus Unconnected := { devices := {} }
    let full := (performAll actions { s := 2 }).run trace bus []
    Obeys 2 0 [] (actions ++ [.pull]) ∧ full.1.s = 0xFF ∧
      ((StackAction.perform .pull full.1).run trace full.2.1 []).1.1 = some 3 ∧
      (saving.core.processor.stopped = false ∧ restoring.core.processor.stopped = false ∧
        saving.core.processor.s = 3) ∧
      saving.Saves restoring callActions ∧
      restoring.core.processor.a = 0x80 ∧
      ((restoring.after .step).after .step).core.processor.a = 7 ∧
      ((restoring.after .step).after .step).core.processor.flags = Flags.unpack 0xCB := by
  intro actions bus full
  obtain ⟨hs, hs', hpointer, ha, hflags, hloaded⟩ : saving.core.processor.stopped = false ∧
      restoring.core.processor.stopped = false ∧ saving.core.processor.s = 3 ∧
      saving.core.processor.a = 7 ∧ saving.core.processor.flags = Flags.unpack 0xCB ∧
      restoring.core.processor.a = 0x80 := by
    decide +kernel
  obtain ⟨hlist, hsaves⟩ := @stack_refines_list Unconnected _
  obtain ⟨hfull, hpull⟩ := hlist { s := 2 } bus actions [.pull] (by decide) (by decide)
  obtain ⟨value, hvalue, hpulled⟩ := (hpull .pull [] rfl).1 rfl
  obtain ⟨hrestored, -, hflagged⟩ := hsaves hs hs' (by rw [hpointer]; decide)
    (by rw [hpointer]; decide) saves_saving
  refine ⟨by decide, ?_, ?_, ⟨hs, hs', hpointer⟩, saves_saving, hloaded, ?_, ?_⟩
  · have hwrapped : (((2 : Byte).toNat : Int) - (outstanding [] actions).length) % 256 = 255 := by
      decide
    have hlast : (full.1.s.toNat : Int) = 255 := hfull.trans hwrapped
    have : (0xFF : Byte).toNat = 255 := rfl
    exact UInt8.toNat_inj.1 (by omega)
  · have htop : (outstanding [] actions).head? = some 3 := rfl
    exact hpulled.trans (hvalue.symm.trans htop)
  · exact hrestored.trans ha
  · exact hflagged.trans hflags

end Machine

end

end M740
