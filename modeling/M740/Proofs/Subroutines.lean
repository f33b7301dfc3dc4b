import M740.Proofs.StackList

/-!
# Subroutines

A call pushes the address of its own last byte, and RTS goes to the byte after the address that it
pulls. The address is counted in sixteen bits on the stack and in thirteen outside, which agree
where it matters: a call at the very end of the address space returns to address zero. Calls nest
as deep as there is room on the stack (`Machine.call_return`).
-/

namespace M740

open Program

variable {σ : Type} [Device σ]

/-! ### Reading before writing -/

/-- What is read outside the devices is what the bus shows there. -/
def ReadsMemory (b : Bus σ) (events : List Event) : Prop :=
  ∀ a value, .read a value ∈ events → a.deviceRegister? = none → value = b.peek a

omit [Device σ] in
theorem ReadsMemory.append {b : Bus σ} {xs ys : List Event} (hx : ReadsMemory b xs)
    (hy : ReadsMemory b ys) : ReadsMemory b (xs ++ ys) := by
  intro a value hm
  rcases List.mem_append.1 hm with hm | hm
  · exact hx a value hm
  · exact hy a value hm

namespace Program

variable {α : Type} {p : Program α}

theorem ReadOnly.ram_run (hp : p.ReadOnly) (bus : Bus σ) (seen : List Event) :
    (p.run trace bus seen).2.1.ram = bus.ram := by
  induction p generalizing bus seen with
  | done => rfl
  | read address _ ih => exact (ih _ (hp _) _ _).trans (bus.read_ram address)
  | write => cases hp
  | poll _ ih => exact ih _ (hp _) _ _
  | note _ _ ih => exact ih hp _ _

/-- Until something is written, reads find what the bus shows. -/
theorem ReadOnly.readsMemory (hp : p.ReadOnly) {b bus : Bus σ} (hb : ∀ a, bus.peek a = b.peek a)
    {seen : List Event} (hseen : ReadsMemory b seen) :
    ReadsMemory b (p.run trace bus seen).2.2 := by
  induction p generalizing bus seen with
  | done => exact hseen
  | read address _ ih =>
    refine ih _ (hp _) (fun a => (bus.peek_read address a).trans (hb a))
      (hseen.append fun a value hm hdevice => ?_)
    obtain ⟨rfl, rfl⟩ := Event.read.inj (List.mem_singleton.1 hm)
    exact (congrArg Prod.fst (bus.read_of_not_device hdevice)).trans (hb a)
  | write => cases hp
  | poll _ ih => exact ih _ (hp _) hb hseen
  | note n _ ih =>
    refine ih hp hb (hseen.append fun a value hm => ?_)
    cases List.mem_singleton.1 hm

end Program

/-! ### Calls -/

/-- What a call saves: the address before the one that it returns to, in sixteen bits. -/
def returnBytes (returns : Address) : List Byte :=
  let last := Address.toWord returns - 1
  [Word.low last, Word.high last]

namespace Opcode

theorem mode_call : ∀ opcode : Byte, (instruction opcode).operation = .jump .call →
    (instruction opcode).mode ∈ [Mode.absolute, .specialPage, .zeroPageIndirect] := by
  decide +kernel

/-- A call finds its target and then pushes. -/
theorem run_call {opcode : Byte} (h : (instruction opcode).operation = .jump .call) (p : Processor)
    (bus : Bus σ) : ∃ l : Locator,
      let next := p.advance (instruction opcode).size
      let found := (l.locate p).run trace bus []
      (perform opcode p).run trace bus [] =
        ({ processor := { next with s := p.s - 1 - 1, pc := found.1 } },
          (found.2.1.write (Address.zeroPage p.s) (Word.high next.previous)).write
            (Address.zeroPage (p.s - 1)) (Word.low next.previous),
          found.2.2 ++ [.write (Address.zeroPage p.s) (Word.high next.previous),
            .write (Address.zeroPage (p.s - 1)) (Word.low next.previous)]) := by
  have hoperation := (operation_plan opcode).trans h
  unfold perform
  cases hplan : plan opcode with
  | jump op l =>
    rw [hplan] at hoperation
    cases hoperation
    refine ⟨l, ?_⟩
    rw [Plan.perform, run_bind]
    exact Prod.ext rfl (Prod.ext rfl (List.append_assoc _ [_] [_]))
  | implied | modifyA | readImmediate | read | store | modify | storeImmediate | branchOnBitOfA
  | branchOnBitOfCell =>
    rw [hplan] at hoperation
    cases hoperation

end Opcode

namespace Instruction

variable {i : Instruction} (h : i.operation = .jump .call) (p : Processor) (b : Nat → Nat)
include h

theorem accesses_call : i.accesses p b = .read p.pc.toNat ::
    ((i.mode.lookups p b).map .read ++ [.write (stackCell p.s 0), .write (stackCell p.s (-1))]) := by
  have hoperand : (i.mode.effectiveAddress? p b).elim [] i.operation.access.accesses = [] := by
    rw [h]
    cases i.mode.effectiveAddress? p b <;> rfl
  rw [accesses, hoperand, h, List.append_nil]
  exact congrArg (_ :: · ++ _) (List.append_nil _)

theorem destinations_call : i.destinations p b = (i.mode.effectiveAddress? p b).toList := by
  rw [destinations, h]
  exact List.append_nil _

end Instruction

namespace Processor

variable {ω : Type} {p : Processor}

/-- RTS goes behind the address that it takes from the stack. -/
theorem rts_run (observe : ω → Event → ω) {bus : Bus σ} {returns : Address} {rest : List Byte}
    (h : bus.Holds p.s (returnBytes returns ++ rest)) (seen : ω) :
    let r := (Implied.perform .rts p).run observe bus seen
    r.1 = { p with s := p.s + 1 + 1, pc := returns } ∧ r.2.1 = bus := by
  obtain ⟨hlo, hhi, -⟩ := h
  have hnext : Address.ofWord (Address.toWord returns - 1 + 1) = returns := by
    rw [UInt16.sub_add_cancel, Address.ofWord_toWord]
  simp only [Implied.perform, pullWord, pull, fetch, read_bind, done_bind, pure_eq, run,
    Bus.read_of_ram hlo, Bus.read_of_ram hhi, Word.ofBytes_low_high, hnext]
  exact ⟨trivial, trivial⟩

end Processor

namespace Machine

/-- The address behind the instruction at the program counter. -/
def next (m : Machine σ) : Address := m.core.processor.pc + BitVec.ofNat 13 m.instruction.size

/-- A call has led from `m` to `m'`. Its target is what it found before it pushed anything. -/
structure Called (m m' : Machine σ) (events : List Event) : Prop where
  mode : m.instruction.mode ∈ [Mode.absolute, .specialPage, .zeroPageIndirect]
  target :
    let b := numbers (Event.loads events)
    m.instruction.mode.effectiveAddress? m.core.processor b = some m'.core.processor.pc.toNat
  accesses :
    let s := m.core.processor.s.toNat
    let b := numbers (Event.loads events)
    Event.accesses events = .read m.core.processor.pc.toNat ::
      ((m.instruction.mode.lookups m.core.processor b).map .read ++ [.write s, .write (s - 1)])
  memory : ReadsMemory m.bus events
  processor : m'.core.processor = { m.core.processor with
    s := m.core.processor.s - 2
    pc := m'.core.processor.pc }
  ram : ∀ cell, cell ≠ m.core.processor.s.toNat → cell + 1 ≠ m.core.processor.s.toNat →
    m'.bus.ram[cell]? = m.bus.ram[cell]?

theorem readsMemory_fetch (m : Machine σ) : ReadsMemory m.bus
    [.read m.core.processor.pc m.opcode, .note (.fetch m.core.processor m.opcode)] := by
  intro a value hm hdevice
  rcases List.mem_cons.1 hm with hm | hm
  · obtain ⟨rfl, rfl⟩ := Event.read.inj hm
    exact congrArg Prod.fst (m.bus.read_of_not_device hdevice)
  · cases List.mem_singleton.1 hm

/-- A step over a call reads, and then pushes the return address. -/
theorem step_call {m : Machine σ} (hs : m.core.processor.stopped = false)
    (hop : m.instruction.operation = .jump .call) :
    let p := m.core.processor
    let last := Address.toWord m.next - 1
    let r := m.call trace [] .step
    ∃ (bus : Bus σ) (reads : List Event),
      bus.ram = m.bus.ram ∧ ReadsMemory m.bus reads ∧
      r.2.1.core.processor = { p with s := p.s - 1 - 1, pc := r.2.1.core.processor.pc } ∧
      r.2.1.bus = (bus.write (Address.zeroPage p.s) (Word.high last)).write
        (Address.zeroPage (p.s - 1)) (Word.low last) ∧
      r.2.2 = reads ++ [.write (Address.zeroPage p.s) (Word.high last),
        .write (Address.zeroPage (p.s - 1)) (Word.low last)] := by
  intro p last r
  obtain ⟨l, hperform⟩ := Opcode.run_call hop p (m.bus.read p.pc).2
  let found := (l.locate p).run trace (m.bus.read p.pc).2 []
  have hreadonly := l.locate_readOnly p
  have hfound : ReadsMemory m.bus found.2.2 :=
    hreadonly.readsMemory (m.bus.peek_read p.pc) fun _ _ hm => nomatch hm
  have hr : r = _ := step_trace hs
  refine ⟨found.2.1, [.read p.pc m.opcode, .note (.fetch p m.opcode)] ++ found.2.2, ?_,
    m.readsMemory_fetch.append hfound, ?_⟩
  · exact (hreadonly.ram_run _ []).trans (m.bus.read_ram p.pc)
  · rw [hr, hperform]
    exact ⟨rfl, rfl, rfl⟩

/-- What a call leaves on a stack with room for it. -/
theorem stack_step_call {m : Machine σ} (hs : m.core.processor.stopped = false)
    (hop : m.instruction.operation = .jump .call) {base : Byte} {values : List Byte}
    (h : m.bus.Stack base m.core.processor.s values) (hbase : base.toNat < ramSize)
    (hroom : values.length + 1 ≤ base.toNat) :
    (m.after .step).bus.Stack base (m.after .step).core.processor.s
      (returnBytes m.next ++ values) := by
  obtain ⟨bus, reads, hram, -, hprocessor, hbus, -⟩ := step_call hs hop
  rw [← m.call_machine trace [], hprocessor, hbus]
  have hhigh := (h.of_ram hram).push hbase (by omega) (Word.high (Address.toWord m.next - 1))
  exact hhigh.push hbase hroom _

/-- RTS goes behind the call and takes its bytes from the stack. -/
theorem step_rts {m : Machine σ} (hs : m.core.processor.stopped = false)
    (hop : m.instruction.operation = .implied .rts) {returns : Address} {values : List Byte}
    (h : m.bus.Holds m.core.processor.s (returnBytes returns ++ values)) :
    (m.after .step).core.processor = { m.core.processor with
        s := m.core.processor.s + 1 + 1
        pc := returns } ∧
      (m.after .step).bus.ram = m.bus.ram := by
  obtain ⟨hprocessor, hbus⟩ := step_implied hs hop
  have hfetched := h.of_ram (m.bus.read_ram m.core.processor.pc)
  obtain ⟨hreturned, hkept⟩ :=
    Processor.rts_run (p := m.core.processor.advance 1) trace hfetched []
  rw [hprocessor, hbus, hreturned, hkept, Bus.read_ram]
  exact ⟨rfl, rfl⟩

theorem called {m : Machine σ} (hs : m.core.processor.stopped = false)
    (hop : m.instruction.operation = .jump .call) (hlow : 1 ≤ m.core.processor.s.toNat) :
    m.Called (m.after .step) (m.call trace [] .step).2.2 := by
  obtain ⟨bus, reads, hram, hreads, hprocessor, hbus, hevents⟩ := step_call hs hop
  have hone := Bus.toNat_sub_one_of_pos hlow
  have htwo : ∀ s : Byte, s - 1 - 1 = s - 2 := by decide +kernel
  obtain ⟨-, haccesses, hleads⟩ := m.core.processor.performNext_accesses m.bus
  have hdestinations := hleads (congrArg Operation.access hop)
  have hmade := haccesses.trans (Instruction.accesses_call hop _ _)
  have hsecond : stackCell m.core.processor.s (-1) = m.core.processor.s.toNat - 1 := by
    rw [← hone, ← stackCell_zero, stackCell_sub_one]
    rfl
  rw [stackCell_zero, hsecond] at hmade
  have hr : (m.call trace [] .step).2 = _ := congrArg Prod.snd (call_step trace [] hs)
  rw [← m.call_machine trace []]
  refine ⟨Opcode.mode_call _ hop, ?_, ?_, ?_, ?_, ?_⟩
  · rw [hr]
    exact Option.mem_toList.1 (Instruction.destinations_call hop _ _ ▸ hdestinations)
  · rw [hr]
    exact hmade
  · rw [hevents]
    refine hreads.append fun a value hm => ?_
    rcases List.mem_cons.1 hm with hm | hm
    · cases hm
    · cases List.mem_singleton.1 hm
  · rw [hprocessor, htwo]
  · intro cell hfirst hother
    rw [hbus, Bus.write_ram, Bus.write_ram, Address.toNat_zeroPage, Address.toNat_zeroPage, hone,
      if_neg (by omega), if_neg (by omega), hram]

/-! ### Nesting -/

/-- Calls and returns on a stack that began at `base`. The addresses are those that the pending calls
return to, the innermost first. In between, anything may happen that leaves S and the bytes above it
as they are. -/
inductive Nests (base : Byte) : List Address → Machine σ → Prop
  | outside {m : Machine σ} (h : m.core.processor.s = base) : Nests base [] m
  | call {pending : List Address} {m : Machine σ} (h : Nests base pending m)
    (hs : m.core.processor.stopped = false) (hop : m.instruction.operation = .jump .call)
    (hroom : 2 * pending.length + 2 ≤ base.toNat + 1) :
    Nests base (m.next :: pending) (m.after .step)
  | ret {returns : Address} {pending : List Address} {m : Machine σ}
    (h : Nests base (returns :: pending) m) (hs : m.core.processor.stopped = false)
    (hop : m.instruction.operation = .implied .rts) : Nests base pending (m.after .step)
  | between {pending : List Address} {m m' : Machine σ} (h : Nests base pending m)
    (hpointer : m'.core.processor.s = m.core.processor.s)
    (hcells : m.bus.SameCells m'.bus (base.toNat + 1 - 2 * pending.length) base.toNat) :
    Nests base pending m'

theorem length_flatMap_returnBytes (pending : List Address) :
    (pending.flatMap returnBytes).length = 2 * pending.length := by
  induction pending with
  | nil => rfl
  | cons returns rest ih =>
    rw [List.flatMap_cons, List.length_append, ih, List.length_cons]
    simp only [returnBytes, List.length_cons, List.length_nil]
    omega

/-- The stack holds the pending calls, and nothing else. -/
theorem Nests.stack {base : Byte} (hbase : base.toNat < ramSize) {pending : List Address}
    {m : Machine σ} (h : m.Nests base pending) :
    m.bus.Stack base m.core.processor.s (pending.flatMap returnBytes) := by
  induction h with
  | @outside m h =>
    rw [h]
    exact .empty m.bus hbase
  | @call pending m _ hs hop hroom ih =>
    rw [List.flatMap_cons]
    refine stack_step_call hs hop ih hbase ?_
    rw [length_flatMap_returnBytes]
    omega
  | @ret returns pending m _ hs hop ih =>
    rw [List.flatMap_cons] at ih
    obtain ⟨hprocessor, hram⟩ := step_rts hs hop ih.held
    rw [hprocessor]
    exact ih.pull.2.pull.2.of_ram hram
  | between _ hpointer hcells ih =>
    rw [hpointer]
    refine ih.congr ?_
    rwa [length_flatMap_returnBytes]

/-- Calls return to the instruction behind them, from whatever the subroutine did, and however deep
they are nested. -/
theorem call_return {m : Machine σ} (hs : m.core.processor.stopped = false) :
    (1 ≤ m.core.processor.s.toNat → m.core.processor.s.toNat ≤ 0x5F →
      m.instruction.operation = .jump .call →
      m.Called (m.after .step) (m.call trace [] .step).2.2 ∧
      ∀ m' : Machine σ, m'.core.processor.stopped = false →
        m'.core.processor.s = m.core.processor.s - 2 →
        (m.after .step).bus.SameCells m'.bus (m.core.processor.s.toNat - 1)
          m.core.processor.s.toNat →
        m'.instruction.operation = .implied .rts →
        (m'.after .step).core.processor =
            { m'.core.processor with s := m.core.processor.s, pc := m.next } ∧
          (m'.after .step).bus.ram = m'.bus.ram) ∧
    ∀ {base : Byte} {returns : Address} {pending : List Address}, base.toNat ≤ 0x5F →
      m.Nests base (returns :: pending) → m.instruction.operation = .implied .rts →
      (m.core.processor.s.toNat : Int) = (base.toNat - 2 * (returns :: pending).length) % 256 ∧
      (m.after .step).core.processor =
          { m.core.processor with s := m.core.processor.s + 2, pc := returns } ∧
        (m.after .step).bus.ram = m.bus.ram := by
  have hup : ∀ s : Byte, s + 1 + 1 = s + 2 := by decide +kernel
  refine ⟨fun hlow hhigh hop => ?_, fun {base returns pending} hbase hnests hop => ?_⟩
  · have hram := Nat.lt_succ_of_le hhigh
    have hcalled := called hs hop hlow
    refine ⟨hcalled, fun m' hs' hpointer hcells hop' => ?_⟩
    have hstack := stack_step_call hs hop (.empty m.bus hram) hram hlow
    have hback : ∀ s : Byte, s - 2 + 2 = s := by decide +kernel
    rw [hcalled.processor, ← hpointer] at hstack
    have hreturned := step_rts hs' hop' (hstack.congr hcells).held
    rwa [hup, hpointer, hback] at hreturned
  · have hstack := hnests.stack (Nat.lt_succ_of_le hbase)
    have hpointer := hstack.toNat_pointer
    rw [length_flatMap_returnBytes] at hpointer
    rw [List.flatMap_cons] at hstack
    rw [← hup]
    exact ⟨by omega, step_rts hs hop hstack.held⟩

/-- RTS, and in the last two bytes of the address space a call of it. -/
def callImage : List Byte := [0x60, 0x02, 0x5E]

/-- At the call. Its pointer lies where the return address goes. -/
def calling : Machine Unconnected :=
  (fresh {}).afterAll [.setRom callImage, .set (.pc 0x1FFE), .write 0x5E 0xFD, .write 0x5F 0x1F]

/-- The call goes where the pointer led before, and returns to the beginning of the address space. -/
theorem call_return_calling :
    (calling.core.processor.stopped = false ∧ calling.core.processor.s = 0x5F ∧
        calling.instruction = ⟨.jump .call, .zeroPageIndirect⟩) ∧
      calling.Called (calling.after .step) (calling.call trace [] .step).2.2 ∧
      (calling.after .step).core.processor.pc = 0x1FFD ∧
      (calling.after .step).bus.ram[0x5F]? = some 0xFF ∧
      (calling.after .step).Nests 0x5F [0x0000] ∧
      ((calling.after .step).after .step).core.processor =
        { calling.core.processor with pc := 0x0000 } := by
  obtain ⟨hs, hpointer, hop, hnext⟩ : calling.core.processor.stopped = false ∧
      calling.core.processor.s = 0x5F ∧ calling.instruction = ⟨.jump .call, .zeroPageIndirect⟩ ∧
      calling.next = 0x0000 := by decide +kernel
  obtain ⟨htarget, hpushed, hs', hop'⟩ : (calling.after .step).core.processor.pc = 0x1FFD ∧
      (calling.after .step).bus.ram[0x5F]? = some 0xFF ∧
      (calling.after .step).core.processor.stopped = false ∧
      (calling.after .step).instruction.operation = .implied .rts := by decide +kernel
  have hcall := congrArg Instruction.operation hop
  have hnests : (calling.after .step).Nests 0x5F [0x0000] :=
    hnext ▸ (Nests.outside hpointer).call hs hcall (by decide)
  obtain ⟨hcalled, -⟩ :=
    (call_return hs).1 (by rw [hpointer]; decide) (by rw [hpointer]; decide) hcall
  obtain ⟨-, hreturned, -⟩ := (call_return hs').2 (by decide) hnests hop'
  refine ⟨⟨hs, hpointer, hop⟩, hcalled, htarget, hpushed, hnests, ?_⟩
  rw [hreturned, hcalled.processor, hpointer]
  rfl

end Machine

end M740
