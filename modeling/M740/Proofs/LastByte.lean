import M740.Proofs.Handlers
import M740.Proofs.Names
import M740.Proofs.Stores

/-!
# The last byte of an instruction

Calls save the address of their own last byte, and STP reports it. The program counter is past that
byte already, and they count back from it in sixteen bits. That leads to the byte unless it is the
last one of the address space: from address zero it leads to `0xFFFF`, where all sixteen bits are set
and not only the thirteen of an address (`Processor.previous_advance`).
-/

namespace M740

open Program

/-! ### Counting back -/

/-- The word that is found by counting back in sixteen bits to the last byte of an instruction, which
is at the address `last`. -/
def Word.countedBack (last : Nat) : Word := if last = 0x1FFF then 0xFFFF else UInt16.ofNat last

namespace Word

variable {last : Nat} (h : last < 0x2000)
include h

theorem toNat_countedBack : (countedBack last).toNat = if last = 0x1FFF then 0xFFFF else last := by
  unfold countedBack
  split
  · rfl
  · exact UInt16.toNat_ofNat_of_lt (Nat.lt_trans h (by decide))

theorem toNat_countedBack_eq_iff : (countedBack last).toNat = last ↔ last ≠ 0x1FFF := by
  rw [toNat_countedBack h]
  split <;> omega

theorem high_countedBack_le_iff : (high (countedBack last)).toNat ≤ 0x1F ↔ last ≠ 0x1FFF := by
  rw [high, UInt8.toNat_ofNat', toNat_countedBack h]
  split <;> omega

/-- On the address lines the word leads to the last byte in any case. -/
theorem toNat_ofWord_countedBack : (Address.ofWord (countedBack last)).toNat = last := by
  rw [Address.ofWord, BitVec.toNat_ofNat, toNat_countedBack h]
  split <;> omega

end Word

theorem Processor.previous_advance (p : Processor) {size : Nat} (hsize : 1 ≤ size) :
    (p.advance size).previous = Word.countedBack ((p.pc.toNat + size - 1) % 0x2000) := by
  have hpc : (p.advance size).pc.toNat = (p.pc.toNat + size) % 0x2000 := by
    rw [advance, BitVec.toNat_add, BitVec.toNat_ofNat]
    omega
  apply UInt16.toNat_inj.1
  rw [previous, UInt16.toNat_sub, UInt16.toNat_one, Address.toNat_toWord, hpc,
    Word.toNat_countedBack (Nat.mod_lt _ (by decide))]
  split <;> omega

theorem Instruction.size_pos (i : Instruction) : 1 ≤ i.size := Nat.le_add_right 1 _

theorem Opcode.size_stp : ∀ opcode : Byte, (instruction opcode).operation = .implied .stp →
    (instruction opcode).size = 1 := by
  decide +kernel

/-- The three high bits of an address in a word are clear. -/
theorem Address.high_toWord_le (a : Address) : (Word.high (toWord a)).toNat ≤ 0x1F := by
  have := a.isLt
  rw [Word.high, UInt8.toNat_ofNat', toNat_toWord]
  omega

theorem Event.records_append (σ : Type) [Device σ] (limit : Level) (xs ys : List Event) :
    records σ limit (xs ++ ys) = records σ limit xs ++ records σ limit ys := by
  simp only [records, List.filterMap_append, List.filter_append, List.map_append]

namespace Machine

variable {σ : Type} [Device σ] {m : Machine σ}

/-! ### Calls -/

/-- What a call stores, the high byte first. -/
theorem stores_call (hop : m.instruction.operation = .jump .call) :
    let p := m.core.processor
    let word := Word.countedBack ((p.pc.toNat + m.instruction.size - 1) % 0x2000)
    m.stores =
      [(Address.zeroPage p.s, Word.high word), (Address.zeroPage (p.s - 1), Word.low word)] := by
  rw [stores, Instruction.stores, hop, Processor.previous_advance _ m.instruction.size_pos]

/-- A call leaves what it stores in two slots that lie in the RAM. -/
theorem ram_step_call (hs : m.core.processor.stopped = false)
    (hop : m.instruction.operation = .jump .call) (hlow : 1 ≤ m.core.processor.s.toNat)
    (hhigh : m.core.processor.s.toNat ≤ 0x5F) :
    let p := m.core.processor
    let word := Word.countedBack ((p.pc.toNat + m.instruction.size - 1) % 0x2000)
    (m.after .step).bus.ram[p.s.toNat]? = some (Word.high word) ∧
      (m.after .step).bus.ram[p.s.toNat - 1]? = some (Word.low word) := by
  have hbus : (m.call trace [] .step).2.1.bus = _ := (stores_step hs).bus
  have honce : (m.stores.map Prod.fst).Nodup := m.map_fst_stores ▸ Instruction.nodup_footprint ..
  have hstored : ∀ w ∈ m.stores, w.1.toNat < ramSize →
      (m.after .step).bus.ram[w.1.toNat]? = some w.2 := by
    rw [← m.call_machine trace [], hbus]
    exact fun w hw hram => Bus.writeAll_ram_of_mem _ honce hw hram
  simp only [stores_call hop, List.forall_mem_cons, Address.toNat_zeroPage,
    Bus.toNat_sub_one_of_pos hlow] at hstored
  obtain ⟨hfirst, hsecond, -⟩ := hstored
  exact ⟨hfirst (Nat.lt_succ_of_le hhigh), hsecond (Nat.lt_succ_of_le (by omega))⟩

/-! ### Stops -/

/-- A step over STP reports the fetch and then the stop. -/
theorem step_stp (hs : m.core.processor.stopped = false)
    (hop : m.instruction.operation = .implied .stp) :
    let p := m.core.processor
    (m.call trace [] .step).2.2 =
      [.read p.pc m.opcode, .note (.fetch p m.opcode), .note (.stop (p.advance 1).previous)] := by
  rw [step_trace hs, Opcode.perform_implied hop]
  rfl

/-- A reader who asks for debug records sees one of the stop, behind those of the access. -/
theorem records_step_stp (hs : m.core.processor.stopped = false)
    (hop : m.instruction.operation = .implied .stp) :
    let p := m.core.processor
    Event.records σ .debug (m.call trace [] .step).2.2 =
      Event.records σ .debug [.read p.pc m.opcode] ++
        ["DEBUG STP at 0x" ++ Hex.word (Word.countedBack p.pc.toNat)] := by
  intro p
  have hlast : (p.pc.toNat + 1 - 1) % 0x2000 = p.pc.toNat := by
    have := p.pc.isLt
    omega
  rw [step_stp hs hop, Processor.previous_advance _ (Nat.le_refl 1), hlast]
  -- Of the two notes behind the access, the fetch is too fine for this reader.
  exact Event.records_append σ .debug [_] [_, _]

/-- What calls save and STP reports is the address of their last byte, unless it is the last one of
the address space. Entries of the handler save thirteen bits in any case. -/
theorem step_lastByte (hs : m.core.processor.stopped = false) :
    let p := m.core.processor
    let last := (p.pc.toNat + m.instruction.size - 1) % 0x2000
    let word := Word.countedBack last
    let events := (m.call trace [] .step).2.2
    (word.toNat = last ↔ last ≠ 0x1FFF) ∧
      ((Word.high word).toNat ≤ 0x1F ↔ last ≠ 0x1FFF) ∧
      (Address.ofWord word).toNat = last ∧
      (m.instruction.operation = .jump .call → 1 ≤ p.s.toNat → p.s.toNat ≤ 0x5F →
        m.instruction.mode ∈ [Mode.absolute, .specialPage, .zeroPageIndirect] ∧
        Event.writes events =
          [(Address.zeroPage p.s, Word.high word), (Address.zeroPage (p.s - 1), Word.low word)] ∧
        (m.after .step).bus.ram[p.s.toNat]? = some (Word.high word) ∧
        (m.after .step).bus.ram[p.s.toNat - 1]? = some (Word.low word)) ∧
      (m.instruction.operation = .implied .stp →
        last = p.pc.toNat ∧
        Event.records σ .debug events = Event.records σ .debug [.read p.pc m.opcode] ++
          ["DEBUG STP at 0x" ++ Hex.word word] ∧
        (Hex.word word = Hex.word (Address.toWord p.pc) ↔ last ≠ 0x1FFF)) ∧
      ∀ {call : Call} {returns : Address} {marker : Byte}, m.Enters call returns marker →
        2 ≤ p.s.toNat → p.s.toNat ≤ 0x5F →
        ∃ high, (m.after call).bus.ram[p.s.toNat]? = some high ∧ high.toNat ≤ 0x1F := by
  intro p last word events
  have hlt : last < 0x2000 := Nat.mod_lt _ (by decide)
  refine ⟨Word.toNat_countedBack_eq_iff hlt, Word.high_countedBack_le_iff hlt,
    Word.toNat_ofWord_countedBack hlt, fun hop hlow hhigh => ?_, fun hop => ?_,
    fun {call returns marker} henters hlow hhigh => ?_⟩
  · exact ⟨Opcode.mode_call _ hop, (stores_step hs).writes.trans (stores_call hop),
      ram_step_call hs hop hlow hhigh⟩
  · have hlast : last = p.pc.toNat := by
      have hpc := p.pc.isLt
      have hsize : m.instruction.size = 1 := Opcode.size_stp _ hop
      simp only [last, hsize]
      omega
    have hword : word = Address.toWord p.pc ↔ last ≠ 0x1FFF := by
      rw [← UInt16.toNat_inj, Address.toNat_toWord, ← hlast]
      exact Word.toNat_countedBack_eq_iff hlt
    refine ⟨hlast, ?_, ?_⟩
    · rw [records_step_stp hs hop, ← hlast]
    · rw [← String.toList_inj, Hex.toList_word_inj, hword]
  · have hentered := henters.entered hs hlow (Nat.lt_succ_of_le hhigh)
    exact ⟨_, hentered.high, Address.high_toWord_le returns⟩

/-- The reset vector leads to the first byte: a call of itself on the special page. Interrupts are
enabled. -/
def callingBelow : Machine Unconnected :=
  (fresh {}).afterAll [.setRom [0x22, 0xFC, 0xFC, 0x1F], .set (.status 0)]

/-- At STP, with one byte behind it. -/
def stoppingBelow : Machine Unconnected :=
  (fresh {}).afterAll [.setRom [0x42, 0x00], .set (.pc 0x1FFE)]

theorem step_lastByte_below :
    (callingBelow.core.processor.stopped = false ∧ callingBelow.core.processor.s = 0x5F ∧
        callingBelow.instruction = ⟨.jump .call, .specialPage⟩) ∧
      Event.writes (callingBelow.call trace [] .step).2.2 = [(0x5F, 0x1F), (0x5E, 0xFD)] ∧
      (callingBelow.after .step).bus.ram[0x5F]? = some 0x1F ∧
      callingBelow.Enters .interrupt 0x1FFC 0 ∧
      (∃ high, (callingBelow.after .interrupt).bus.ram[0x5F]? = some high ∧ high.toNat ≤ 0x1F) ∧
      (stoppingBelow.core.processor.stopped = false ∧
        stoppingBelow.instruction.operation = .implied .stp) ∧
      Event.records Unconnected .debug (stoppingBelow.call trace [] .step).2.2 =
        ["DEBUG STP at 0x1FFE"] := by
  obtain ⟨hs, hpointer, hop, hpc, hi⟩ : callingBelow.core.processor.stopped = false ∧
      callingBelow.core.processor.s = 0x5F ∧
      callingBelow.instruction = ⟨.jump .call, .specialPage⟩ ∧
      callingBelow.core.processor.pc = 0x1FFC ∧
      callingBelow.core.processor.flags.i = false := by decide +kernel
  obtain ⟨hs', hop', hpc', hfetched⟩ : stoppingBelow.core.processor.stopped = false ∧
      stoppingBelow.instruction = ⟨.implied .stp, .implied⟩ ∧
      stoppingBelow.core.processor.pc = 0x1FFE ∧ stoppingBelow.opcode = 0x42 := by decide +kernel
  obtain ⟨-, -, -, hcalls, -, henters⟩ := step_lastByte hs
  obtain ⟨-, -, -, -, hstops, -⟩ := step_lastByte hs'
  rw [hpointer, hop, hpc] at hcalls
  rw [hpointer] at henters
  rw [hop', hpc', hfetched] at hstops
  obtain ⟨-, hwrites, hhigh, -⟩ := hcalls rfl (by decide) (by decide)
  obtain ⟨-, hrecords, -⟩ := hstops rfl
  have hentry : callingBelow.Enters .interrupt 0x1FFC 0 := hpc ▸ .hardware hi
  have hreport : Event.records Unconnected .debug [.read 0x1FFE 0x42] ++
      ["DEBUG STP at 0x" ++ Hex.word (Word.countedBack 0x1FFE)] = ["DEBUG STP at 0x1FFE"] := by
    decide +kernel
  exact ⟨⟨hs, hpointer, hop⟩, hwrites, hhigh, hentry, henters hentry (by decide) (by decide),
    ⟨hs', congrArg _ hop'⟩, hrecords.trans hreport⟩

/-- At a call of itself in the last three bytes of the address space, where the reset vector is. -/
def callingLast : Machine Unconnected := (fresh {}).afterAll [.setRom [0x20, 0xFD, 0x1F]]

/-- At STP in the last byte. -/
def stoppingLast : Machine Unconnected := (fresh {}).afterAll [.setRom [0x42], .set (.pc 0x1FFF)]

/-- The address `0x1FFF` is saved and reported as `0xFFFF`. -/
theorem lastByte_outside :
    callingLast.core.processor.stopped = false ∧ callingLast.core.processor.s = 0x5F ∧
      callingLast.instruction = ⟨.jump .call, .absolute⟩ ∧
      (callingLast.core.processor.pc.toNat + callingLast.instruction.size - 1) % 0x2000 = 0x1FFF ∧
      Event.writes (callingLast.call trace [] .step).2.2 = [(0x5F, 0xFF), (0x5E, 0xFF)] ∧
      (callingLast.after .step).bus.ram[0x5F]? = some 0xFF ∧
      stoppingLast.core.processor.stopped = false ∧
      stoppingLast.instruction.operation = .implied .stp ∧
      stoppingLast.core.processor.pc = 0x1FFF ∧
      Event.records Unconnected .debug (stoppingLast.call trace [] .step).2.2 =
        ["DEBUG STP at 0xFFFF"] := by
  decide +kernel

end Machine

end M740
