import M740.Proofs.Saving

/-!
# Resuming

A snapshot leaves nothing out: the core that it describes is the core that was captured
(`Snapshot.core_capture`), so any machine with the same ROM and the same devices that takes over
the stored snapshot becomes the machine that was saved (`Machine.load_snapshot`).
-/

namespace M740

namespace Snapshot

theorem clampBudget_eq {budget : Int} (hd : -maxOverdraw ≤ budget) (hn : budget ≤ 0) :
    clampBudget budget = budget := by
  rw [clampBudget, Int.min_eq_left hn, Int.max_eq_right hd]

theorem leftOver_ofNat (r : Fin Timing.ticksPerUnit) :
    Clock.leftOver (UInt8.ofNat r.val).toNat = r := by
  have h : r.val < 4 := r.isLt
  apply Fin.ext
  show (UInt8.ofNat r.val).toNat % 4 = r.val
  rw [UInt8.toNat_ofNat']
  omega

theorem core_capture (c : Core) (ram : Vector Byte ramSize) (hd : -maxOverdraw ≤ c.clock.budget)
    (hn : c.clock.budget ≤ 0) : (capture c ram).core = c := by
  have hmin := Int.le_trans minValue_le_maxOverdraw hd
  have hb : clampBudget (capture c ram).budget.toInt = c.clock.budget := by
    rw [capture_budget c ram hmin hn, clampBudget_eq hd hn]
  have hr : Clock.leftOver (capture c ram).clockRemainder.toNat = c.clock.remainder :=
    leftOver_ofNat _
  have hpc : Address.ofWord (capture c ram).pc = c.processor.pc := Address.ofWord_toWord _
  have hf : Flags.unpack (capture c ram).status = c.processor.flags := Flags.unpack_pack _
  rw [core, hb, hr, hpc, hf]
  rfl

end Snapshot

namespace Machine

variable {σ : Type}

theorem load_snapshot {m m' : Machine σ} (hd : -Snapshot.maxOverdraw ≤ m.core.clock.budget)
    (hn : m.core.clock.budget ≤ 0) (hrom : m'.bus.rom = m.bus.rom)
    (hdevices : m'.bus.devices = m.bus.devices) : m'.load m.snapshot.encode = .ok m := by
  have hmin := Int.le_trans Snapshot.minValue_le_maxOverdraw hd
  have hs : Snapshot.decode m.snapshot.encode = .ok m.snapshot :=
    (Snapshot.decode_encode_capture _ _ hmin hn).trans (if_neg (Int.not_lt.2 hd))
  have hc : m.snapshot.core = m.core := Snapshot.core_capture _ _ hd hn
  rw [load, hs]
  simp only [Except.map, restore, hc, hrom, hdevices]
  rfl

/-- A machine that takes over the stored snapshot of another, with the same ROM and the same
devices, does from then on what the other does: whatever is called, the answers are the same, the
bus is seen to be used in the same way, and the machines left behind are the same, with their
snapshots. -/
theorem resume [Device σ] {m m' : Machine σ} (hd : -Snapshot.maxOverdraw ≤ m.core.clock.budget)
    (hn : m.core.clock.budget ≤ 0) (hrom : m'.bus.rom = m.bus.rom)
    (hdevices : m'.bus.devices = m.bus.devices) :
    ∃ resumed, m'.load m.snapshot.encode = .ok resumed ∧
      ∀ {ω : Type} (observe : ω → Event → ω) (seen : ω) (calls : List Call),
        resumed.calls observe seen calls = m.calls observe seen calls :=
  ⟨m, load_snapshot hd hn hrom hdevices, fun _ _ _ => rfl⟩

/-- A machine that was just switched on, with the ROM and the devices of another. -/
def replacement (m : Machine σ) : Machine σ :=
  let blank := fresh m.bus.devices
  { blank with bus := { blank.bus with rom := m.bus.rom } }

theorem replacement_rom (m : Machine σ) : m.replacement.bus.rom = m.bus.rom := rfl

theorem replacement_devices (m : Machine σ) : m.replacement.bus.devices = m.bus.devices := rfl

/-- A replacement resumes a machine that was saved in a handler. -/
theorem resume_replacement :
    let m := (fresh ({} : Unconnected)).afterAll [.setRom reentrantImage, .runFor 7, .interrupt]
    m.core.clock.budget ≤ 0 ∧ -Snapshot.maxOverdraw ≤ m.core.clock.budget ∧
      m.replacement.bus.rom = m.bus.rom ∧ m.replacement.bus.devices = m.bus.devices ∧
      ∃ resumed, m.replacement.load m.snapshot.encode = .ok resumed ∧
        ∀ {ω : Type} (observe : ω → Event → ω) (seen : ω) (calls : List Call),
          resumed.calls observe seen calls = m.calls observe seen calls := by
  have hc : ∀ call ∈ [.setRom reentrantImage, .runFor 7, .interrupt], Call.clocked call := by
    decide
  have clocked := afterAll_clocked ({} : Unconnected) hc
  exact ⟨clocked.nonpos, clocked.overdraw, replacement_rom _, replacement_devices _,
    resume clocked.overdraw clocked.nonpos (replacement_rom _) (replacement_devices _)⟩

end Machine

end M740
