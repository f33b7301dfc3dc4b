import M740.Proofs.Debt
import M740.Proofs.Reentry
import M740.Proofs.StoredForm

/-!
# Saving machines

A snapshot that a machine captures is stored in a form that can be read back, unless the machine
owes more than `maxOverdraw` (`Snapshot.decode_encode_capture`). Hosts that make no single steps
never owe that much. Those that make them can: an interrupt is charged, and the handler can enable
the next one in a step that pays for nothing (`Machine.decode_encode_rounds`).
-/

namespace M740

namespace Snapshot

theorem maxOverdraw_eq : maxOverdraw = 16 := by
  rw [maxOverdraw, Timing.maxCharge_eq, Timing.interruptCost]

/-- Every debt that is stored fits into the budget of a snapshot. -/
theorem minValue_le_maxOverdraw : Int64.minValue.toInt ≤ -maxOverdraw := by
  rw [maxOverdraw_eq]
  decide

variable (c : Core) (ram : Vector Byte ramSize)

theorem capture_pc_le : (capture c ram).pc ≤ 0x1FFF := by
  have := c.processor.pc.isLt
  rw [UInt16.le_iff_toNat_le]
  simp [capture, Address.toWord]
  omega

theorem capture_status : (capture c ram).status &&& breakMarker = 0 := by
  show c.processor.flags.pack &&& breakMarker = 0
  obtain ⟨n, v, t, d, i, z, c⟩ := c.processor.flags
  revert n v t d i z c
  decide

theorem capture_clockRemainder_lt :
    (capture c ram).clockRemainder.toNat < Timing.ticksPerUnit := by
  have h : c.clock.remainder.val < 4 := c.clock.remainder.isLt
  simp only [capture, UInt8.toNat_ofNat']
  show c.clock.remainder.val % 256 < 4
  omega

theorem capture_budget (hmin : Int64.minValue.toInt ≤ c.clock.budget) (hn : c.clock.budget ≤ 0) :
    (capture c ram).budget.toInt = c.clock.budget :=
  Int64.toInt_ofInt_of_le hmin (by omega)

theorem fault?_capture :
    (capture c ram).fault? (capture c ram).stopped.toUInt8 =
      if (capture c ram).budget.toInt < -maxOverdraw ∨ 0 < (capture c ram).budget.toInt then
        some .budget
      else none := by
  have hpc : ¬ 0x1FFF < (capture c ram).pc := UInt16.not_lt.2 (capture_pc_le c ram)
  have hlatch : ∀ latch : Bool, ¬ 1 < latch.toUInt8 := by decide
  have hr := Nat.not_le.2 (capture_clockRemainder_lt c ram)
  simp only [fault?, hpc, capture_status, hlatch, hr, ne_eq, not_true_eq_false, if_false]

/-- What a machine captures can be read back unless its debt is too deep. -/
theorem decode_encode_capture (hmin : Int64.minValue.toInt ≤ c.clock.budget)
    (hn : c.clock.budget ≤ 0) :
    decode (capture c ram).encode =
      if c.clock.budget < -maxOverdraw then .error (.impossible .budget)
      else .ok (capture c ram) := by
  rw [decode_encode, fault?_capture, capture_budget c ram hmin hn]
  simp only [Int.not_lt.2 hn, or_false]
  by_cases hd : c.clock.budget < -maxOverdraw <;> simp only [hd, if_true, if_false]

end Snapshot

/-- The calls that only drive a machine, and put nothing into its processor or its memory. -/
def Call.drives : Call → Bool
  | .setRom _ | .reset | .runFor _ | .step | .interrupt => true
  | _ => false

theorem Call.clocked_of_drives {call : Call} (h : call.drives) (hs : call ≠ .step) :
    call.clocked := by
  cases call with
  | step => exact absurd rfl hs
  | setRom | reset | runFor | interrupt => rfl
  | read | write | set | restore => cases h

theorem Core.Clocked.overdraw {c : Core} (h : c.Clocked) :
    -Snapshot.maxOverdraw ≤ c.clock.budget := by
  have := h.debt
  rw [Snapshot.maxOverdraw]
  omega

namespace Machine

variable {σ : Type} [Device σ]

theorem afterAll_clocked (devices : σ) {calls : List Call} (hc : ∀ call ∈ calls, call.clocked) :
    ((fresh devices).afterAll calls).core.Clocked :=
  afterAll_core (fun _ _ hk h => h.answer hk) Core.Clocked.initial hc

/-- From the third entry on, a machine that enters its handler again after every step owes too
much to be saved. -/
theorem decode_encode_rounds (devices : σ) {n : Nat} (hn : 3 ≤ n) (hmax : 7 * n < 2 ^ 63) :
    let m := (fresh devices).afterAll (.setRom reentrantImage :: (List.replicate n round).flatten)
    m.core.clock.budget = -7 * n ∧
      Snapshot.decode m.snapshot.encode = .error (.impossible .budget) := by
  intro m
  have hb : m.core.clock.budget = -7 * n := by
    have hclock := ((fresh devices).after_setRom reentrantImage).2.2.2
    have hzero : (fresh devices).core.clock.budget = 0 := rfl
    simp only [m, afterAll_cons, (fresh devices).reentrant_setRom.afterAll_rounds, hclock, hzero,
      Timing.interruptCost]
    omega
  have hmin := Int64.toInt_minValue
  have hdebt := Snapshot.maxOverdraw_eq
  refine ⟨hb, ?_⟩
  rw [snapshot, Snapshot.decode_encode_capture _ _ (by omega) (by omega), if_pos (by omega)]

/-- Whether a driven machine can be saved is a matter of its debt alone, and only single steps let
the debt grow too deep. -/
theorem decode_encode_snapshot (devices : σ) {calls : List Call}
    (hd : ∀ call ∈ calls, call.drives) :
    let m := (fresh devices).afterAll calls
    let s := m.snapshot
    m.core.clock.budget ≤ 0 ∧
      s.clockRemainder.toNat < 4 ∧
      s.pc ≤ 0x1FFF ∧
      s.status &&& 0x10 = 0 ∧
      (Int64.minValue.toInt ≤ m.core.clock.budget →
        Snapshot.decode s.encode =
          if m.core.clock.budget < -(Snapshot.maxOverdraw : Int) then .error (.impossible .budget)
          else .ok s) ∧
      (.step ∉ calls → -(Snapshot.maxOverdraw : Int) ≤ m.core.clock.budget) := by
  intro m s
  have hn : m.core.clock.budget ≤ 0 := ((Reachable.fresh devices).afterAll calls).budget_nonpos
  refine ⟨hn, Snapshot.capture_clockRemainder_lt _ _, Snapshot.capture_pc_le _ _,
    Snapshot.capture_status _ _, fun hmin => Snapshot.decode_encode_capture _ _ hmin hn, ?_⟩
  intro hs
  have hc : ∀ call ∈ calls, call.clocked := fun call hm =>
    Call.clocked_of_drives (hd call hm) fun he => hs (he ▸ hm)
  exact (afterAll_clocked devices hc).overdraw

/-- A run and the interrupt after it can be saved. -/
theorem decode_encode_snapshot_runFor :
    let calls : List Call := [.setRom reentrantImage, .runFor 7, .interrupt]
    let m := (fresh ({} : Unconnected)).afterAll calls
    (∀ call ∈ calls, call.drives) ∧ Snapshot.decode m.snapshot.encode = .ok m.snapshot := by
  have hd : ∀ call ∈ [.setRom reentrantImage, .runFor 7, .interrupt], Call.drives call := by decide
  have h := decode_encode_snapshot ({} : Unconnected) hd
  have hb := h.2.2.2.2.2 (by decide)
  have hdecode := h.2.2.2.2.1 (Int.le_trans Snapshot.minValue_le_maxOverdraw hb)
  exact ⟨hd, hdecode.trans (if_neg (Int.not_lt.2 hb))⟩

/-- Three interrupts, with a step between each two, are more than a stored snapshot can owe. -/
theorem decode_encode_snapshot_step :
    let calls : List Call :=
      [.setRom reentrantImage, .step, .interrupt, .step, .interrupt, .step, .interrupt]
    let m := (fresh ({} : Unconnected)).afterAll calls
    (∀ call ∈ calls, call.drives) ∧ m.core.clock.budget = -21 ∧
      Snapshot.decode m.snapshot.encode = .error (.impossible .budget) := by
  have h := decode_encode_rounds ({} : Unconnected) (n := 3) (by decide) (by decide)
  have rounds : (List.replicate 3 round).flatten =
      [.step, .interrupt, .step, .interrupt, .step, .interrupt] := rfl
  rw [rounds] at h
  exact ⟨by decide, h⟩

end Machine

end M740
