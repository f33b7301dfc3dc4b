import Mathlib.Logic.Basic
import M740.Proofs.Resuming

/-!
# Normalizing

A core that takes over a snapshot brings the values into range, and the checks on stored snapshots
refuse values that are out of range. Both draw the line at the same place: a core shows the normal
form of the snapshot that it has taken over (`Snapshot.capture_core`), and a stored snapshot is
refused for the first field in which it differs from its normal form
(`Snapshot.fault?_eq_firstChanged?`).
-/

namespace M740

namespace Snapshot

/-- The snapshot with every value brought into range. -/
def normalize (s : Snapshot) : Snapshot :=
  { s with
    pc := s.pc &&& 0x1FFF
    status := s.status &&& ~~~breakMarker
    budget := max (-Int64.ofNat maxOverdraw) (min s.budget 0)
    clockRemainder := s.clockRemainder % 4 }

/-- The values of the fields are such as a machine has. -/
structure InRange (s : Snapshot) : Prop where
  pc : s.pc ≤ 0x1FFF
  status : s.status &&& breakMarker = 0
  clockRemainder : s.clockRemainder.toNat < Timing.ticksPerUnit
  overdraw : -maxOverdraw ≤ s.budget.toInt
  nonpos : s.budget.toInt ≤ 0

variable (s : Snapshot)

/-! ### One field after the other -/

theorem toNat_pc_normalize : s.normalize.pc.toNat = s.pc.toNat % 0x2000 :=
  (UInt16.toNat_and ..).trans (Nat.and_two_pow_sub_one_eq_mod _ 13)

theorem toInt_max (a b : Int64) : (max a b).toInt = max a.toInt b.toInt := by
  rw [Int.max_def]
  exact (apply_ite Int64.toInt (a ≤ b) b a).trans (if_congr Int64.le_iff_toInt_le rfl rfl)

theorem toInt_min (a b : Int64) : (min a b).toInt = min a.toInt b.toInt := by
  rw [Int.min_def]
  exact (apply_ite Int64.toInt (a ≤ b) a b).trans (if_congr Int64.le_iff_toInt_le rfl rfl)

theorem neg_maxOverdraw_le_clampBudget (budget : Int) : -maxOverdraw ≤ clampBudget budget :=
  Int.le_max_left ..

theorem clampBudget_nonpos (budget : Int) : clampBudget budget ≤ 0 := by
  rw [clampBudget]
  omega

theorem toInt_budget_normalize : s.normalize.budget.toInt = clampBudget s.budget.toInt := by
  have hdebt : (-Int64.ofNat maxOverdraw).toInt = -maxOverdraw := by
    rw [maxOverdraw_eq]
    rfl
  show (max (-Int64.ofNat maxOverdraw) (min s.budget 0)).toInt = _
  rw [toInt_max, toInt_min, hdebt]
  rfl

theorem pc_normalize_eq_iff : s.normalize.pc = s.pc ↔ s.pc ≤ 0x1FFF := by
  rw [← UInt16.toNat_inj, toNat_pc_normalize, UInt16.le_iff_toNat_le]
  show _ ↔ s.pc.toNat ≤ 0x1FFF
  omega

theorem status_normalize_eq_iff :
    s.normalize.status = s.status ↔ s.status &&& breakMarker = 0 := by
  show s.status &&& ~~~breakMarker = s.status ↔ _
  generalize s.status = status
  revert status
  decide +kernel

theorem clockRemainder_normalize_eq_iff :
    s.normalize.clockRemainder = s.clockRemainder ↔
      s.clockRemainder.toNat < Timing.ticksPerUnit := by
  show s.clockRemainder % 4 = s.clockRemainder ↔ s.clockRemainder.toNat < 4
  rw [← UInt8.toNat_inj, UInt8.toNat_mod]
  exact Nat.mod_eq_iff_lt (by decide)

theorem budget_normalize_eq_iff :
    s.normalize.budget = s.budget ↔ -maxOverdraw ≤ s.budget.toInt ∧ s.budget.toInt ≤ 0 := by
  rw [← Int64.toInt_inj, toInt_budget_normalize, clampBudget]
  omega

/-! ### Normal snapshots -/

theorem normalize_eq_self_iff : s.normalize = s ↔ s.InRange := by
  refine ⟨fun h => ?_, fun h => ?_⟩
  · obtain ⟨hoverdraw, hnonpos⟩ := s.budget_normalize_eq_iff.1 (congrArg budget h)
    exact ⟨s.pc_normalize_eq_iff.1 (congrArg pc h), s.status_normalize_eq_iff.1 (congrArg status h),
      s.clockRemainder_normalize_eq_iff.1 (congrArg clockRemainder h), hoverdraw, hnonpos⟩
  · have hpc := s.pc_normalize_eq_iff.2 h.pc
    have hstatus := s.status_normalize_eq_iff.2 h.status
    have hremainder := s.clockRemainder_normalize_eq_iff.2 h.clockRemainder
    have hbudget := s.budget_normalize_eq_iff.2 ⟨h.overdraw, h.nonpos⟩
    calc s.normalize
      _ = { s with
          pc := s.normalize.pc
          status := s.normalize.status
          budget := s.normalize.budget
          clockRemainder := s.normalize.clockRemainder } := rfl
      _ = s := by rw [hpc, hstatus, hbudget, hremainder]

theorem inRange_normalize : s.normalize.InRange where
  pc := by
    rw [UInt16.le_iff_toNat_le, toNat_pc_normalize]
    show _ ≤ 0x1FFF
    omega
  status := by
    show s.status &&& ~~~breakMarker &&& breakMarker = 0
    generalize s.status = status
    revert status
    decide +kernel
  clockRemainder := by
    show (s.clockRemainder % 4).toNat < 4
    rw [UInt8.toNat_mod]
    exact Nat.mod_lt _ (by decide)
  overdraw := by
    rw [toInt_budget_normalize]
    exact neg_maxOverdraw_le_clampBudget _
  nonpos := by
    rw [toInt_budget_normalize]
    exact clampBudget_nonpos _

theorem normalize_normalize : s.normalize.normalize = s.normalize :=
  s.normalize.normalize_eq_self_iff.2 s.inRange_normalize

/-! ### Taking over a snapshot -/

/-- A core that has taken over a snapshot shows its normal form. -/
theorem capture_core : capture s.core s.ram = s.normalize := by
  have hpc : Address.toWord (Address.ofWord s.pc) = s.normalize.pc := Address.toWord_ofWord s.pc
  have hstatus : (Flags.unpack s.status).pack = s.normalize.status := Flags.pack_unpack s.status
  have hbudget : Int64.ofInt (clampBudget s.budget.toInt) = s.normalize.budget := by
    rw [← toInt_budget_normalize, Int64.ofInt_toInt]
  have hremainder :
      UInt8.ofNat (Clock.leftOver s.clockRemainder.toNat).val = s.normalize.clockRemainder := by
    show UInt8.ofNat (s.clockRemainder.toNat % (4 : Byte).toNat) = s.clockRemainder % 4
    rw [← UInt8.toNat_mod, UInt8.ofNat_toNat]
  simp only [capture, core, Processor.status, hpc, hstatus, hbudget, hremainder]
  rfl

/-- What is out of range makes no difference to the core. -/
theorem core_normalize : s.normalize.core = s.core := by
  rw [← capture_core]
  exact core_capture s.core s.ram (neg_maxOverdraw_le_clampBudget _) (clampBudget_nonpos _)

/-! ### The checks -/

/-- Whether two snapshots hold different values in a field. -/
def Field.differs (s t : Snapshot) : Field → Bool
  | .pc => s.pc != t.pc
  | .status => s.status != t.status
  | .stopped => s.stopped != t.stopped
  | .clockRemainder => s.clockRemainder != t.clockRemainder
  | .budget => s.budget != t.budget

/-- The first field that normalization changes. -/
def firstChanged? (s : Snapshot) : Option Field :=
  [Field.pc, .status, .clockRemainder, .budget].find? (Field.differs s.normalize s)

theorem firstChanged?_eq_none_iff : s.firstChanged? = none ↔ s.normalize = s := by
  rw [normalize_eq_self_iff, firstChanged?, List.find?_eq_none]
  simp only [List.forall_mem_cons, List.not_mem_nil, false_implies, implies_true, and_true,
    Field.differs, bne_iff_ne, ne_eq, not_not, pc_normalize_eq_iff, status_normalize_eq_iff,
    clockRemainder_normalize_eq_iff, budget_normalize_eq_iff]
  exact ⟨fun ⟨hpc, hstatus, hremainder, hoverdraw, hnonpos⟩ =>
    ⟨hpc, hstatus, hremainder, hoverdraw, hnonpos⟩,
    fun h => ⟨h.pc, h.status, h.clockRemainder, h.overdraw, h.nonpos⟩⟩

/-- The checks on a stored snapshot find the first field that normalization changes. -/
theorem fault?_eq_firstChanged? : s.fault? s.stopped.toUInt8 = s.firstChanged? := by
  have hpc : 0x1FFF < s.pc ↔ Field.pc.differs s.normalize s := by
    rw [Field.differs, bne_iff_ne, Ne, pc_normalize_eq_iff, UInt16.not_le]
  have hstatus : s.status &&& breakMarker ≠ 0 ↔ Field.status.differs s.normalize s := by
    rw [Field.differs, bne_iff_ne, Ne, Ne, status_normalize_eq_iff]
  have hlatch : ∀ latch : Bool, ¬ 1 < latch.toUInt8 := by decide
  have hremainder : Timing.ticksPerUnit ≤ s.clockRemainder.toNat ↔
      Field.clockRemainder.differs s.normalize s := by
    rw [Field.differs, bne_iff_ne, Ne, clockRemainder_normalize_eq_iff, Nat.not_lt]
  have hbudget : s.budget.toInt < -maxOverdraw ∨ 0 < s.budget.toInt ↔
      Field.budget.differs s.normalize s := by
    rw [Field.differs, bne_iff_ne, Ne, budget_normalize_eq_iff]
    omega
  simp only [fault?, hpc, hstatus, hlatch, hremainder, hbudget, if_false, firstChanged?,
    List.find?_cons, List.find?_nil]
  -- Now both go through the same four fields, and stop at the first that differs.
  cases Field.pc.differs s.normalize s <;> cases Field.status.differs s.normalize s <;>
    cases Field.clockRemainder.differs s.normalize s <;>
    cases Field.budget.differs s.normalize s <;> rfl

/-- What a stored snapshot is read back as: itself if it is normal. -/
theorem decode_encode_eq_firstChanged? :
    decode s.encode =
      match s.firstChanged? with
      | some field => .error (.impossible field)
      | none => .ok s := by
  rw [← fault?_eq_firstChanged?]
  exact s.decode_encode

theorem decode_encode_eq_ok_iff : decode s.encode = .ok s ↔ s.normalize = s := by
  rw [← firstChanged?_eq_none_iff, decode_encode_eq_firstChanged?]
  cases s.firstChanged? <;> simp

end Snapshot

namespace Machine

variable {σ : Type} (m : Machine σ) (s t : Snapshot)

theorem snapshot_restore_normalize : (m.restore s).snapshot = s.normalize :=
  s.capture_core

theorem restore_restore : (m.restore s).restore t = m.restore t := rfl

theorem restore_normalize : m.restore s.normalize = m.restore s := by
  rw [restore, s.core_normalize]
  rfl

/-- Whatever a machine takes over, it becomes the machine of the normal snapshot, and shows that
snapshot. Of all stored snapshots the normal ones are read back, so what the machine shows can be
stored; others are refused for the first field that is not normal. -/
theorem restore_normalizes :
    (m.restore s).snapshot = s.normalize ∧
      s.normalize.normalize = s.normalize ∧
      (m.restore s).restore s = m.restore s ∧
      (m.restore s).restore (m.restore s).snapshot = m.restore s ∧
      (Snapshot.decode s.encode = .ok s ↔ s.normalize = s) ∧
      (s.firstChanged? = none ↔ s.normalize = s) ∧
      (Snapshot.decode s.encode =
        match s.firstChanged? with
        | some field => .error (.impossible field)
        | none => .ok s) ∧
      Snapshot.decode s.normalize.encode = .ok s.normalize ∧
      Snapshot.decode (m.restore s).snapshot.encode = .ok (m.restore s).snapshot := by
  have hsnapshot := m.snapshot_restore_normalize s
  have hnormal : Snapshot.decode s.normalize.encode = .ok s.normalize :=
    s.normalize.decode_encode_eq_ok_iff.2 s.normalize_normalize
  refine ⟨hsnapshot, s.normalize_normalize, m.restore_restore s s, ?_, s.decode_encode_eq_ok_iff,
    s.firstChanged?_eq_none_iff, s.decode_encode_eq_firstChanged?, hnormal, ?_⟩
  · rw [hsnapshot, restore_restore, restore_normalize]
  · rw [hsnapshot, hnormal]

/-- Of several impossible values the first is named; a core brings all of them into range. -/
example :
    let s : Snapshot := { status := 0xFF, clockRemainder := 6, budget := -17 }
    s.firstChanged? = some .status ∧
      ((fresh ({} : Unconnected)).restore s).snapshot =
        { status := 0xEF, clockRemainder := 2, budget := -16 } := by
  decide +kernel

end Machine

end M740
