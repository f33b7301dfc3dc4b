import Mathlib.Tactic.SplitIfs
import M740.Emulator
import M740.Proofs.Normalizing

/-!
# Loading

A stored snapshot is read back without loss: the bytes of every field are the bytes at its offset
(`Snapshot.encode_fields`), and a snapshot that passes the checks is normal, so it is not changed by
the core that takes it over. So a machine that has loaded bytes stores the same bytes again.
`Snapshot.conditions` lists what is checked, in its order, by the bytes themselves.
-/

namespace M740

/-! ### The bytes of a field -/

theorem LittleEndian.value_lt (data : List Byte) : value data < 256 ^ data.length := by
  induction data with
  | nil => decide
  | cons b rest ih =>
    have := b.toNat_lt
    rw [value, List.length_cons, Nat.pow_succ]
    omega

namespace Snapshot

open LittleEndian

section
variable {data : List Byte} {offset width next : Nat}

theorem numberAt_lt : numberAt data offset width < 256 ^ width := by
  refine Nat.lt_of_lt_of_le (value_lt _) (Nat.pow_le_pow_right (by decide) ?_)
  exact List.length_take_le _ _

/-- The bytes of the number at an offset, with what follows them. -/
theorem bytes_numberAt_append (hn : next = offset + width) (h : next ≤ data.length) :
    bytes width (numberAt data offset width) ++ data.drop next = data.drop offset := by
  subst hn
  have hlen : ((data.drop offset).take width).length = width := by
    rw [List.length_take, List.length_drop]
    omega
  have hbytes : bytes width (numberAt data offset width) = (data.drop offset).take width := by
    have := bytes_value ((data.drop offset).take width)
    rwa [hlen] at this
  rw [hbytes, ← List.drop_drop, List.take_append_drop]

theorem byteAt_cons_drop (hn : next = offset + 1) (h : next ≤ data.length) :
    byteAt data offset :: data.drop next = data.drop offset := by
  have := bytes_numberAt_append hn h
  simpa only [bytes, List.cons_append, List.nil_append, byteAt] using this

end

/-- What the fields of stored bytes are stored as: the same bytes. -/
theorem encode_fields {data : List Byte} (hsize : data.length = storedSize)
    (hmagic : data.take 4 = magic) (hversion : numberAt data 4 4 = 1) (hlatch : latchAt data ≤ 1) :
    (fields data hsize).encode = data := by
  have hlen : data.length = 129 := hsize
  have hpc : (UInt16.ofNat (numberAt data 12 2)).toNat = numberAt data 12 2 :=
    UInt16.toNat_ofNat_of_lt numberAt_lt
  have hbudget : (UInt64.ofNat (numberAt data 16 8)).toInt64.toUInt64.toNat =
      numberAt data 16 8 := by
    rw [UInt64.toUInt64_toInt64]
    exact UInt64.toNat_ofNat_of_lt numberAt_lt
  have hcycles : (UInt64.ofNat (numberAt data 25 8)).toNat = numberAt data 25 8 :=
    UInt64.toNat_ofNat_of_lt numberAt_lt
  have hstopped : (latchAt data != 0).toUInt8 = latchAt data := by
    generalize latchAt data = latch at hlatch ⊢
    revert latch
    decide +kernel
  have hone : version.toNat = numberAt data 4 4 := hversion.symm
  have hram : (fields data hsize).ram.toList = data.drop 33 := rfl
  rw [encode_eq, hram]
  simp only [fields, hpc, hbudget, hcycles, hstopped, hone, ← hmagic]
  unfold latchAt
  -- From the last field to the first, each joins the bytes behind it.
  simp (disch := omega) only [bytes_numberAt_append, byteAt_cons_drop, List.take_append_drop]

/-! ### The checks -/

theorem inRange_of_fault? {s : Snapshot} {latch : Byte} (h : s.fault? latch = none) :
    s.InRange ∧ latch ≤ 1 := by
  unfold fault? at h
  split at h
  · cases h
  rename_i hpc
  split at h
  · cases h
  rename_i hstatus
  split at h
  · cases h
  rename_i hlatch
  split at h
  · cases h
  rename_i hremainder
  split at h
  · cases h
  rename_i hbudget
  refine ⟨⟨UInt16.not_lt.1 hpc, Classical.not_not.1 hstatus, Nat.not_le.1 hremainder, ?_, ?_⟩,
    UInt8.not_lt.1 hlatch⟩
  · omega
  · omega

/-- A condition on bytes, and what is reported of bytes that do not meet it. -/
structure Condition where
  holds : Bool
  report : Error

/-- The number stored in two's complement in `width` bytes at an offset. -/
def signedAt (data : List Byte) (offset width : Nat) : Int :=
  (numberAt data offset width : Int).bmod (256 ^ width)

/-- The conditions on the values of the fields. -/
def fieldConditions (data : List Byte) : List Condition := [
  ⟨numberAt data 12 2 ≤ 0x1FFF, .impossible .pc⟩,
  ⟨byteAt data 14 &&& 0x10 = 0, .impossible .status⟩,
  ⟨byteAt data 15 = 0 ∨ byteAt data 15 = 1, .impossible .stopped⟩,
  ⟨byteAt data 24 < 4, .impossible .clockRemainder⟩,
  ⟨-16 ≤ signedAt data 16 8 ∧ signedAt data 16 8 ≤ 0, .impossible .budget⟩]

/-- The conditions on a stored snapshot, in the order in which they are checked. -/
def conditions (data : List Byte) : List Condition :=
  ⟨data.length < 4 ∨ data.take 4 = [0x4D, 0x37, 0x34, 0x30], .badMagic⟩ ::
  ⟨data.length = 129, .wrongSize data.length⟩ ::
  ⟨numberAt data 4 4 = 1, .unsupportedVersion (UInt32.ofNat (numberAt data 4 4))⟩ ::
  fieldConditions data

/-- What is reported of the first condition that does not hold. -/
def firstReport : List Condition → Option Error
  | [] => none
  | c :: rest => if c.holds then firstReport rest else some c.report

theorem firstReport_eq_none_iff {l : List Condition} :
    firstReport l = none ↔ ∀ c ∈ l, c.holds = true := by
  induction l with
  | nil => simp [firstReport]
  | cons c rest ih => cases h : c.holds <;> simp [firstReport, h, ih]

theorem toInt_budget_fields {data : List Byte} (hsize : data.length = storedSize) :
    (fields data hsize).budget.toInt = signedAt data 16 8 := by
  have hn : (UInt64.ofNat (numberAt data 16 8)).toNat = numberAt data 16 8 :=
    UInt64.toNat_ofNat_of_lt numberAt_lt
  show (UInt64.ofNat (numberAt data 16 8)).toBitVec.toInt = _
  rw [BitVec.toInt_eq_toNat_bmod, UInt64.toNat_toBitVec, hn]
  rfl

/-- The conditions on the values find the first faulty field. -/
theorem firstReport_fieldConditions {data : List Byte} (hsize : data.length = storedSize) :
    firstReport (fieldConditions data) =
      ((fields data hsize).fault? (latchAt data)).map .impossible := by
  have hpc : 0x1FFF < (fields data hsize).pc ↔ ¬ numberAt data 12 2 ≤ 0x1FFF := by
    have hn : (fields data hsize).pc.toNat = numberAt data 12 2 :=
      UInt16.toNat_ofNat_of_lt numberAt_lt
    rw [UInt16.lt_iff_toNat_lt, hn, Nat.not_le]
    rfl
  have hlatch : 1 < latchAt data ↔ ¬ (byteAt data 15 = 0 ∨ byteAt data 15 = 1) := by
    unfold latchAt
    generalize byteAt data 15 = latch
    revert latch
    decide +kernel
  have hremainder :
      Timing.ticksPerUnit ≤ (fields data hsize).clockRemainder.toNat ↔ ¬ byteAt data 24 < 4 := by
    rw [UInt8.lt_iff_toNat_lt, Nat.not_lt]
    rfl
  have hbudget : (fields data hsize).budget.toInt < -maxOverdraw ∨
      0 < (fields data hsize).budget.toInt ↔
      ¬ (-16 ≤ signedAt data 16 8 ∧ signedAt data 16 8 ≤ 0) := by
    rw [toInt_budget_fields, maxOverdraw_eq]
    omega
  have hstatus : (fields data hsize).status &&& breakMarker = byteAt data 14 &&& 0x10 := rfl
  simp only [fault?, hpc, hstatus, hlatch, hremainder, hbudget, fieldConditions, firstReport,
    decide_eq_true_eq, ne_eq]
  split_ifs <;> rfl

theorem decode_sized {data : List Byte} (hmagic : data.take 4 = magic)
    (hsize : data.length = storedSize) :
    decode data =
      if numberAt data 4 4 ≠ 1 then .error (.unsupportedVersion (UInt32.ofNat (numberAt data 4 4)))
      else match (fields data hsize).fault? (latchAt data) with
        | some field => .error (.impossible field)
        | none => .ok (fields data hsize) := by
  have hversion : UInt32.ofNat (numberAt data 4 4) ≠ version ↔ numberAt data 4 4 ≠ 1 := by
    have hn : (UInt32.ofNat (numberAt data 4 4)).toNat = numberAt data 4 4 :=
      UInt32.toNat_ofNat_of_lt numberAt_lt
    rw [Ne, ← UInt32.toNat_inj, hn]
    rfl
  have hm : ¬ (magic.length ≤ data.length ∧ data.take magic.length ≠ magic) :=
    fun h => h.2 hmagic
  unfold decode
  rw [if_neg hm, dif_pos hsize]
  exact ite_congr (propext hversion) (fun _ => rfl) (fun _ => rfl)

/-- Bytes that do not meet a condition are refused with the report of the first such condition;
all others are what a snapshot with values in range is stored as. -/
theorem decode_spec (data : List Byte) :
    match firstReport (conditions data) with
    | some e => decode data = .error e
    | none => ∃ s, decode data = .ok s ∧ s.InRange ∧ s.encode = data := by
  simp only [conditions, firstReport, decide_eq_true_eq]
  split_ifs with hmagic hsize hversion
  · have htake : data.take 4 = magic := hmagic.resolve_left (by omega)
    have hd := decode_sized htake hsize
    rw [if_neg (not_not_intro hversion)] at hd
    rw [firstReport_fieldConditions hsize]
    cases hf : (fields data hsize).fault? (latchAt data) with
    | some field =>
      show decode data = _
      simpa only [hf] using hd
    | none =>
      obtain ⟨hrange, hlatch⟩ := inRange_of_fault? hf
      simp only [hf] at hd
      exact ⟨_, hd, hrange, encode_fields hsize htake hversion hlatch⟩
  · have hd := decode_sized (hmagic.resolve_left (by omega)) hsize
    rwa [if_pos hversion] at hd
  · have hm : ¬ (magic.length ≤ data.length ∧ data.take magic.length ≠ magic) := fun h =>
      hmagic.elim (Nat.not_lt.2 h.1) h.2
    exact (if_neg hm).trans (dif_neg hsize)
  · exact if_pos ⟨Nat.not_lt.1 fun h => hmagic (.inl h), fun h => hmagic (.inr h)⟩

theorem decode_error_iff {data : List Byte} {e : Error} :
    decode data = .error e ↔ firstReport (conditions data) = some e := by
  have h := decode_spec data
  cases hr : firstReport (conditions data) with
  | some e' =>
    rw [hr] at h
    simp only [h, Except.error.injEq, Option.some.injEq]
  | none =>
    rw [hr] at h
    obtain ⟨s, hs, -⟩ := h
    simp [hs]

theorem decode_ok_iff {data : List Byte} :
    (∃ s, decode data = .ok s) ↔ ∀ c ∈ conditions data, c.holds = true := by
  rw [← firstReport_eq_none_iff]
  have h := decode_spec data
  cases hr : firstReport (conditions data) with
  | some e' =>
    rw [hr] at h
    simp [h]
  | none =>
    rw [hr] at h
    obtain ⟨s, hs, -⟩ := h
    simp [hs]

/-- A snapshot that is read back has values in range, and is stored as the bytes read. -/
theorem inRange_encode_of_decode {data : List Byte} {s : Snapshot} (h : decode data = .ok s) :
    s.InRange ∧ s.encode = data := by
  have hspec := decode_spec data
  rw [firstReport_eq_none_iff.2 (decode_ok_iff.1 ⟨s, h⟩)] at hspec
  obtain ⟨s', hs', hs⟩ := hspec
  cases h.symm.trans hs'
  exact hs

end Snapshot

/-! ### Machines that load -/

namespace Emulator

theorem loadState_eq (e : Emulator) (data : List Byte) :
    (loadState data).run.run e =
      match e.load data with
      | .ok loaded => (.ok (), loaded)
      | .error err => (.error err.message, e) := by
  unfold loadState Machine.load
  cases Snapshot.decode data <;> rfl

end Emulator

namespace Machine

variable {σ : Type}

theorem snapshot_restore (m : Machine σ) {s : Snapshot} (h : s.InRange) :
    (m.restore s).snapshot = s :=
  (m.snapshot_restore_normalize s).trans (s.normalize_eq_self_iff.2 h)

/-- Loading is exact and atomic. Bytes that are read back are stored again as the same bytes, and
nothing but the state they describe is touched; of bytes that are refused nothing is taken over.
Refused are the bytes that do not meet one of the conditions, with a report of the first one. -/
theorem load_exact (m : Machine σ) (e : Emulator) (data : List Byte) :
    (∀ s, Snapshot.decode data = .ok s →
      (m.restore s).snapshot.encode = data ∧
      (m.restore s).bus.rom = m.bus.rom ∧
      (m.restore s).bus.devices = m.bus.devices ∧
      s.encode = data ∧
      (Emulator.loadState data).run.run e = (.ok (), e.restore s)) ∧
    (∀ err, Snapshot.decode data = .error err →
      (Emulator.loadState data).run.run e = (.error err.message, e)) ∧
    ((∃ s, Snapshot.decode data = .ok s) ↔ ∀ c ∈ Snapshot.conditions data, c.holds = true) ∧
    (∀ err, Snapshot.decode data = .error err ↔
      Snapshot.firstReport (Snapshot.conditions data) = some err) := by
  refine ⟨fun s hs => ?_, fun err herr => ?_, Snapshot.decode_ok_iff,
    fun err => Snapshot.decode_error_iff⟩
  · obtain ⟨hrange, hencode⟩ := Snapshot.inRange_encode_of_decode hs
    refine ⟨?_, rfl, rfl, hencode, ?_⟩
    · rw [m.snapshot_restore hrange, hencode]
    · rw [Emulator.loadState_eq, load, hs]
      rfl
  · rw [Emulator.loadState_eq, load, herr]
    rfl

/-- A replacement takes over the bytes of a machine that was saved in a handler; an emulator
refuses these bytes without their end. -/
theorem load_exact_replacement :
    let m := (fresh ({} : Unconnected)).afterAll [.setRom reentrantImage, .runFor 7, .interrupt]
    let data := m.snapshot.encode
    Snapshot.decode data = .ok m.snapshot ∧
      (m.replacement.restore m.snapshot).snapshot.encode = data ∧
      Snapshot.decode (data.take 5) = .error (.wrongSize 5) ∧
      (Emulator.loadState (data.take 5)).run.run Emulator.fresh =
        (.error (Snapshot.Error.wrongSize 5).message, Emulator.fresh) := by
  intro m data
  have hc : ∀ call ∈ [.setRom reentrantImage, .runFor 7, .interrupt], Call.clocked call := by
    decide
  have clocked := afterAll_clocked ({} : Unconnected) hc
  have hmin := Int.le_trans Snapshot.minValue_le_maxOverdraw clocked.overdraw
  have hs : Snapshot.decode data = .ok m.snapshot :=
    (Snapshot.decode_encode_capture _ _ hmin clocked.nonpos).trans
      (if_neg (Int.not_lt.2 clocked.overdraw))
  have hshort : Snapshot.decode (data.take 5) = .error (.wrongSize 5) := by
    have htake : data.take 5 = Snapshot.magic ++ [1] := by
      simp only [data, Snapshot.encode_eq]
      rfl
    rw [htake]
    rfl
  have whole := load_exact m.replacement Emulator.fresh data
  have short := load_exact m.replacement Emulator.fresh (data.take 5)
  exact ⟨hs, (whole.1 _ hs).1, hshort, short.2.1 _ hshort⟩

end Machine

end M740
