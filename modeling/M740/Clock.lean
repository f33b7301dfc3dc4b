import M740.Timing

/-!
# The clock

Host ticks are turned into units of work. Whole units go to a budget that instructions are charged
against; an instruction may overdraw it, and the debt is paid from the next delivery.
-/

namespace M740

structure Clock where
  /-- Units still to be spent; negative when overdrawn. -/
  budget : Int := 0
  /-- Host ticks that do not make a whole unit yet. -/
  remainder : Fin Timing.ticksPerUnit := ⟨0, by decide⟩
  /-- All units ever charged, modulo 2^64. -/
  cycles : UInt64 := 0
  deriving DecidableEq, Repr

/-- A number of units that is charged at once. Nothing is free. -/
structure Charge where
  units : Nat
  pos : 0 < units
  deriving DecidableEq, Repr

namespace Clock

/-- The ticks that are left over when whole units are taken out. -/
def leftOver (ticks : Nat) : Fin Timing.ticksPerUnit :=
  ⟨ticks % Timing.ticksPerUnit, Nat.mod_lt _ (by decide)⟩

/-- Adds the whole units in the ticks and in what remained of earlier ones. -/
def deliver (c : Clock) (ticks : UInt32) : Clock :=
  let total := c.remainder.val + ticks.toNat
  { c with
    budget := c.budget + total / Timing.ticksPerUnit
    remainder := leftOver total }

/-- Counts units that the budget does not pay for. -/
def count (c : Clock) (charge : Charge) : Clock :=
  { c with cycles := c.cycles + UInt64.ofNat charge.units }

/-- Takes units from the budget and counts them. -/
def charge (c : Clock) (charge : Charge) : Clock :=
  { c.count charge with budget := c.budget - charge.units }

/-- Drops units that were not spent. -/
def forfeit (c : Clock) : Clock := { c with budget := min c.budget 0 }

theorem budget_charge_lt (c : Clock) (u : Charge) (h : 0 < c.budget) :
    (c.charge u).budget.toNat < c.budget.toNat := by
  have := u.pos
  simp only [charge]
  omega

end Clock

end M740
