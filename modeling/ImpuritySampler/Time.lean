import ImpuritySampler.Scalar

/-!
# Times on the imaginary-time cycle

A time is a number of ticks on a fixed grid of points per period. Cyclic arithmetic is arithmetic of
naturals and has no rounding; the period only matters when a time is read as a number. The tick
count of one full period is not a point of the cycle: it marks the end of the axis and is the
longest duration.
-/

set_option autoImplicit false

namespace ImpuritySampler

def ticksPerPeriod : Nat := Nat.pow 2 62

structure Time (α : Type) where
  ticks : Nat
  period : α

namespace Time

variable {α : Type}

/-- Times are compared by their ticks alone. -/
instance : BEq (Time α) := ⟨fun s t => s.ticks == t.ticks⟩

/-- Ticks travelled forward from `b` until `a` is reached. -/
def gap (a b : Nat) : Nat :=
  if b ≤ a then a - b else ticksPerPeriod - (b - a)

/-- Number of a duration in units of the period's own scale. -/
def scale [Scalar α] (ticks : Nat) (period : α) : α :=
  (ticks : α) / (ticksPerPeriod : α) * period

def value [Scalar α] (t : Time α) : α := scale t.ticks t.period

/-- The same point of the cycle, with the end of the axis moved to its origin. -/
def canonical (t : Time α) : Time α := { t with ticks := t.ticks % ticksPerPeriod }

theorem gap_self (a : Nat) : gap a a = 0 := by
  rw [gap, if_pos (Nat.le_refl a), Nat.sub_self]

theorem gap_of_le {a b : Nat} (h : b ≤ a) : gap a b = a - b := if_pos h

theorem gap_of_lt {a b : Nat} (h : a < b) : gap a b = ticksPerPeriod - (b - a) :=
  if_neg (Nat.not_le.2 h)

end Time
end ImpuritySampler
