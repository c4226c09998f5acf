import ImpuritySampler.Fault

/-!
# Arithmetic on the cycle

Two times can only be combined on the same cycle. The difference of two times is the way forward
from the second to the first: zero for equal tick counts, otherwise up to one period.
-/

set_option autoImplicit false

namespace ImpuritySampler.Time

variable {α : Type} [Scalar α]

def requirePeriod (beta : α) : Outcome α Unit :=
  Outcome.require (0 < beta) .periodNotPositive

def origin (beta : α) : Outcome α (Time α) := do
  requirePeriod beta
  pure ⟨0, beta⟩

def final (beta : α) : Outcome α (Time α) := do
  requirePeriod beta
  pure ⟨ticksPerPeriod, beta⟩

def sub (a b : Time α) : Outcome α (Time α) := do
  Outcome.require (Scalar.Same a.period b.period) .periodsDiffer
  Outcome.require (b.ticks ≤ a.ticks + ticksPerPeriod) .overflow
  pure ⟨gap a.ticks b.ticks, a.period⟩

def add (a d : Time α) : Outcome α (Time α) := do
  Outcome.require (Scalar.Same a.period d.period) .periodsDiffer
  pure ⟨(a.ticks % ticksPerPeriod + d.ticks % ticksPerPeriod) % ticksPerPeriod, a.period⟩

theorem sub_eq_ok {a b : Time α} (hp : Scalar.Same a.period b.period)
    (hb : b.ticks ≤ a.ticks + ticksPerPeriod) :
    a.sub b = .ok ⟨gap a.ticks b.ticks, a.period⟩ := by
  simp only [sub, Outcome.require, if_pos hp, if_pos hb]
  rfl

end ImpuritySampler.Time
