import ImpuritySampler.Time.Cycle

/-!
# What a segment occupies

Length, points and ticks of a segment. A segment that covers its whole cycle contains every point.
-/

set_option autoImplicit false

namespace ImpuritySampler.Segment

variable {α : Type} [Scalar α]

def full (beta : α) : Outcome α (Segment α) := do
  pure ⟨← Time.final beta, ← Time.origin beta⟩

def isFull (s : Segment α) : Outcome α Bool :=
  if s.creation.ticks = 0 then do
    Time.requirePeriod s.annihilation.period
    pure (s.annihilation.ticks = ticksPerPeriod)
  else pure false

def length (s : Segment α) : Outcome α (Time α) := s.annihilation.sub s.creation

def contains (s : Segment α) (t : Time α) : Outcome α Bool := do
  if ← s.isFull then pure true
  else if s.isCyclic then
    pure (s.creation.ticks < t.ticks ∨ t.ticks < s.annihilation.ticks)
  else pure (s.creation.ticks < t.ticks ∧ t.ticks < s.annihilation.ticks)

/-- Is the line occupied just below `t`? The annihilation time belongs to the segment, the creation
time does not. -/
def occupiesBelow (s : Segment α) (t : Time α) : Outcome α Bool := do
  if ← s.isFull then pure true
  else if s.isCyclic then
    pure (s.creation.ticks < t.ticks ∨ t.ticks ≤ s.annihilation.ticks)
  else pure (s.creation.ticks < t.ticks ∧ t.ticks ≤ s.annihilation.ticks)

def ranges (s : Segment α) : Outcome α (List (Nat × Nat)) := do
  let c := s.annihilation.ticks
  let cdag := s.creation.ticks
  if ← s.isFull then pure [(0, ticksPerPeriod)]
  else if s.isCyclic then pure [(cdag, ticksPerPeriod), (0, c)]
  else pure [(cdag, c)]

end ImpuritySampler.Segment
