import ImpuritySampler.Time

/-!
# Segments

An occupied interval of one color. It starts at the creation time and runs forward to the
annihilation time; if the annihilation time is the smaller one the segment wraps around the end of
the axis. A line without operators that is occupied everywhere is a segment of its own, from the
origin to the end of the axis.
-/

set_option autoImplicit false

namespace ImpuritySampler

structure Segment (α : Type) where
  annihilation : Time α
  creation : Time α
deriving BEq

namespace Segment

variable {α : Type}

def isCyclic (s : Segment α) : Bool := s.annihilation.ticks < s.creation.ticks

/-- Segments are ordered by decreasing annihilation time, ties by decreasing creation time. -/
def compare (s t : Segment α) : Ordering :=
  (Ord.compare t.annihilation.ticks s.annihilation.ticks).then
    (Ord.compare t.creation.ticks s.creation.ticks)

def notAfter (s t : Segment α) : Bool := s.compare t != .gt

end Segment
end ImpuritySampler
