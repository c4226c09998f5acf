import ImpuritySampler.Segment
import ImpuritySampler.Sign

/-!
# Configurations

One line of segments per color, on one cycle. A line is sorted by decreasing annihilation time and
its segments do not overlap, so only its last segment can wrap.
-/

set_option autoImplicit false

namespace ImpuritySampler

abbrev Line (α : Type) := List (Segment α)

structure Configuration (α : Type) where
  beta : α
  lines : List (Line α)
deriving BEq

namespace Configuration

variable {α : Type}

/-- The most colors that can have a list each: a list takes 24 places of memory, and there are less
than 2^63 of them. -/
def colorLimit : Nat := Nat.pow 2 63 / 24

def colors (c : Configuration α) : Nat := c.lines.length

def size (c : Configuration α) : Nat := c.lines.foldl (fun n l => n + l.length) 0

end Configuration

/-- Sign of one color. Its operators are multiplied in pairs of an annihilation and a creation, both
kinds by decreasing time; if the last segment wraps, time order is one transposition per segment
away. -/
def Line.traceSign {α : Type} (l : Line α) : Sign :=
  match l.getLast? with
  | some s => if s.isCyclic then .ofParity l.length else .plus
  | none => .plus

def Configuration.traceSign {α : Type} (c : Configuration α) : Sign :=
  c.lines.foldl (fun sign l => sign * l.traceSign) .plus

end ImpuritySampler
