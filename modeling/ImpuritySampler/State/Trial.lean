import ImpuritySampler.State

/-!
# Pairs of operators in a state

A pair of operators enters the determinant of its color at its sorted places. It leaves by the row
of its creation time and a given column. Both are trials, which leave the configuration alone. A
segment is put into a state by both its pair of operators and its place on the line.
-/

set_option autoImplicit false

namespace ImpuritySampler.State

variable {α : Type} [Scalar α]

def tryPair (s : State α) (color : Nat) (annihilation creation : Time α) :
    Outcome α (α × State α) := do
  let d ← s.determinant color
  let row := Line.lowerBound (d.rowKeys.map (·.time)) creation
  let col := Line.lowerBound (d.colKeys.map (·.time)) annihilation
  let (ratio, d) ← d.tryInsert row col ⟨creation, 0⟩ ⟨annihilation, 0⟩
  pure (ratio, s.setDeterminant color d)

def creationRow (d : LineDeterminant α) (color : Nat) (creation : Time α) : Outcome α Nat :=
  match d.rowKeys.findIdx? fun key => key.time.ticks = creation.ticks with
  | some row => .ok row
  | none => .error (.creationMissing creation color)

def tryDrop (s : State α) (color col : Nat) (creation : Time α) : Outcome α (α × State α) := do
  let d ← s.determinant color
  let row ← creationRow d color creation
  let (ratio, d) ← d.tryRemove row col
  pure (ratio, s.setDeterminant color d)

/-- Puts the operators of a segment into the determinant; a segment that occupies the whole cycle
has none. -/
def addOperators (s : State α) (color : Nat) (segment : Segment α) : Outcome α (State α) := do
  if ← segment.isFull then pure s
  else
    let (_, s) ← s.tryPair color segment.annihilation segment.creation
    pure (s.setDeterminant color (← (← s.determinant color).commit))

def addSegment (s : State α) (color : Nat) (segment : Segment α) : Outcome α (State α) := do
  pure { s with config := (← s.config.insert color segment).2 }

def add (s : State α) (color : Nat) (segment : Segment α) : Outcome α (State α) := do
  (← s.addOperators color segment).addSegment color segment

end ImpuritySampler.State
