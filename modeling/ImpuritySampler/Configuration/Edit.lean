import ImpuritySampler.Line

/-!
# Changing a configuration

Segments are put in and taken out, holes are cut and closed. Lines stay sorted.
-/

set_option autoImplicit false

namespace ImpuritySampler.Configuration

variable {α : Type}

def line (c : Configuration α) (color : Nat) : Outcome α (Line α) := Outcome.nth c.lines color

def setLine (c : Configuration α) (color : Nat) (l : Line α) : Configuration α :=
  { c with lines := c.lines.set color l }

def insert (c : Configuration α) (color : Nat) (s : Segment α) :
    Outcome α (Nat × Configuration α) := do
  let l ← c.line color
  let p := l.place s
  pure (p, c.setLine color (l.insertIdx p s))

def remove (c : Configuration α) (color index : Nat) : Outcome α (Segment α × Configuration α) := do
  let l ← c.line color
  let s ← Outcome.nth l index
  pure (s, c.setLine color (l.eraseIdx index))

variable [Scalar α]

def empty (colors : Nat) (beta : α) : Outcome α (Configuration α) := do
  Outcome.require (0 < colors) .noColor
  Outcome.require (0 < beta) .periodNotPositive
  Outcome.require (colors ≤ colorLimit) .tooManyColors
  pure ⟨beta, List.replicate colors []⟩

def isFull (c : Configuration α) (color : Nat) : Outcome α Bool := do
  match (← c.line color).getLast? with
  | some s => s.isFull
  | none => pure false

/-- Cuts the hole between two operators out of the segment at a place. The whole cycle leaves one
segment, any other segment two. -/
def split (c : Configuration α) (color index : Nat) (holeAnnihilation holeCreation : Time α) :
    Outcome α (Configuration α) := do
  let (s, c) ← c.remove color index
  if ← s.isFull then
    let (_, c) ← c.insert color ⟨holeAnnihilation, holeCreation⟩
    pure c
  else
    let (_, c) ← c.insert color ⟨s.annihilation, holeCreation⟩
    let (_, c) ← c.insert color ⟨holeAnnihilation, s.creation⟩
    pure c

def fill (c : Configuration α) (color : Nat) : Outcome α (Configuration α) := do
  let l ← c.line color
  Outcome.require (l.length = 0) (.lineNotEmpty color)
  pure (c.setLine color [← Segment.full c.beta])

/-- Closes the hole between the segment at a place and the one before it in time; the merged segment
is returned. Closing the only hole fills the line. -/
def regroup (c : Configuration α) (color index : Nat) :
    Outcome α (Segment α × Configuration α) := do
  let l ← c.line color
  Outcome.require (0 < l.length) (.noHole color)
  let next ← Line.next index l.length
  if next = index then
    let c ← (c.setLine color []).fill color
    pure (← Segment.full c.beta, c)
  else
    let merged : Segment α :=
      ⟨(← Outcome.nth l index).annihilation, (← Outcome.nth l next).creation⟩
    let rest := (l.eraseIdx (max index next)).eraseIdx (min index next)
    let (_, c) ← (c.setLine color rest).insert color merged
    pure (merged, c)

end ImpuritySampler.Configuration
