import ImpuritySampler.State

/-!
# Checking a state

A state is sound if every line is sorted, without overlaps and wraps at most at its end, if no
trial is pending, and if each determinant holds exactly the operators of its line. The first rule
that does not hold is reported, together with the configuration.
-/

set_option autoImplicit false

namespace ImpuritySampler

namespace Line

variable {α : Type} [Scalar α]

abbrev Rule (α : Type) := (p : Prop) → [Decidable p] → Violation α → Outcome α Unit

def checkSegments (rule : Rule α) (color : Nat) (l : Line α) : Outcome α Unit :=
  l.zipIdx.forM fun (s, k) => do
    rule (s.annihilation.ticks ≠ s.creation.ticks) (.zeroLength color k)
    rule (s.isCyclic = false ∨ k + 1 = l.length) (.wrapsEarly color)

def checkOrder (rule : Rule α) (color : Nat) (l : Line α) : Outcome α Unit :=
  (l.zip l.tail).zipIdx.forM fun ((s, t), k) =>
    rule (t.annihilation.ticks < s.annihilation.ticks) (.unsorted color k)

def checkOverlaps (rule : Rule α) (color : Nat) (l : Line α) : Outcome α Unit :=
  l.zipIdx.forM fun (s, k) => do
    let shared ← overlap (l.drop (k + 1)) s
    rule (Scalar.Same shared 0) (.overlapping color k shared)

/-- A line that is occupied everywhere stands alone; any other line is sorted and without
overlaps. -/
def check (rule : Rule α) (color : Nat) (l : Line α) : Outcome α Unit := do
  if ← l.anyM Segment.isFull then
    rule (l.length = 1) (.fullLineShared color)
  else
    checkSegments rule color l
    checkOrder rule color l
    checkOverlaps rule color l

def operators (l : Line α) : Outcome α (Line α) :=
  l.filterM fun s => do pure !(← s.isFull)

end Line

namespace State

variable {α : Type} [Scalar α]

def decreasing (ticks : List Nat) : List Nat := ticks.mergeSort fun a b => b ≤ a

def checkColor (rule : Line.Rule α) (color : Nat) (l : Line α) (d : LineDeterminant α) :
    Outcome α Unit := do
  l.check rule color
  rule (d.isIdle = true) (.trialLeft color)
  let operators ← l.operators
  rule (d.size = operators.length) (.sizesDiffer color d.size operators.length)
  rule (d.colKeys.map (·.time.ticks) = operators.map (·.annihilation.ticks))
    (.annihilationsDiffer color)
  rule (d.rowKeys.map (·.time.ticks) = decreasing (operators.map (·.creation.ticks)))
    (.creationsDiffer color)

def check (s : State α) : Outcome α Unit := do
  Outcome.require (s.determinants.length = s.config.colors) .determinantCount
  s.determinants.zipIdx.forM fun (d, color) => do
    checkColor (fun p _ v => Outcome.require p (.violated v s.config)) color
      (← s.config.line color) d

end State
end ImpuritySampler
