import ImpuritySampler.LocalRatio
import ImpuritySampler.State.Trial

/-!
# Proposals

A move proposes one change of one color. The price of a proposal, its Metropolis weight, is the
product of three ratios: of the local weights, of the determinants, and of the chances to propose
the change and its reverse. A proposal that cannot be carried out has weight zero and opens no
trial.
-/

set_option autoImplicit false

namespace ImpuritySampler

/-- An interval of the cycle that extends backwards from `left`. -/
structure Window (α : Type) where
  left : Time α
  length : Time α

inductive Change (α : Type) where
  | insert (segment : Segment α)
  | remove (index : Nat)
  | split (index : Nat) (holeAnnihilation holeCreation : Time α)
  | regroup (index : Nat)

structure Proposal (α : Type) where
  color : Nat
  change : Change α
  determinantSign : Sign

/-- A priced proposal, none if it is degenerate, and the state with its trial. `fallback` marks a
weight that is not finite and was replaced by the sign of the determinant ratio. -/
structure Offer (α : Type) where
  weight : α
  fallback : Bool
  proposal : Option (Proposal α)
  state : State α

namespace Window

variable {α : Type} [Scalar α]

/-- Where a segment can be inserted next to the one at a place: back from its creation time to the
annihilation time of the next one. An empty line has the whole cycle. -/
def insertion (s : State α) (color : Nat) (index : Option Nat) : Outcome α (Window α) := do
  let l ← s.config.line color
  match index with
  | none => pure ⟨← Time.final s.config.beta, ← Time.final s.config.beta⟩
  | some i =>
    let left := (← Outcome.nth l i).creation
    let right := (← Outcome.nth l (← Line.next i l.length)).annihilation
    pure ⟨left, ← left.sub right⟩

def split (s : State α) (color index : Nat) : Outcome α (Window α) := do
  let segment ← Outcome.nth (← s.config.line color) index
  pure ⟨segment.annihilation, ← segment.length⟩

def removalLength (s : State α) (color index : Nat) : Outcome α (Time α) := do
  let l ← s.config.line color
  if l.length = 1 then Time.final s.config.beta
  else
    let previous ← Outcome.nth l (← Line.previous index l.length)
    let next ← Outcome.nth l (← Line.next index l.length)
    previous.creation.sub next.annihilation

def before (w : Window α) (d : Time α) : Outcome α (Time α) := do
  pure (← w.left.sub d).canonical

end Window

namespace Proposal

variable {α : Type} [Scalar α]

def degenerate (s : State α) : Offer α :=
  { weight := 0, fallback := false, proposal := none, state := s }

def offer (s : State α) (color : Nat) (change : Change α) (trace determinant chance : α) :
    Offer α :=
  let sign := Sign.ofPositive determinant
  let weight := trace * determinant * chance
  let finite := Scalar.isFinite weight
  { weight := if finite then weight else sign.toScalar
    fallback := !finite
    proposal := some ⟨color, change, sign⟩
    state := s }

/-- Insertion of the segment whose ends lie `d₁` and `d₂` before the left end of the window. On a
line with segments the ends are put in order, so that the new segment fits into the gap. -/
def insert (s : State α) (m : Model α) (color : Nat) (w : Window α) (d₁ d₂ : Time α) :
    Outcome α (Offer α) := do
  if d₁.ticks = d₂.ticks then pure (degenerate s)
  else
    let n := (← s.config.line color).length
    let swap := 0 < n ∧ d₂.ticks < d₁.ticks
    let segment : Segment α :=
      { annihilation := ← w.before (if swap then d₂ else d₁)
        creation := ← w.before (if swap then d₁ else d₂) }
    let trace ← LocalRatio.insert s.config m color segment
    let (determinant, s) ← s.tryPair color segment.annihilation segment.creation
    let length := w.length.value
    let orderings : α := if n = 0 then 1 else ((2 : Nat) : α)
    let chance := ((max n 1 : Nat) : α) * length * length / orderings / ((n : α) + 1)
    pure (offer s color (.insert segment) trace determinant chance)

def remove (s : State α) (m : Model α) (color index : Nat) : Outcome α (Offer α) := do
  let l ← s.config.line color
  let n := l.length
  let segment ← Outcome.nth l index
  let trace ← LocalRatio.remove s.config m color index
  let (determinant, s) ← s.tryDrop color index segment.creation
  let length := (← Window.removalLength s color index).value
  let orderings : α := if n = 1 then 1 else ((2 : Nat) : α)
  let chance := (n : α) / (((max (n - 1) 1 : Nat) : α) * length * length / orderings)
  pure (offer s color (.remove index) trace determinant chance)

/-- A hole in a segment whose creation and annihilation lie `d₁` and `d₂` before its end. In a
segment with ends the two are put in order, and the hole must not touch the end. -/
def split (s : State α) (m : Model α) (color index : Nat) (d₁ d₂ : Time α) :
    Outcome α (Offer α) := do
  if d₁.ticks = d₂.ticks then pure (degenerate s)
  else
    let full ← s.config.isFull color
    let n := (← s.config.line color).length
    let swap := full = false ∧ d₂.ticks < d₁.ticks
    let near := if swap then d₂ else d₁
    let far := if swap then d₁ else d₂
    if full = false ∧ near.ticks = 0 then pure (degenerate s)
    else
      let w ← Window.split s color index
      let holeCreation ← w.before near
      let holeAnnihilation ← w.before far
      let trace ← LocalRatio.split s.config m color holeAnnihilation holeCreation
      let (determinant, s) ← s.tryPair color holeAnnihilation holeCreation
      let length := w.length.value
      let chance :=
        if full then length * length
        else (n : α) * length * length / ((2 : Nat) : α) / ((n : α) + 1)
      pure (offer s color (.split index holeAnnihilation holeCreation) trace determinant chance)

def regroup (s : State α) (m : Model α) (color index : Nat) : Outcome α (Offer α) := do
  let l ← s.config.line color
  let n := l.length
  let next ← Line.next index n
  let segment ← Outcome.nth l index
  let earlier ← Outcome.nth l next
  let length ←
    if n = 1 then pure s.config.beta
    else do pure (← segment.annihilation.sub earlier.creation).value
  let trace ← LocalRatio.regroup s.config m color index
  let (determinant, s) ← s.tryDrop color next segment.creation
  let chance :=
    if n = 1 then 1 / (length * length)
    else ((2 : Nat) : α) * (n : α) / (((n - 1 : Nat) : α) * length * length)
  pure (offer s color (.regroup index) trace determinant chance)

end Proposal
end ImpuritySampler
