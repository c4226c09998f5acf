import ImpuritySampler.Model
import ImpuritySampler.Results
import ImpuritySampler.State
import ImpuritySampler.Line.Coupling

/-!
# The Green's function

Each pair of an annihilation and a creation of a color contributes its element of the inverse matrix
to the mesh point closest to their distance, with the other sign if the annihilation is the earlier
one. The improved estimator multiplies each contribution by the interaction that the annihilation
feels.
-/

set_option autoImplicit false

namespace ImpuritySampler

structure Green (α : Type) where
  beta : α
  spacing : α
  bins : Grid α
  improved : Option (Grid α)
  signSum : α

namespace Green

variable {α : Type} [Scalar α]

def empty (colors : Nat) (beta : α) (points : Nat) (improved : Bool) : Green α :=
  let zeros := Grid.replicate colors points 0
  { beta
    spacing := beta / ((points - 1 : Nat) : α)
    bins := zeros
    improved := if improved then some zeros else none
    signSum := 0 }

def start (colors : Nat) (beta : α) (points : Nat) (improved : Bool) : Outcome α (Green α) := do
  Outcome.require (2 ≤ points) .measurementMeshTooShort
  Outcome.require (Extent.Storable [colors, points]) .tableTooLarge
  pure (empty colors beta points improved)

def bin (g : Green α) (distance : α) : Nat :=
  min (Scalar.round (distance / g.spacing)) (g.bins.cols - 1)

def feltFrom (m : Model α) (color : Nat) (t : Time α) (l : Line α) (other : Nat) (felt : α) :
    Outcome α α := do
  let occupation : α := if ← l.occupiedBelow t then 1 else 0
  let felt ←
    if other = color then pure felt
    else do pure (felt + (← m.coupling other color) * occupation)
  let felt ←
    match m.retarded with
    | none => pure felt
    | some r => do
      let felt := felt - (← l.coupling t .plus r.slope other color)
      if other = color then pure (felt - ((2 : Nat) : α) * (← r.slope.value 0 other other))
      else pure felt
  match m.spinSlope with
  | none => pure felt
  | some slope => do
    let felt := felt - ((4 : Nat) : α) * (← slope.value 0 other color) * occupation
    pure (felt - ((2 : Nat) : α) * (← l.coupling t .plus slope other color))

def felt (s : State α) (m : Model α) (color : Nat) (t : Time α) : Outcome α α :=
  s.config.lines.zipIdx.foldlM (fun total (l, other) => feltFrom m color t l other total) 0

def addAt (g : Grid α) (i j : Nat) (x : α) : Outcome α (Grid α) := do
  Outcome.require (i < g.rows ∧ j < g.cols) .outOfRange
  pure (g.modify i j (· + x))

def addPair (g : Green α) (d : LineDeterminant α) (color : Nat) (sign factor : α) (j i : Nat) :
    Outcome α (Green α) := do
  let y ← d.colKey j
  let x ← d.rowKey i
  let entry ← d.inverseEntry j i
  let value := (if x.time.ticks ≤ y.time.ticks then sign else -sign) * entry
  let k := g.bin (← y.time.sub x.time).value
  let bins ← addAt g.bins color k value
  match g.improved with
  | none => pure { g with bins }
  | some f => pure { g with bins, improved := some (← addAt f color k (value * factor)) }

def addColumn (g : Green α) (s : State α) (m : Model α) (d : LineDeterminant α) (color : Nat)
    (sign : α) (j : Nat) : Outcome α (Green α) := do
  let y ← d.colKey j
  let factor ←
    if g.improved.isSome then felt s m color y.time
    else pure 0
  (List.range d.size).foldlM (fun g i => g.addPair d color sign factor j i) g

def accumulate (g : Green α) (s : State α) (m : Model α) (sign : α) : Outcome α (Green α) :=
  s.determinants.zipIdx.foldlM (fun g (d, color) =>
    (List.range d.size).foldlM (fun g j => g.addColumn s m d color sign j) g)
    { g with signSum := g.signSum + sign }

/-- Divides by the weight of one bin; the two end points collect only half a bin. -/
def normalized (g : Green α) (bins : Grid α) : Grid α :=
  let unit := -g.beta * g.signSum * g.spacing
  Grid.ofFn bins.rows bins.cols fun i j =>
    let x := bins.entry i j / unit
    if j = 0 ∨ j + 1 = bins.cols then x * ((2 : Nat) : α) else x

def collect (g : Green α) (r : Results α) : Results α :=
  { r with green := some (g.normalized g.bins), improved := g.improved.map g.normalized }

end Green
end ImpuritySampler
