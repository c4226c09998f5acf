import ImpuritySampler.Measure.Green

/-!
# Measures

Accumulators that read the state once per cycle, with the running sign as its weight, and write
their normalized results at the end. Orders count segments that end in operators, so a line that
is occupied everywhere has order zero.
-/

set_option autoImplicit false

namespace ImpuritySampler

structure Densities (α : Type) where
  sums : List α
  signSum : α

structure Orders where
  total : List Nat
  colors : List (List Nat)
  measurements : Nat

structure AverageSign (α : Type) where
  sum : α
  measurements : Nat

inductive Measure (α : Type) where
  | green (g : Green α)
  | densities (d : Densities α)
  | orders (o : Orders)
  | sign (s : AverageSign α)

namespace Densities

variable {α : Type} [Scalar α]

def empty (colors : Nat) : Densities α := ⟨List.replicate colors 0, 0⟩

def start (colors : Nat) : Outcome α (Densities α) := do
  Outcome.require (Extent.Storable [colors]) .tableTooLarge
  pure (empty colors)

def accumulate (d : Densities α) (s : State α) (m : Model α) (sign : α) :
    Outcome α (Densities α) := do
  let sums ← s.config.lines.zipIdx.foldlM (fun sums (l, color) => do
    let x := sign * (← l.occupied) / m.beta
    let old ← Outcome.nth sums color
    pure (sums.set color (old + x))) d.sums
  pure ⟨sums, d.signSum + sign⟩

def collect (d : Densities α) (r : Results α) : Results α :=
  { r with densities := some (d.sums.map (· / d.signSum)) }

end Densities

namespace Orders

def empty (colors : Nat) : Orders := ⟨[], List.replicate colors [], 0⟩

def start {α : Type} (colors : Nat) : Outcome α Orders := do
  Outcome.require (colors ≤ Configuration.colorLimit) .tooManyColors
  pure (empty colors)

def record (histogram : List Nat) (order : Nat) : List Nat :=
  let grown := histogram ++ List.replicate (order + 1 - histogram.length) 0
  grown.modify order (· + 1)

def accumulate {α : Type} (o : Orders) (s : State α) : Orders :=
  let sizes := (s.determinants.map Determinant.size).take o.colors.length
  { total := record o.total (sizes.foldl (fun n k => n + k) 0)
    colors := List.zipWith record o.colors sizes ++ o.colors.drop sizes.length
    measurements := o.measurements + 1 }

variable {α : Type} [Scalar α]

def frequencies (histogram : List Nat) (measurements : Nat) : List α :=
  histogram.map fun (count : Nat) => (count : α) / (measurements : α)

def collect (o : Orders) (r : Results α) : Results α :=
  { r with
    totalOrders := some (frequencies o.total o.measurements)
    orders := some (o.colors.map fun h => frequencies h o.measurements) }

end Orders

namespace AverageSign

variable {α : Type} [Scalar α]

def empty : AverageSign α := ⟨0, 0⟩

def accumulate (a : AverageSign α) (sign : α) : AverageSign α :=
  ⟨a.sum + sign, a.measurements + 1⟩

def collect (a : AverageSign α) (r : Results α) : Results α :=
  { r with averageSign := some (a.sum / (a.measurements : α)) }

end AverageSign

namespace Measure

variable {α : Type}

def name : Measure α → String
  | green _ => "g_f_tau"
  | densities _ => "densities"
  | orders _ => "perturbation_order"
  | sign _ => "average_sign"

variable [Scalar α]

def accumulate (v : Measure α) (s : State α) (m : Model α) (weight : α) : Outcome α (Measure α) :=
  match v with
  | green g => do pure (.green (← g.accumulate s m weight))
  | densities d => do pure (.densities (← d.accumulate s m weight))
  | orders o => pure (.orders (o.accumulate s))
  | sign a => pure (.sign (a.accumulate weight))

def collect (v : Measure α) (r : Results α) : Results α :=
  match v with
  | green g => g.collect r
  | densities d => d.collect r
  | orders o => o.collect r
  | sign a => a.collect r

def accumulateAll (vs : List (Measure α)) (s : State α) (m : Model α) (weight : α) :
    Outcome α (List (Measure α)) :=
  vs.mapM fun v => v.accumulate s m weight

def collectAll (vs : List (Measure α)) (r : Results α) : Results α :=
  vs.foldl (fun r v => v.collect r) r

end Measure
end ImpuritySampler
