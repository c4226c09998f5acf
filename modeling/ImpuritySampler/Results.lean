import ImpuritySampler.Fault
import ImpuritySampler.Grid

/-!
# Results

The observables of one run, and their pooling. Observables that were divided by the sum of the signs
are averaged with that sum as weight, the others with the number of measurements.
-/

set_option autoImplicit false

namespace ImpuritySampler

structure Results (α : Type) where
  beta : α
  measurements : Nat
  signSum : α
  averageSign : Option α
  densities : Option (List α)
  /-- The Green's function on a mesh, a row for each color. -/
  green : Option (Grid α)
  /-- The improved estimator, in the same form. -/
  improved : Option (Grid α)
  /-- How often each total number of segments was met. -/
  totalOrders : Option (List α)
  /-- How often each number of segments was met, color by color. -/
  orders : Option (List (List α))

namespace Results

variable {α : Type} [Scalar α]

def empty (beta : α) : Results α where
  beta := beta
  measurements := 0
  signSum := 0
  averageSign := none
  densities := none
  green := none
  improved := none
  totalOrders := none
  orders := none

def mean (wa wb a b : α) : α := (wa * a + wb * b) / (wa + wb)

def both {β : Type} (combine : β → β → Outcome α β) : Option β → Option β → Outcome α (Option β)
  | some a, some b => do pure (some (← combine a b))
  | none, none => pure none
  | _, _ => .error (.mismatch .observables)

def mergeHistograms (wa wb : α) (a b : List α) : List α :=
  (List.range (max a.length b.length)).map fun k => mean wa wb (a.getD k 0) (b.getD k 0)

def mergeDensities (wa wb : α) (a b : List α) : Outcome α (List α) := do
  Outcome.require (a.length = b.length) (.mismatch .densities)
  pure (List.zipWith (mean wa wb) a b)

def mergeMeshes (wa wb : α) (a b : Grid α) : Outcome α (Grid α) := do
  Outcome.require (a.rows = b.rows ∧ a.cols = b.cols) (.mismatch .meshes)
  pure (Grid.zipWith (mean wa wb) a b)

def mergeOrders (wa wb : α) (a b : List (List α)) : Outcome α (List (List α)) := do
  Outcome.require (a.length = b.length) (.mismatch .histograms)
  pure (List.zipWith (mergeHistograms wa wb) a b)

def merge (a b : Results α) : Outcome α (Results α) := do
  Outcome.require (Scalar.abs (a.beta - b.beta) ≤ Scalar.tolerance * a.beta)
    (.mismatch (.beta a.beta b.beta))
  let (za, zb) := (a.signSum, b.signSum)
  let (na, nb) := ((a.measurements : α), (b.measurements : α))
  let averageSign ← both (fun x y => pure (mean na nb x y)) a.averageSign b.averageSign
  let densities ← both (mergeDensities za zb) a.densities b.densities
  let green ← both (mergeMeshes za zb) a.green b.green
  let improved ← both (mergeMeshes za zb) a.improved b.improved
  let totalOrders ← both (fun x y => pure (mergeHistograms na nb x y)) a.totalOrders b.totalOrders
  let orders ← both (mergeOrders na nb) a.orders b.orders
  let measurements ← Outcome.word (a.measurements + b.measurements)
  pure
    { beta := a.beta, measurements, signSum := za + zb, averageSign, densities, green, improved,
      totalOrders, orders }

end Results
end ImpuritySampler
