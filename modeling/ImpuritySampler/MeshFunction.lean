import ImpuritySampler.Fault
import ImpuritySampler.Grid
import ImpuritySampler.Grid.Extent

/-!
# Functions on a uniform mesh

A matrix-valued function of imaginary time, given at equally spaced points of the closed interval
from zero to `beta` and linearly interpolated in between. Retarded kernels and tabulated
hybridization functions are of this form. Main statement: a tabulated function has the entries that
it was tabulated from.
-/

set_option autoImplicit false

namespace ImpuritySampler

structure MeshFunction (α : Type) where
  beta : α
  values : Stack α
deriving BEq

namespace MeshFunction

variable {α : Type} [Scalar α]

def points (f : MeshFunction α) : Nat := f.values.layers

def dim (f : MeshFunction α) : Nat := f.values.rows

def ofValues (beta : α) (values : Stack α) : Outcome α (MeshFunction α) := do
  Outcome.require (0 < beta) .periodNotPositive
  Outcome.require (2 ≤ values.layers) (.meshTooShort values.layers)
  pure ⟨beta, values⟩

def pointTime (beta : α) (points k : Nat) : α :=
  (k : α) * (beta / ((points - 1 : Nat) : α))

def ofFn (beta : α) (points dim : Nat) (f : α → Grid α) : MeshFunction α :=
  let layers := Vector.ofFn fun k : Fin points => f (pointTime beta points k)
  ⟨beta, Stack.ofFn points dim dim fun k i j => if h : k < points then layers[k].entry i j else 0⟩

def tabulate (beta : α) (points dim : Nat) (f : α → Grid α) : Outcome α (MeshFunction α) := do
  Outcome.require (2 ≤ points) .tabulationTooShort
  Outcome.require (Extent.Storable [points, dim, dim]) .tableTooLarge
  Outcome.require (∀ k < points, (f (pointTime beta points k)).HasShape dim dim) .tabulationShape
  pure (ofFn beta points dim f)

def entry (f : MeshFunction α) (k a b : Nat) : Outcome α α :=
  match f.values.get? k a b with
  | some x => .ok x
  | none => .error .outOfRange

def position (f : MeshFunction α) (tau : α) : α :=
  let last := ((f.points - 1 : Nat) : α)
  Scalar.clamp 0 last (tau / f.beta * last)

def cell (f : MeshFunction α) (tau : α) : Nat := min (Scalar.floor (f.position tau)) (f.points - 2)

def value (f : MeshFunction α) (tau : α) (a b : Nat) : Outcome α α := do
  Outcome.require (-Scalar.tolerance ≤ tau ∧ tau ≤ f.beta * (1 + Scalar.tolerance))
    (.outsideMesh tau)
  Outcome.require (2 ≤ f.points) .overflow
  let k := f.cell tau
  let w := f.position tau - (k : α)
  let left ← f.entry k a b
  let right ← f.entry (k + 1) a b
  pure ((1 - w) * left + w * right)

def matrix (f : MeshFunction α) (tau : α) : Outcome α (Grid α) := do
  Outcome.require (Extent.Storable [f.dim, f.dim]) .tableTooLarge
  Grid.ofFnM f.dim f.dim fun a b => f.value tau a b

theorem entry_ofFn (beta : α) {points dim : Nat} (f : α → Grid α) {k i j : Nat} (hk : k < points)
    (hi : i < dim) (hj : j < dim) :
    (ofFn beta points dim f).entry k i j = .ok ((f (pointTime beta points k)).entry i j) := by
  rw [entry, ofFn, Stack.get?_ofFn _ hk hi hj]
  simp [hk]

end MeshFunction
end ImpuritySampler
