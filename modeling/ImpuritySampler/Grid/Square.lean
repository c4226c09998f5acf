import ImpuritySampler.Fault
import ImpuritySampler.Grid.Elimination

/-!
# Square tables

Determinants are taken of square tables only, and the product of two tables is compared with the
identity only if both are square and fit together. Anything else is refused.
-/

set_option autoImplicit false

namespace ImpuritySampler.Grid

variable {α : Type} [Scalar α]

def requireSquare (g : Grid α) : Outcome α Unit :=
  Outcome.require (g.rows = g.cols) (.notSquare g.rows g.cols)

/-- The determinant; a table without entries has determinant one, whatever its shape. -/
def determinant (g : Grid α) : Outcome α α :=
  if g.rows = 0 ∨ g.cols = 0 then pure 1
  else do
    g.requireSquare
    pure (Elimination.determinant g)

def distanceFromIdentity (a b : Grid α) : Outcome α α := do
  a.requireSquare
  b.requireSquare
  Outcome.require (a.cols = b.rows) .shapesDiffer
  pure (Elimination.distanceFromIdentity a b)

end ImpuritySampler.Grid
