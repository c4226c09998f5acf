import ImpuritySampler.Determinant
import ImpuritySampler.MeshFunction
import ImpuritySampler.Time.Cycle

/-!
# Hybridization functions

How the orbitals of one color exchange particles with their surroundings, as a function of imaginary
time: a discrete bath, evaluated analytically, or values on a mesh. The matrix elements between
operators extend the function antiperiodically.
-/

set_option autoImplicit false

namespace ImpuritySampler

structure BathLevel (α : Type) where
  energy : α
  couplings : List α
deriving BEq

inductive Hybridization (α : Type) where
  | bath (beta : α) (levels : List (BathLevel α))
  | tabulated (f : MeshFunction α)
deriving BEq

structure Key (α : Type) where
  time : Time α
  orbital : Nat

namespace BathLevel

variable {α : Type} [Scalar α]

/-- `exp (-e tau) / (1 + exp (-beta e))`, with exponents that are never positive between zero and
`beta`. -/
def propagator (energy beta tau : α) : α :=
  if 0 ≤ energy then Scalar.exp (-energy * tau) / (1 + Scalar.exp (-beta * energy))
  else Scalar.exp (energy * (beta - tau)) / (Scalar.exp (beta * energy) + 1)

def value (level : BathLevel α) (beta tau : α) (a b : Nat) : Outcome α α := do
  let va ← Outcome.nth level.couplings a
  let vb ← Outcome.nth level.couplings b
  pure (-va * vb * propagator level.energy beta tau)

end BathLevel

namespace Hybridization

variable {α : Type}

def beta : Hybridization α → α
  | bath b _ => b
  | tabulated f => f.beta

variable [Scalar α]

def dim : Hybridization α → Nat
  | bath _ [] => 1
  | bath _ (level :: _) => level.couplings.length
  | tabulated f => f.dim

def value (h : Hybridization α) (tau : α) (a b : Nat) : Outcome α α :=
  match h with
  | bath beta levels => do
    pure (Scalar.sum (← levels.mapM fun level => level.value beta tau a b))
  | tabulated f => f.value tau a b

/-- The matrix element between a creation at `x` and an annihilation at `y`: the function at their
cyclic distance, with the other sign if the creation is the earlier one. -/
def element (h : Hybridization α) (x y : Key α) : Outcome α α := do
  let v ← h.value (← x.time.sub y.time).value x.orbital y.orbital
  pure (if y.time.ticks ≤ x.time.ticks then v else -v)

end Hybridization

abbrev LineDeterminant (α : Type) := Determinant α (Key α) (Key α)

end ImpuritySampler
