import ImpuritySampler.Configuration.Edit
import ImpuritySampler.Grid.Square
import ImpuritySampler.Params

/-!
# States of the simulation

A configuration and, for each color, the determinant over its operators: creations are rows and
annihilations are columns, both by decreasing time.
-/

set_option autoImplicit false

namespace ImpuritySampler

structure State (α : Type) where
  config : Configuration α
  determinants : List (LineDeterminant α)

namespace State

variable {α : Type}

def determinant (s : State α) (color : Nat) : Outcome α (LineDeterminant α) :=
  Outcome.nth s.determinants color

def setDeterminant (s : State α) (color : Nat) (d : LineDeterminant α) : State α :=
  { s with determinants := s.determinants.set color d }

variable [Scalar α]

def empty (p : Params α) : Outcome α (State α) := do
  pure
    { config := ← Configuration.empty p.colors p.beta
      determinants := p.hybridization.map fun h => Determinant.empty h.element }

def sign (s : State α) : Sign :=
  s.determinants.foldl (fun sign d => sign * d.sign) s.config.traceSign

def signFromScratch (s : State α) : Outcome α Sign :=
  s.determinants.foldlM (fun sign d => do
    pure (sign * .ofScalar (← (← d.matrix).determinant))) s.config.traceSign

end State
end ImpuritySampler
