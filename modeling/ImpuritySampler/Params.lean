import ImpuritySampler.Hybridization

/-!
# Parameters of a run

The model and the controls of a simulation, and the rules that a usable set obeys. The number of
colors is the number of chemical potentials.
-/

set_option autoImplicit false

namespace ImpuritySampler

structure Retarded (α : Type) where
  kernel : MeshFunction α
  slope : MeshFunction α
deriving BEq

structure Controls where
  meshPoints : Nat := 10001
  cycles : Nat := 10000
  cycleLength : Nat := 50
  warmupCycles : Nat := 1000
  seed : Nat := 34788
  insertMove : Bool := true
  removeMove : Bool := true
  splitMove : Bool := true
  regroupMove : Bool := true
  measureGreen : Bool := true
  measureImproved : Bool := false
  measureDensities : Bool := true
  measureOrders : Bool := true
  measureSign : Bool := true
  checkState : Bool := false
deriving BEq

structure Params (α : Type) where
  beta : α
  mu : List α
  interaction : List (List α)
  hybridization : List (Hybridization α)
  retarded : Option (Retarded α)
  spinSlope : Option (MeshFunction α)
  controls : Controls
deriving BEq

namespace Params

variable {α : Type}

def ofModel (beta : α) (mu : List α) (interaction : List (List α))
    (hybridization : List (Hybridization α)) : Params α :=
  { beta, mu, interaction, hybridization, retarded := none, spinSlope := none, controls := {} }

def colors (p : Params α) : Nat := p.mu.length

variable [Scalar α]

def coupling (p : Params α) (c d : Nat) : α := ((p.interaction[c]?.bind (·[d]?))).getD 0

def differentBeta (given expected : α) : Bool :=
  Scalar.tolerance * expected < Scalar.abs (given - expected)

def problemWhen (p : Prop) [Decidable p] (problem : Problem α) : Option (Problem α) :=
  if p then some problem else none

def betaProblem? (p : Params α) : Option (Problem α) :=
  problemWhen (¬(0 < p.beta ∧ Scalar.isFinite p.beta = true)) (.beta p.beta)

def shapeProblem? (p : Params α) : Option (Problem α) :=
  problemWhen (p.colors = 0) .noColor
    <|> problemWhen
      (¬(p.interaction.length = p.colors ∧ ∀ row ∈ p.interaction, row.length = p.colors))
      (.interactionShape p.colors)

def interactionProblem? (p : Params α) : Option (Problem α) :=
  (List.range p.colors).findSome? fun c =>
    problemWhen (¬Scalar.Same (p.coupling c c) 0) (.interactionDiagonal c (p.coupling c c))
      <|> (List.range c).findSome? fun d =>
        problemWhen (¬Scalar.Same (p.coupling c d) (p.coupling d c))
          (.interactionAsymmetric c d (p.coupling c d) (p.coupling d c))

def levelProblem? (color : Nat) (levels : List (BathLevel α)) : Option (Problem α) :=
  (levels.zipIdx).findSome? fun (level, l) =>
    problemWhen (level.couplings.length ≠ 1) (.bathCouplings color l level.couplings.length)

def lineProblem? (beta : α) (color : Nat) (h : Hybridization α) : Option (Problem α) :=
  problemWhen (differentBeta h.beta beta = true) (.hybridizationBeta color h.beta beta)
    <|> problemWhen (h.dim ≠ 1) (.hybridizationBlock color h.dim)
    <|> match h with
      | .bath _ levels => levelProblem? color levels
      | .tabulated _ => none

def hybridizationProblem? (p : Params α) : Option (Problem α) :=
  problemWhen (p.hybridization.length ≠ p.colors)
      (.hybridizationCount p.colors p.hybridization.length)
    <|> p.hybridization.zipIdx.findSome? fun (h, color) => lineProblem? p.beta color h

def kernelProblem? (p : Params α) (name : KernelName) (f : MeshFunction α) : Option (Problem α) :=
  problemWhen (differentBeta f.beta p.beta = true) (.kernelBeta name f.beta p.beta)
    <|> problemWhen (f.dim ≠ p.colors) (.kernelShape name p.colors f.dim)

def kernelsProblem? (p : Params α) : Option (Problem α) :=
  (p.retarded.bind fun r =>
      p.kernelProblem? .retarded r.kernel <|> p.kernelProblem? .retardedSlope r.slope)
    <|> p.spinSlope.bind (p.kernelProblem? .spinSlope)

def controlsProblem? (p : Params α) : Option (Problem α) :=
  let c := p.controls
  problemWhen (c.meshPoints < 2) (.meshPoints c.meshPoints)
    <|> problemWhen (c.cycles = 0) .noCycle
    <|> problemWhen (c.cycleLength = 0) .emptyCycle
    <|> problemWhen ((c.insertMove || c.removeMove || c.splitMove || c.regroupMove) = false) .noMove

def problem? (p : Params α) : Option (Problem α) :=
  p.betaProblem? <|> p.shapeProblem? <|> p.interactionProblem? <|> p.hybridizationProblem?
    <|> p.kernelsProblem? <|> p.controlsProblem?

end Params
end ImpuritySampler
