import ImpuritySampler.Configuration.Edit
import ImpuritySampler.Line.Coupling
import ImpuritySampler.Model

/-!
# Ratios of local weights

The local weight of a configuration has one factor for each occupied length, one for each length
that two colors occupy together, and one for each pair of operators. Putting a segment in, taking
one out, cutting a hole and closing one change it by the exponential of a sum over the operators
and segments that are already there.
-/

set_option autoImplicit false

namespace ImpuritySampler.LocalRatio

variable {α : Type} [Scalar α]

def density (c : Configuration α) (m : Model α) (color : Nat) (interval : Segment α) :
    Outcome α α := do
  let mu ← Outcome.nth m.mu color
  let own := mu * (← interval.length).value
  c.lines.zipIdx.foldlM (fun total (l, other) => do
    if other = color then pure total
    else
      let u ← m.coupling color other
      pure (total - u * (← l.overlap interval))) own

/-- Retarded interaction of a new pair of operators with those that are there, the segment at place
`skip` of its own color left out, and with itself. -/
def retarded (c : Configuration α) (m : Model α) (color : Nat) (annihilation creation : Time α)
    (skip : Option Nat) : Outcome α α := do
  match m.retarded with
  | none => pure 0
  | some r =>
    let total ← c.lines.zipIdx.foldlM (fun total (l, other) => do
      let others : Line α :=
        match skip with
        | some k => if other = color then l.eraseIdx k else l
        | none => l
      pure (total + (← others.pairCoupling annihilation creation r.kernel color other))) 0
    let own ← r.kernel.value (← annihilation.sub creation).value color color
    pure (total - own)

def insertLog (c : Configuration α) (m : Model α) (color : Nat) (s : Segment α)
    (skip : Option Nat) : Outcome α α := do
  pure ((← density c m color s) + (← retarded c m color s.annihilation s.creation skip))

def splitLog (c : Configuration α) (m : Model α) (color : Nat)
    (holeAnnihilation holeCreation : Time α) : Outcome α α := do
  let d ← density c m color ⟨holeCreation, holeAnnihilation⟩
  pure (-d + (← retarded c m color holeAnnihilation holeCreation none))

def insert (c : Configuration α) (m : Model α) (color : Nat) (s : Segment α) : Outcome α α := do
  pure (Scalar.exp (← insertLog c m color s none))

def remove (c : Configuration α) (m : Model α) (color index : Nat) : Outcome α α := do
  let s ← Outcome.nth (← c.line color) index
  pure (Scalar.exp (-(← insertLog c m color s (some index))))

def split (c : Configuration α) (m : Model α) (color : Nat)
    (holeAnnihilation holeCreation : Time α) : Outcome α α := do
  pure (Scalar.exp (← splitLog c m color holeAnnihilation holeCreation))

def regroup (c : Configuration α) (m : Model α) (color index : Nat) : Outcome α α := do
  let l ← c.line color
  let next ← Line.next index l.length
  let holeAnnihilation := (← Outcome.nth l next).annihilation
  let holeCreation := (← Outcome.nth l index).creation
  let (_, closed) ← c.regroup color index
  pure (Scalar.exp (-(← splitLog closed m color holeAnnihilation holeCreation)))

end ImpuritySampler.LocalRatio
