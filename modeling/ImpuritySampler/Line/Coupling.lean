import ImpuritySampler.Line
import ImpuritySampler.MeshFunction

/-!
# Retarded coupling of operators

An operator couples to every operator of a line through a kernel of their cyclic distance. A
creation carries the charge plus one, an annihilation minus one. A line that is occupied everywhere
has no operators.
-/

set_option autoImplicit false

namespace ImpuritySampler.Line

variable {α : Type} [Scalar α]

def coupling (l : Line α) (t : Time α) (charge : Sign) (kernel : MeshFunction α) (a b : Nat) :
    Outcome α α := do
  let total ← l.foldlM (fun total s => do
    if ← s.isFull then pure total
    else
      let toCreation ← kernel.value (← t.sub s.creation).value a b
      let toAnnihilation ← kernel.value (← t.sub s.annihilation).value a b
      pure (total + (toCreation - toAnnihilation))) 0
  pure (charge.apply total)

def pairCoupling (l : Line α) (annihilation creation : Time α) (kernel : MeshFunction α)
    (a b : Nat) : Outcome α α := do
  pure ((← l.coupling creation .plus kernel a b) + (← l.coupling annihilation .minus kernel a b))

end ImpuritySampler.Line
