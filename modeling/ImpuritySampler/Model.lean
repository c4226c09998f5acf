import ImpuritySampler.Params

/-!
# Models

The constants that moves and measures read, taken from parameters that obey the rules.
-/

set_option autoImplicit false

namespace ImpuritySampler

structure Model (α : Type) where
  beta : α
  mu : List α
  interaction : Grid α
  retarded : Option (Retarded α)
  spinSlope : Option (MeshFunction α)

namespace Model

variable {α : Type}

def colors (m : Model α) : Nat := m.mu.length

def ofParams [Scalar α] (p : Params α) : Outcome α (Model α) :=
  match p.problem? with
  | some problem => .error (.invalidParams problem)
  | none => .ok
    { beta := p.beta
      mu := p.mu
      interaction := Grid.ofFn p.colors p.colors p.coupling
      retarded := p.retarded
      spinSlope := p.spinSlope }

def kernel? (m : Model α) : KernelName → Option (MeshFunction α)
  | .retarded => m.retarded.map Retarded.kernel
  | .retardedSlope => m.retarded.map Retarded.slope
  | .spinSlope => m.spinSlope

def kernel (m : Model α) (name : KernelName) : Outcome α (MeshFunction α) :=
  match m.kernel? name with
  | some f => .ok f
  | none => .error (.noKernel name)

def coupling (m : Model α) (c d : Nat) : Outcome α α :=
  match m.interaction.get? c d with
  | some x => .ok x
  | none => .error .outOfRange

end Model
end ImpuritySampler
