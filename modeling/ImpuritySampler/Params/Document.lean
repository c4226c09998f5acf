import ImpuritySampler.Hybridization.Document
import ImpuritySampler.Params
import ImpuritySampler.Scalar.Binary64

/-!
# Parameters as documents

The model has to be given; everything else has a usual value. Parameters are written one value per
line, with all fields in order.
-/

set_option autoImplicit false

namespace ImpuritySampler

open Json

namespace Retarded

structure Parts where
  kernel : Option (MeshFunction Float) := none
  slope : Option (MeshFunction Float) := none

def Parts.finish (p : Parts) : Decoded (Retarded Float) := do
  pure { kernel := ← present p.kernel, slope := ← present p.slope }

def schema : Schema Parts (Retarded Float) where
  fields :=
    [field "k" MeshFunction.ofNode fun f p => { p with kernel := some f },
      field "kprime" MeshFunction.ofNode fun f p => { p with slope := some f }]
  required := 2
  start := {}
  finish := Parts.finish

def ofNode : Node → Decoded (Retarded Float) := schema.read

def toValue (r : Retarded Float) : Value :=
  .object [("k", r.kernel.toValue), ("kprime", r.slope.toValue)]

end Retarded

namespace Params

structure Parts where
  beta : Option Float := none
  mu : Option (List Float) := none
  interaction : Option (List (List Float)) := none
  hybridization : Option (List (Hybridization Float)) := none
  retarded : Option (Retarded Float) := none
  spinSlope : Option (MeshFunction Float) := none
  controls : Controls := {}

/-- A hybridization function stands in a list of the parameters, two levels down in the text. -/
def hybridizationDepth : Nat := depthLimit - 2

def control {β : Type} (name : String) (decode : Node → Decoded β)
    (put : β → Controls → Controls) : Slot Parts :=
  field name decode fun b p => { p with controls := put b p.controls }

def Parts.finish (p : Parts) : Decoded (Params Float) := do
  pure
    { beta := ← present p.beta
      mu := ← present p.mu
      interaction := ← present p.interaction
      hybridization := ← present p.hybridization
      retarded := p.retarded
      spinSlope := p.spinSlope
      controls := p.controls }

def schema : Schema Parts (Params Float) where
  fields :=
    [field "beta" Node.toFloat fun x p => { p with beta := some x },
      field "mu" (Node.toList Node.toFloat) fun x p => { p with mu := some x },
      field "u" (Node.toList (Node.toList Node.toFloat)) fun x p =>
        { p with interaction := some x },
      field "hybridization" (Node.toList (Hybridization.ofNode hybridizationDepth)) fun x p =>
        { p with hybridization := some x },
      field "retarded" (Node.toOption Retarded.ofNode) fun x p => { p with retarded := x },
      field "kprime_spin" (Node.toOption MeshFunction.ofNode) fun x p => { p with spinSlope := x },
      control "n_tau" Node.toNat fun n c => { c with meshPoints := n },
      control "n_cycles" Node.toNat fun n c => { c with cycles := n },
      control "length_cycle" Node.toNat fun n c => { c with cycleLength := n },
      control "n_warmup_cycles" Node.toNat fun n c => { c with warmupCycles := n },
      control "seed" Node.toNat fun n c => { c with seed := n },
      control "move_insert_segment" Node.toBool fun b c => { c with insertMove := b },
      control "move_remove_segment" Node.toBool fun b c => { c with removeMove := b },
      control "move_split_segment" Node.toBool fun b c => { c with splitMove := b },
      control "move_regroup_segment" Node.toBool fun b c => { c with regroupMove := b },
      control "measure_g_tau" Node.toBool fun b c => { c with measureGreen := b },
      control "measure_f_tau" Node.toBool fun b c => { c with measureImproved := b },
      control "measure_densities" Node.toBool fun b c => { c with measureDensities := b },
      control "measure_perturbation_order" Node.toBool fun b c => { c with measureOrders := b },
      control "measure_average_sign" Node.toBool fun b c => { c with measureSign := b },
      control "check_invariants" Node.toBool fun b c => { c with checkState := b }]
  required := 4
  start := {}
  finish := Parts.finish

def ofNode : Node → Decoded (Params Float) := schema.read

def toValue (p : Params Float) : Value :=
  let c := p.controls
  .object
    [("beta", .ofFloat p.beta),
      ("mu", .ofList Value.ofFloat p.mu),
      ("u", .ofList (Value.ofList Value.ofFloat) p.interaction),
      ("hybridization", .ofList Hybridization.toValue p.hybridization),
      ("retarded", .ofOption Retarded.toValue p.retarded),
      ("kprime_spin", .ofOption MeshFunction.toValue p.spinSlope),
      ("n_tau", .ofNat c.meshPoints),
      ("n_cycles", .ofNat c.cycles),
      ("length_cycle", .ofNat c.cycleLength),
      ("n_warmup_cycles", .ofNat c.warmupCycles),
      ("seed", .ofNat c.seed),
      ("move_insert_segment", .bool c.insertMove),
      ("move_remove_segment", .bool c.removeMove),
      ("move_split_segment", .bool c.splitMove),
      ("move_regroup_segment", .bool c.regroupMove),
      ("measure_g_tau", .bool c.measureGreen),
      ("measure_f_tau", .bool c.measureImproved),
      ("measure_densities", .bool c.measureDensities),
      ("measure_perturbation_order", .bool c.measureOrders),
      ("measure_average_sign", .bool c.measureSign),
      ("check_invariants", .bool c.checkState)]

def save (p : Params Float) : String := p.toValue.toPretty

inductive Refusal where
  | unreadable (why : Break)
  | invalid (problem : Problem Float)

def load (text : String) : Except Refusal (Params Float) :=
  match Json.load ofNode text with
  | .error why => .error (.unreadable why)
  | .ok p =>
    match p.problem? with
    | some problem => .error (.invalid problem)
    | none => .ok p

end Params
end ImpuritySampler
