import ImpuritySampler.Chain

/-!
# Replicas

One independent replica: a model, a chain that starts without operators, and the measures that the
parameters ask for.
-/

set_option autoImplicit false

namespace ImpuritySampler

structure Replica (α : Type) where
  params : Params α
  model : Model α
  progress : Chain.Progress α

namespace Replica

variable {α : Type} [Scalar α]

def kinds (c : Controls) : List MoveKind :=
  [(c.insertMove, .insert), (c.removeMove, .remove), (c.splitMove, .split),
    (c.regroupMove, .regroup)].filterMap fun (enabled, kind) => if enabled then some kind else none

def enabled (on : Bool) (v : Outcome α (Measure α)) : Outcome α (List (Measure α)) :=
  if on then do pure [← v]
  else pure []

def measures (p : Params α) : Outcome α (List (Measure α)) := do
  let c := p.controls
  let green ← enabled c.measureGreen do
    pure (.green (← Green.start p.colors p.beta c.meshPoints c.measureImproved))
  let densities ← enabled c.measureDensities do
    pure (.densities (← Densities.start p.colors))
  let orders ← enabled c.measureOrders do
    pure (.orders (← Orders.start p.colors))
  let sign ← enabled c.measureSign (pure (.sign AverageSign.empty))
  pure (green ++ densities ++ orders ++ sign)

def ofParams (p : Params α) : Outcome α (Replica α) := do
  let model ← Model.ofParams p
  let kinds := kinds p.controls
  let chain ← Chain.start (← State.empty p) kinds (kinds.map fun _ => 1)
    { source := .ofSeed p.controls.seed.toUInt64 }
  let chain := { chain with checks := p.controls.checkState }
  pure { params := p, model, progress := { chain, measures := ← measures p } }

def run (s : Replica α) : Outcome α (Results α × Replica α) := do
  let c := s.params.controls
  let p ← Chain.warmup s.model c.warmupCycles c.cycleLength s.progress
  let p ← Chain.run s.model c.cycles c.cycleLength p
  let counted : Results α :=
    { Results.empty s.params.beta with
      measurements := p.chain.measurements
      signSum := p.chain.signSum }
  pure (Measure.collectAll p.measures counted, { s with progress := p })

end Replica
end ImpuritySampler
