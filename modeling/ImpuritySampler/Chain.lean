import ImpuritySampler.Measure
import ImpuritySampler.Move
import ImpuritySampler.State.Check

/-!
# Markov chains

A chain attempts one move at a time. A move is chosen by weight, makes its proposal, and is accepted
if the next random number is below the size of its weight. The chain keeps the sign of its state as
it goes.
-/

set_option autoImplicit false

namespace ImpuritySampler

structure Chain (α : Type) where
  state : State α
  movers : List (Mover α)
  weights : List α
  table : WeightTable α
  random : Random
  sign : Sign
  checks : Bool := false
  measurements : Nat := 0
  signSum : α

structure Step (α : Type) where
  accepted : Bool
  /-- Was a weight that is not finite replaced? -/
  fallback : Bool
  chain : Chain α

namespace Chain

variable {α : Type} [Scalar α]

def tableOf (weights : List α) : Outcome α (WeightTable α) :=
  match weights with
  | [] => .ok ⟨[], 1⟩
  | _ => WeightTable.ofWeights weights

def start (state : State α) (kinds : List MoveKind) (weights : List α) (random : Random) :
    Outcome α (Chain α) := do
  Outcome.require (kinds.length = weights.length) .weightCount
  Outcome.require (∀ w ∈ weights, 0 ≤ w) .negativeWeights
  let table ← tableOf weights
  pure
    { state, movers := kinds.map Mover.ofKind, weights, table, random, sign := state.sign,
      signSum := 0 }

def push (c : Chain α) (kind : MoveKind) (weight : α) : Outcome α (Chain α) := do
  Outcome.require (0 ≤ weight) .negativeWeight
  let weights := c.weights ++ [weight]
  pure { c with movers := c.movers ++ [Mover.ofKind kind], weights, table := ← tableOf weights }

def verify (c : Chain α) : Outcome α Unit := do
  c.state.check
  let expected ← c.state.signFromScratch
  Outcome.require (c.sign = expected) (.signDrift c.sign expected c.state.config)

def accepts (number weight : α) : Bool := number < Scalar.abs weight

def resolve (c : Chain α) (index : Nat) (v : Mover α) (o : Offer α) (number : α) :
    Outcome α (Step α) := do
  let held := v.hold o
  if accepts number o.weight then
    let (ratio, v, state) ← held.accept o.state
    let c := { c with
      state
      movers := c.movers.set index v
      sign := c.sign * (ratio * .ofScalar o.weight) }
    if c.checks then c.verify
    pure ⟨true, o.fallback, c⟩
  else
    let (v, state) ← held.reject o.state
    pure ⟨false, o.fallback, { c with state, movers := c.movers.set index v }⟩

def step (c : Chain α) (m : Model α) : Outcome α (Step α) := do
  if c.movers.isEmpty then pure ⟨false, false, c⟩
  else
    let (index, r) ← c.table.draw c.random
    let v ← Outcome.nth c.movers index
    let (o, r) ← Proposal.draw v.kind c.state m r
    let (number, r) ← r.unit
    { c with random := r }.resolve index v o number

structure Progress (α : Type) where
  chain : Chain α
  measures : List (Measure α)
  fallbacks : Nat := 0

def advance (m : Model α) (p : Progress α) : Outcome α (Progress α) := do
  let s ← p.chain.step m
  pure { p with chain := s.chain, fallbacks := p.fallbacks + s.fallback.toNat }

def cycle (m : Model α) (length : Nat) : Progress α → Outcome α (Progress α) :=
  Outcome.iterate (advance m) length

def warmup (m : Model α) (cycles length : Nat) : Progress α → Outcome α (Progress α) :=
  Outcome.iterate (cycle m length) cycles

def measure (m : Model α) (p : Progress α) : Outcome α (Progress α) := do
  let weight : α := p.chain.sign.toScalar
  let measures ← Measure.accumulateAll p.measures p.chain.state m weight
  pure
    { p with
      measures
      chain := { p.chain with
        measurements := p.chain.measurements + 1
        signSum := p.chain.signSum + weight } }

def run (m : Model α) (cycles length : Nat) : Progress α → Outcome α (Progress α) :=
  Outcome.iterate (fun p => do measure m (← cycle m length p)) cycles

def rates (c : Chain α) : List (String × α) := c.movers.map fun v => (v.kind.name, v.rate)

end Chain
end ImpuritySampler
