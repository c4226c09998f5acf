import ImpuritySampler.Move.Proposal
import ImpuritySampler.Random.Draw

/-!
# Moves

A mover makes one kind of proposal. It draws a proposal, holds it while it waits for a decision, and
counts the decisions. Between a decision and the next proposal it holds nothing.
-/

set_option autoImplicit false

namespace ImpuritySampler

structure Mover (α : Type) where
  kind : MoveKind
  proposal : Option (Proposal α) := none
  accepted : Nat := 0
  rejected : Nat := 0

namespace Change

variable {α : Type} [Scalar α]

def apply (change : Change α) (color : Nat) (c : Configuration α) : Outcome α (Configuration α) :=
  match change with
  | insert segment => do pure (← c.insert color segment).2
  | remove index => do pure (← c.remove color index).2
  | split index holeAnnihilation holeCreation => c.split color index holeAnnihilation holeCreation
  | regroup index => do pure (← c.regroup color index).2

end Change

namespace Proposal

variable {α : Type} [Scalar α]

/-- Draws a proposal of one kind: a color, then a segment, then two times in a window. Nothing is
drawn that a color has no use for. -/
def draw (kind : MoveKind) (s : State α) (m : Model α) (r : Random) :
    Outcome α (Offer α × Random) := do
  let (color, r) ← r.place s.config.colors
  let n := (← s.config.line color).length
  match kind with
  | .insert =>
    if ← s.config.isFull color then pure (degenerate s, r)
    else
      let (index, r) ←
        if n = 0 then pure (none, r)
        else do
          let (i, r) ← r.place n
          pure (some i, r)
      let w ← Window.insertion s color index
      if w.length.ticks = 0 then pure (degenerate s, r)
      else
        let (d₁, r) ← r.time w.length
        let (d₂, r) ← r.time w.length
        pure (← insert s m color w d₁ d₂, r)
  | .remove =>
    if n = 0 then pure (degenerate s, r)
    else if ← s.config.isFull color then pure (degenerate s, r)
    else
      let (index, r) ← r.place n
      pure (← remove s m color index, r)
  | .split =>
    if n = 0 then pure (degenerate s, r)
    else
      let (index, r) ← r.place n
      let w ← Window.split s color index
      let (d₁, r) ← r.time w.length
      let (d₂, r) ← r.time w.length
      pure (← split s m color index d₁ d₂, r)
  | .regroup =>
    if n = 0 then pure (degenerate s, r)
    else if ← s.config.isFull color then pure (degenerate s, r)
    else
      let (index, r) ← r.place n
      pure (← regroup s m color index, r)

end Proposal

namespace Mover

variable {α : Type} [Scalar α]

def ofKind (kind : MoveKind) : Mover α := { kind }

def hold (v : Mover α) (o : Offer α) : Mover α := { v with proposal := o.proposal }

/-- Carries out the held proposal and returns the ratio of the trace signs, which has to agree with
the sign of the determinant ratio. -/
def accept (v : Mover α) (s : State α) : Outcome α (Sign × Mover α × State α) := do
  match v.proposal with
  | none => .error (.noProposal v.kind)
  | some p =>
    let initial := s.config.traceSign
    let d ← (← s.determinant p.color).commit
    let config ← p.change.apply p.color s.config
    let ratio := config.traceSign * initial
    Outcome.require (ratio = p.determinantSign) (.signProblem p.determinantSign ratio config)
    pure (ratio, { v with proposal := none, accepted := v.accepted + 1 },
      { s.setDeterminant p.color d with config })

def reject (v : Mover α) (s : State α) : Outcome α (Mover α × State α) := do
  let s ←
    match v.proposal with
    | none => pure s
    | some p => do
      let d ← s.determinant p.color
      pure (s.setDeterminant p.color d.discard)
  pure ({ v with proposal := none, rejected := v.rejected + 1 }, s)

def rate (v : Mover α) : α :=
  let total := v.accepted + v.rejected
  if total = 0 then 0 else (v.accepted : α) / (total : α)

end Mover
end ImpuritySampler
