import ImpuritySampler.Random.Source
import ImpuritySampler.Time.Cycle

/-!
# Draws

Numbers below a bound, times in a window, scalars below one, and places by weight. A number below a
bound is the upper half of the product of a word with the bound; words whose lower half lies above a
zone are drawn again, so that all numbers are equally likely.
-/

set_option autoImplicit false

namespace ImpuritySampler

namespace Random

variable {α : Type}

def belowFrom (bound zone : Nat) : Nat → Random → Outcome α (Nat × Random)
  | 0, _ => .error .sourceExhausted
  | fuel + 1, r => do
    let (w, r) ← r.next
    let product := w.toNat * bound
    if product % wordLimit ≤ zone then pure (product / wordLimit, r)
    else belowFrom bound zone fuel r

def below (bound : Nat) (r : Random) : Outcome α (Nat × Random) :=
  belowFrom bound (wordLimit - 1 - (wordLimit - bound) % bound) r.source.patience r

def place (n : Nat) (r : Random) : Outcome α (Nat × Random) :=
  belowFrom n (n * Nat.pow 2 (63 - n.log2) - 1) r.source.patience r

def time (window : Time α) (r : Random) : Outcome α (Time α × Random) := do
  Outcome.require (0 < window.ticks) .emptyWindow
  let (ticks, r) ← r.below window.ticks
  pure (⟨ticks, window.period⟩, r)

def fraction [Scalar α] (bits : Nat) (w : UInt64) : α :=
  ((w.toNat / Nat.pow 2 (64 - bits) : Nat) : α) / (Nat.pow 2 bits : α)

def unit [Scalar α] (r : Random) : Outcome α (α × Random) := do
  let (w, r) ← r.next
  pure (fraction 53 w, r)

end Random

/-- The sums of the weights before each place but the first, and what a random fraction is
multiplied by to be compared with them. -/
structure WeightTable (α : Type) where
  bounds : List α
  scale : α

namespace WeightTable

variable {α : Type} [Scalar α]

def sums : α → List α → List α × α
  | total, [] => ([], total)
  | total, w :: rest =>
    let (bounds, all) := sums (total + w) rest
    (total :: bounds, all)

/-- The scale for a total. It is the total itself, unless the largest fraction of it is rounded up
to the whole, as for the smallest totals in floating point; then it is one step less. -/
def scaleOf (total : α) : α :=
  if total ≤ Random.fraction 52 (UInt64.ofNat (wordLimit - 1)) * total then total - 5e-324
  else total

def ofWeights (weights : List α) : Outcome α (WeightTable α) :=
  match weights with
  | [] => .error .invalidWeights
  | w :: rest => do
    Outcome.require (∀ x ∈ weights, 0 ≤ x) .invalidWeights
    let (bounds, total) := sums w rest
    Outcome.require (¬Scalar.Same total 0) .invalidWeights
    Outcome.require (Scalar.isFinite total = true) .weightsNotFinite
    pure ⟨bounds, scaleOf total⟩

def draw (t : WeightTable α) (r : Random) : Outcome α (Nat × Random) := do
  let (w, r) ← r.next
  let x := Random.fraction 52 w * t.scale
  pure (t.bounds.countP fun b => b ≤ x, r)

end WeightTable
end ImpuritySampler
