import ImpuritySampler.Line.Search
import ImpuritySampler.Segment.Occupation

/-!
# Lines

Places on a line, and the part of the cycle that its segments occupy. Overlaps are counted in ticks,
without rounding.
-/

set_option autoImplicit false

namespace ImpuritySampler.Line

variable {α : Type}

def next (index length : Nat) : Outcome α Nat := do
  Outcome.require (index < length) (.beyondList index length)
  pure (if index + 1 = length then 0 else index + 1)

def previous (index length : Nat) : Outcome α Nat := do
  Outcome.require (index < length) (.beyondList index length)
  pure (if index = 0 then length - 1 else index - 1)

/-- The place at which a segment keeps the line sorted, after those that are equal. -/
def place (l : Line α) (s : Segment α) : Nat :=
  Search.partitionPoint (fun i => match l[i]? with
    | some t => t.notAfter s
    | none => false) l.length

/-- The first place of a sequence of times, sorted by decreasing value, whose time is not later than
`t`. -/
def lowerBound (times : List (Time α)) (t : Time α) : Nat :=
  Search.lowerBound (fun i : Fin times.length => times[i].ticks) t.ticks

def sharedTicks (a b : Nat × Nat) : Nat := min a.2 b.2 - max a.1 b.1

def sharedWith (mine theirs : List (Nat × Nat)) (total : Nat) : Nat :=
  mine.foldl (fun n a => theirs.foldl (fun n b => n + sharedTicks a b) n) total

variable [Scalar α]

def overlapTicks (l : Line α) (s : Segment α) : Outcome α Nat := do
  let mine ← s.ranges
  l.foldlM (fun total t => do
    let theirs ← t.ranges
    Outcome.word (sharedWith mine theirs total)) 0

def overlap (l : Line α) (s : Segment α) : Outcome α α := do
  pure (Time.scale (← overlapTicks l s) s.annihilation.period)

def occupied (l : Line α) : Outcome α α := do
  let lengths ← l.mapM Segment.length
  pure (Scalar.sum (lengths.map Time.value))

def occupiedBelow (l : Line α) (t : Time α) : Outcome α Bool :=
  l.anyM fun s => s.occupiesBelow t

end ImpuritySampler.Line
