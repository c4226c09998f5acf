import ImpuritySampler.Grid
import ImpuritySampler.Sign

/-!
# Determinants and products from scratch

Dense linear algebra that keeps nothing between two calls. Determinants up to size three are
expanded, larger ones come from elimination with row exchanges. Every table is taken as square.
-/

set_option autoImplicit false

namespace ImpuritySampler.Elimination

variable {α : Type} [Scalar α]

def betterPivot (best : Nat × α) (later : α × Nat) : Nat × α :=
  if best.2 < Scalar.abs later.1 then (later.2, Scalar.abs later.1) else best

def pivotPlace : List α → Nat
  | [] => 0
  | a :: l => ((l.zipIdx 1).foldl betterPivot (0, Scalar.abs a)).1

def exchange (rows : List (List α)) (p : Nat) : List (List α) :=
  match rows, rows[p]? with
  | first :: _, some other => (rows.set p first).set 0 other
  | _, _ => rows

def cancel (pivotRow row : List α) (inverse : α) : List α :=
  let factor := row.headD 0 * inverse
  List.zipWith (fun p r => -p * factor + r) pivotRow.tail row.tail

/-- The pivots met in order, with the sign of the row exchanges. A column without a nonzero entry
gives the pivot zero and exchanges nothing. -/
def pivots : Nat → List (List α) → List α × Sign
  | 0, _ => ([], .plus)
  | n + 1, rows =>
    let column := rows.map (·.headD 0)
    let p := pivotPlace column
    let pivot := column.getD p 0
    if Scalar.Same pivot 0 then
      let (rest, sign) := pivots n (rows.tail.map List.tail)
      (pivot :: rest, sign)
    else
      match exchange rows p with
      | [] => ([], .plus)
      | pivotRow :: others =>
        let (rest, sign) := pivots n (others.map fun row => cancel pivotRow row (1 / pivot))
        (pivot :: rest, if p = 0 then sign else .minus * sign)

def determinant (g : Grid α) : α :=
  let m := g.entry
  if g.rows = 1 then m 0 0
  else if g.rows = 2 then m 0 0 * m 1 1 - m 1 0 * m 0 1
  else if g.rows = 3 then
    m 0 0 * (m 1 1 * m 2 2 - m 2 1 * m 1 2) - m 0 1 * (m 1 0 * m 2 2 - m 2 0 * m 1 2)
      + m 0 2 * (m 1 0 * m 2 1 - m 2 0 * m 1 1)
  else
    let (ps, sign) := pivots g.rows g.toLists
    sign.apply (ps.foldl (· * ·) 1)

def product (a b : Grid α) : Grid α :=
  Grid.ofFn a.rows b.cols fun i j =>
    Scalar.dot a.cols (a.entry i) fun l => b.entry l j

/-- Largest deviation of an entry of the product from the identity, read column by column; an
undefined entry replaces what was seen before and is replaced by what follows. -/
def distanceFromIdentity (a b : Grid α) : α :=
  let p := product a b
  let sizes := (List.range p.cols).flatMap fun j =>
    (List.range p.rows).map fun i => Scalar.abs (p.entry i j - if i = j then 1 else 0)
  match sizes with
  | [] => 0
  | s :: rest => rest.foldl (fun best t => if t ≤ best then best else t) s

end ImpuritySampler.Elimination
