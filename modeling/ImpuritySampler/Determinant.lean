import ImpuritySampler.Fault
import ImpuritySampler.Grid

/-!
# Determinants under insertions and removals

A square matrix is given by row keys, column keys and an element rule; its inverse and determinant
are kept up to date while one row and one column are put in or taken out. Every change is first a
trial, which returns the ratio of the determinants and touches nothing else, and is then committed
or discarded. The inverse has the column of the matrix as its row index and the row of the matrix
as its column index.
-/

set_option autoImplicit false

namespace ImpuritySampler

/-- Row key `x` at place `row` and column key `y` at place `col`. The two vectors are the inverse
times the new column, by columns, and the new row times the inverse, by rows. -/
structure Insertion (α X Y : Type) where
  row : Nat
  col : Nat
  x : X
  y : Y
  inverseColumn : Array α
  rowInverse : Array α
  schur : α
  ratio : α

structure Removal (α : Type) where
  row : Nat
  col : Nat
  ratio : α

inductive Trial (α X Y : Type) where
  | idle
  | insertion (trial : Insertion α X Y)
  | removal (trial : Removal α)

structure Determinant (α X Y : Type) where
  element : X → Y → Outcome α α
  rowKeys : List X
  colKeys : List Y
  inverse : Grid α
  value : α
  trial : Trial α X Y

namespace Determinant

variable {α X Y : Type}

def size (d : Determinant α X Y) : Nat := d.rowKeys.length

def isIdle (d : Determinant α X Y) : Bool :=
  match d.trial with
  | .idle => true
  | _ => false

def requireIdle (d : Determinant α X Y) (kind : TrialKind) : Outcome α Unit :=
  Outcome.require (d.isIdle = true) (.trialPending kind)

def rowKey (d : Determinant α X Y) (i : Nat) : Outcome α X := Outcome.nth d.rowKeys i

def colKey (d : Determinant α X Y) (j : Nat) : Outcome α Y := Outcome.nth d.colKeys j

def inverseEntry (d : Determinant α X Y) (col row : Nat) : Outcome α α :=
  match d.inverse.get? col row with
  | some x => .ok x
  | none => .error .outOfRange

def matrix (d : Determinant α X Y) : Outcome α (Grid α) :=
  Grid.ofFnM d.rowKeys.length d.colKeys.length fun i j => do
    d.element (← d.rowKey i) (← d.colKey j)

def discard (d : Determinant α X Y) : Determinant α X Y := { d with trial := .idle }

def oldPlace (new place : Nat) : Option Nat :=
  if place < new then some place else if place = new then none else some (place - 1)

def keptPlace (gone place : Nat) : Nat := if place < gone then place else place + 1

variable [Scalar α]

def empty (element : X → Y → Outcome α α) : Determinant α X Y where
  element := element
  rowKeys := []
  colKeys := []
  inverse := Grid.ofFn 0 0 fun _ _ => 0
  value := 1
  trial := .idle

def sign (d : Determinant α X Y) : Sign := .ofScalar d.value

/-- The trial that puts in row key `x` before place `row` and column key `y` before place `col`,
given the new column `b`, the new row `c` and the new corner. -/
def insertionTrial (d : Determinant α X Y) (row col : Nat) (x : X) (y : Y) (b c : Array α)
    (corner : α) : Insertion α X Y :=
  let n := d.size
  let inverseColumn := Array.ofFn fun l : Fin n =>
    Scalar.dot n (d.inverse.entry l) fun k => b.getD k 0
  let rowInverse := Array.ofFn fun k : Fin n =>
    Scalar.dot n (fun l => c.getD l 0) fun l => d.inverse.entry l k
  let schur := corner - Scalar.dot n (fun l => c.getD l 0) fun l => inverseColumn.getD l 0
  { row, col, x, y, inverseColumn, rowInverse, schur,
    ratio := (Sign.ofParity (row + col)).apply schur }

def tryInsert (d : Determinant α X Y) (row col : Nat) (x : X) (y : Y) :
    Outcome α (α × Determinant α X Y) := do
  d.requireIdle .insertion
  Outcome.require (row ≤ d.size ∧ col ≤ d.size) (.insertionOutOfRange row col d.size)
  let b ← d.rowKeys.mapM fun key => d.element key y
  let c ← d.colKeys.mapM fun key => d.element x key
  let t := d.insertionTrial row col x y b.toArray c.toArray (← d.element x y)
  pure (t.ratio, { d with trial := .insertion t })

def removalTrial (d : Determinant α X Y) (row col : Nat) : Removal α :=
  { row, col, ratio := (Sign.ofParity (row + col)).apply (d.inverse.entry col row) }

def tryRemove (d : Determinant α X Y) (row col : Nat) : Outcome α (α × Determinant α X Y) := do
  d.requireIdle .removal
  Outcome.require (row < d.size ∧ col < d.size) (.removalOutOfRange row col d.size)
  let t := d.removalTrial row col
  pure (t.ratio, { d with trial := .removal t })

def commitInsertion (d : Determinant α X Y) (t : Insertion α X Y) : Determinant α X Y :=
  let n := d.size
  let s := 1 / t.schur
  { d with
    rowKeys := d.rowKeys.insertIdx t.row t.x
    colKeys := d.colKeys.insertIdx t.col t.y
    inverse := Grid.ofFn (n + 1) (n + 1) fun a b =>
      match oldPlace t.col a, oldPlace t.row b with
      | some l, some k =>
        d.inverse.entry l k + t.inverseColumn.getD l 0 * t.rowInverse.getD k 0 * s
      | some l, none => -t.inverseColumn.getD l 0 * s
      | none, some k => -t.rowInverse.getD k 0 * s
      | none, none => s
    value := d.value * t.ratio
    trial := .idle }

def commitRemoval (d : Determinant α X Y) (t : Removal α) : Determinant α X Y :=
  let m := d.inverse.entry
  let n := d.size
  let pivot := m t.col t.row
  { d with
    rowKeys := d.rowKeys.eraseIdx t.row
    colKeys := d.colKeys.eraseIdx t.col
    inverse := Grid.ofFn (n - 1) (n - 1) fun a b =>
      let l := keptPlace t.col a
      let k := keptPlace t.row b
      m l k - m l t.row * m t.col k / pivot
    value := d.value * t.ratio
    trial := .idle }

def commit (d : Determinant α X Y) : Outcome α (Determinant α X Y) :=
  match d.trial with
  | .idle => .error .noTrial
  | .insertion t => .ok (d.commitInsertion t)
  | .removal t => .ok (d.commitRemoval t)

end Determinant
end ImpuritySampler
