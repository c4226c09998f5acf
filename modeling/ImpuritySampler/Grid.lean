/-!
# Grids and stacks

Rectangular tables of numbers, row after row in one array, and stacks of equal tables. Main
statement: reading back a tabulated function gives the function, inside the table.
-/

set_option autoImplicit false

namespace ImpuritySampler

structure Grid (α : Type) where
  rows : Nat
  cols : Nat
  data : Array α
  size_eq : data.size = rows * cols

namespace Grid

variable {α : Type}

def ofFn (rows cols : Nat) (f : Nat → Nat → α) : Grid α where
  rows := rows
  cols := cols
  data := Array.ofFn fun k : Fin (rows * cols) => f (k / cols) (k % cols)
  size_eq := Array.size_ofFn

def replicate (rows cols : Nat) (x : α) : Grid α where
  rows := rows
  cols := cols
  data := Array.replicate (rows * cols) x
  size_eq := Array.size_replicate

def ofFnM {ε : Type} (rows cols : Nat) (f : Nat → Nat → Except ε α) : Except ε (Grid α) := do
  let v ← Vector.ofFnM fun k : Fin (rows * cols) => f (k / cols) (k % cols)
  pure ⟨rows, cols, v.toArray, v.size_toArray⟩

def HasShape (g : Grid α) (rows cols : Nat) : Prop := g.rows = rows ∧ g.cols = cols

instance (g : Grid α) (rows cols : Nat) : Decidable (g.HasShape rows cols) :=
  inferInstanceAs (Decidable (_ ∧ _))

def ofData? (rows cols : Nat) (data : Array α) : Option (Grid α) :=
  if h : data.size = rows * cols then some ⟨rows, cols, data, h⟩ else none

def get? (g : Grid α) (i j : Nat) : Option α :=
  if i < g.rows ∧ j < g.cols then g.data[i * g.cols + j]? else none

def entry [Zero α] (g : Grid α) (i j : Nat) : α := (g.get? i j).getD 0

def map {β : Type} (f : α → β) (g : Grid α) : Grid β where
  rows := g.rows
  cols := g.cols
  data := g.data.map f
  size_eq := by rw [Array.size_map, g.size_eq]

def zipWith {β γ : Type} [Zero α] [Zero β] (f : α → β → γ) (g : Grid α) (h : Grid β) : Grid γ :=
  ofFn g.rows g.cols fun i j => f (g.entry i j) (h.entry i j)

def modify (g : Grid α) (i j : Nat) (f : α → α) : Grid α where
  rows := g.rows
  cols := g.cols
  data := if i < g.rows ∧ j < g.cols then g.data.modify (i * g.cols + j) f else g.data
  size_eq := by split <;> simp [g.size_eq]

def toLists [Zero α] (g : Grid α) : List (List α) :=
  (List.range g.rows).map fun i => (List.range g.cols).map fun j => g.entry i j

theorem place_lt {rows cols i j : Nat} (hi : i < rows) (hj : j < cols) :
    i * cols + j < rows * cols :=
  calc i * cols + j < i * cols + cols := Nat.add_lt_add_left hj _
    _ = (i + 1) * cols := (Nat.succ_mul i cols).symm
    _ ≤ rows * cols := Nat.mul_le_mul_right _ hi

theorem place_div {cols i j : Nat} (hj : j < cols) : (i * cols + j) / cols = i := by
  rw [Nat.mul_comm, Nat.mul_add_div (Nat.zero_lt_of_lt hj), Nat.div_eq_of_lt hj, Nat.add_zero]

theorem place_mod {cols i j : Nat} (hj : j < cols) : (i * cols + j) % cols = j := by
  rw [Nat.mul_comm, Nat.mul_add_mod, Nat.mod_eq_of_lt hj]

theorem get?_ofFn {rows cols : Nat} (f : Nat → Nat → α) {i j : Nat} (hi : i < rows)
    (hj : j < cols) : (ofFn rows cols f).get? i j = some (f i j) := by
  have h : (Array.ofFn fun k : Fin (rows * cols) => f (k / cols) (k % cols))[i * cols + j]? =
      some (f i j) := by
    rw [Array.getElem?_ofFn, dif_pos (place_lt hi hj)]
    simp [place_div hj, place_mod hj]
  simpa [get?, ofFn, hi, hj] using h

theorem get?_replicate {rows cols : Nat} (x : α) {i j : Nat} (hi : i < rows) (hj : j < cols) :
    (replicate rows cols x).get? i j = some x := by
  simp [get?, replicate, hi, hj, place_lt hi hj]

theorem entry_ofFn [Zero α] {rows cols : Nat} (f : Nat → Nat → α) {i j : Nat} (hi : i < rows)
    (hj : j < cols) : (ofFn rows cols f).entry i j = f i j := by
  rw [entry, get?_ofFn f hi hj, Option.getD_some]

end Grid

structure Stack (α : Type) where
  layers : Nat
  rows : Nat
  cols : Nat
  data : Array α
  size_eq : data.size = layers * rows * cols

namespace Stack

variable {α : Type}

instance [BEq α] : BEq (Stack α) :=
  ⟨fun s t => s.layers == t.layers && s.rows == t.rows && s.cols == t.cols && s.data == t.data⟩

def ofFn (layers rows cols : Nat) (f : Nat → Nat → Nat → α) : Stack α where
  layers := layers
  rows := rows
  cols := cols
  data := Array.ofFn fun k : Fin (layers * rows * cols) =>
    f (k / cols / rows) (k / cols % rows) (k % cols)
  size_eq := Array.size_ofFn

def ofData? (layers rows cols : Nat) (data : Array α) : Option (Stack α) :=
  if h : data.size = layers * rows * cols then some ⟨layers, rows, cols, data, h⟩ else none

def get? (s : Stack α) (k i j : Nat) : Option α :=
  if k < s.layers ∧ i < s.rows ∧ j < s.cols then s.data[(k * s.rows + i) * s.cols + j]? else none

theorem get?_ofFn {layers rows cols : Nat} (f : Nat → Nat → Nat → α) {k i j : Nat}
    (hk : k < layers) (hi : i < rows) (hj : j < cols) :
    (ofFn layers rows cols f).get? k i j = some (f k i j) := by
  have h : (Array.ofFn fun l : Fin (layers * rows * cols) =>
      f (l / cols / rows) (l / cols % rows) (l % cols))[(k * rows + i) * cols + j]? =
      some (f k i j) := by
    rw [Array.getElem?_ofFn, dif_pos (Grid.place_lt (Grid.place_lt hk hi) hj)]
    simp [Grid.place_div hj, Grid.place_mod hj, Grid.place_div hi, Grid.place_mod hi]
  simpa [get?, ofFn, hk, hi, hj] using h

end Stack
end ImpuritySampler
