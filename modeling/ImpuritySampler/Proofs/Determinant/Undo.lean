import ImpuritySampler.Proofs.Determinant.Run

/-!
# Undoing an insertion

An exact determinant is fixed by its element rule and its keys: the matrix has only one inverse and
one determinant. Taking out the row and the column that an insertion has put in gives the old keys
back, so it gives back the whole determinant, at the reciprocal of the ratio.
-/

set_option autoImplicit false

namespace ImpuritySampler

namespace Grid

variable {α : Type} [Zero α]

theorem data_eq {g : Grid α} {i j : ℕ} (hi : i < g.rows) (hj : j < g.cols) :
    g.data[i * g.cols + j]? = some (g.entry i j) := by
  have hlt : i * g.cols + j < g.data.size := g.size_eq ▸ place_lt hi hj
  rw [entry, get?, if_pos ⟨hi, hj⟩, Array.getElem?_eq_getElem hlt, Option.getD_some]

theorem ext_entry {g h : Grid α} (hr : g.rows = h.rows) (hc : g.cols = h.cols)
    (he : ∀ i < g.rows, ∀ j < g.cols, g.entry i j = h.entry i j) : g = h := by
  have hsize : g.data.size = h.data.size := by rw [g.size_eq, h.size_eq, hr, hc]
  suffices hd : g.data = h.data by
    obtain ⟨_, _, _, _⟩ := g
    obtain ⟨_, _, _, _⟩ := h
    cases hr
    cases hc
    cases hd
    rfl
  refine Array.ext_getElem? fun k => ?_
  by_cases hk : k < g.data.size
  · rw [g.size_eq] at hk
    have hi : k / g.cols < g.rows := Nat.div_lt_of_lt_mul (Nat.mul_comm _ _ ▸ hk)
    have hj : k % g.cols < g.cols :=
      Nat.mod_lt _ (Nat.pos_of_mul_pos_left (Nat.zero_lt_of_lt hk))
    have hg := data_eq hi hj
    have hh := data_eq (g := h) (hr ▸ hi) (hc ▸ hj)
    rw [← hc] at hh
    rw [← Nat.div_add_mod' k g.cols, hg, hh, he _ hi _ hj]
  · rw [Array.getElem?_eq_none (by omega), Array.getElem?_eq_none (by omega)]

end Grid

namespace Determinant

open Border

variable {α X Y : Type} [ExactScalar α] {d e : Determinant α X Y} {n m : ℕ}

theorem HasMatrix.unique {A : Matrix (Fin n) (Fin n) α} {B : Matrix (Fin m) (Fin m) α}
    (hd : d.HasMatrix A) (he : e.HasMatrix B) (helement : d.element = e.element)
    (hrows : d.rowKeys = e.rowKeys) (hcols : d.colKeys = e.colKeys) :
    ∃ h : n = m, B = h ▸ A := by
  obtain ⟨g, hg, ⟨hr, -⟩, rfl⟩ := hd
  obtain ⟨g', hg', ⟨hr', -⟩, rfl⟩ := he
  have hmatrix : d.matrix = e.matrix := by
    simp only [matrix, rowKey, colKey, helement, hrows, hcols]
  cases hg.symm.trans (hmatrix.trans hg')
  obtain rfl : n = m := hr.symm.trans hr'
  exact ⟨rfl, rfl⟩

theorem Exact.unique {A : Matrix (Fin n) (Fin n) α} {B : Matrix (Fin m) (Fin m) α}
    (hd : d.Exact A) (he : e.Exact B) (helement : d.element = e.element)
    (hrows : d.rowKeys = e.rowKeys) (hcols : d.colKeys = e.colKeys) (htrial : d.trial = e.trial) :
    d = e := by
  obtain ⟨rfl, rfl⟩ := hd.matrix.unique he.matrix helement hrows hcols
  have hmatrix : d.inverse.toMatrix n = e.inverse.toMatrix n :=
    left_inv_eq_right_inv hd.left_inverse he.right_inverse
  have hinverse : d.inverse = e.inverse := by
    refine Grid.ext_entry (hd.shape.1.trans he.shape.1.symm) (hd.shape.2.trans he.shape.2.symm)
      fun i hi j hj => ?_
    exact congrFun (congrFun hmatrix ⟨i, hd.shape.1 ▸ hi⟩) ⟨j, hd.shape.2 ▸ hj⟩
  have hvalue : d.value = e.value := hd.value.trans he.value.symm
  obtain ⟨_, _, _, _, _, _⟩ := d
  obtain ⟨_, _, _, _, _, _⟩ := e
  cases helement
  cases hrows
  cases hcols
  cases hinverse
  cases hvalue
  cases htrial
  rfl

theorem of_tryInsert {row col : ℕ} {x : X} {y : Y} {r : α × Determinant α X Y}
    (h : d.tryInsert row col x y = .ok r) :
    row ≤ d.size ∧ col ≤ d.size ∧ ∃ b c corner, d.Adds x y b c corner := by
  obtain ⟨_, -, h⟩ := Outcome.bind_eq_ok.mp h
  obtain ⟨_, hplaces, h⟩ := Outcome.bind_eq_ok.mp h
  obtain ⟨b, hb, h⟩ := Outcome.bind_eq_ok.mp h
  obtain ⟨c, hc, h⟩ := Outcome.bind_eq_ok.mp h
  obtain ⟨corner, hcorner, -⟩ := Outcome.bind_eq_ok.mp h
  obtain ⟨hrow, hcol⟩ := Outcome.require_eq_ok.mp hplaces
  exact ⟨hrow, hcol, b, c, corner, hb, hc, hcorner⟩

/-- Once the insertion `t` into `d` is carried out, its row and column can be taken out again. -/
structure Reversible (d : Determinant α X Y) (t : Insertion α X Y) : Prop where
  row_lt : t.row < (d.commitInsertion t).size
  col_lt : t.col < (d.commitInsertion t).size
  ratio : t.ratio ≠ 0 → ((d.commitInsertion t).removalTrial t.row t.col).ratio = 1 / t.ratio
  restore : t.ratio ≠ 0 →
    (d.commitInsertion t).commitRemoval ((d.commitInsertion t).removalTrial t.row t.col) = d

theorem PricedInsertion.reversible {A : Matrix (Fin n) (Fin n) α} {i j : Fin (n + 1)}
    {t : Insertion α X Y} {B : Matrix (Fin (n + 1)) (Fin (n + 1)) α} (hd : d.Exact A)
    (htrial : d.trial = .idle) (h : d.PricedInsertion A i j t B) : d.Reversible t := by
  have hrow := h.prices.row
  have hcol := h.prices.col
  have hsize : (d.commitInsertion t).size = n + 1 := (hasMatrix_iff.mp h.matrix).1
  have hplaces : (d.commitInsertion t).removalTrial t.row t.col =
      (d.commitInsertion t).removalTrial i j := by rw [hrow, hcol]
  refine ⟨by omega, by omega, fun hr => ?_, fun hr => ?_⟩
  · rw [hplaces, removalTrial_ratio_eq (commitInsertion_exact hd h hr), h.core, h.ratio,
      one_div_div]
  · have hcommit := commitInsertion_exact hd h hr
    have hne : ((d.commitInsertion t).removalTrial i j).ratio ≠ 0 := by
      rw [removalTrial_ratio_eq hcommit, h.core]
      exact div_ne_zero hd.det_ne_zero hcommit.det_ne_zero
    have hback := commitRemoval_exact hcommit i j hne
    rw [hplaces]
    refine hback.unique hd rfl ?_ ?_ htrial.symm
    · show (d.rowKeys.insertIdx t.row t.x).eraseIdx i = d.rowKeys
      rw [hrow, List.eraseIdx_insertIdx_self]
    · show (d.colKeys.insertIdx t.col t.y).eraseIdx j = d.colKeys
      rw [hcol, List.eraseIdx_insertIdx_self]

theorem exists_priced {A : Matrix (Fin n) (Fin n) α} {row col : ℕ} {x : X} {y : Y}
    {r : α × Determinant α X Y} (hd : d.Exact A) (hidle : d.isIdle = true)
    (h : d.tryInsert row col x y = .ok r) :
    ∃ (t : Insertion α X Y) (i j : Fin (n + 1)) (B : Matrix (Fin (n + 1)) (Fin (n + 1)) α),
      r = (t.ratio, { d with trial := .insertion t }) ∧ t.row = row ∧ t.col = col ∧ t.x = x ∧
      t.y = y ∧ d.PricedInsertion A i j t B := by
  obtain ⟨hrow, hcol, b, c, corner, hadds⟩ := of_tryInsert h
  have hn := hd.size
  obtain ⟨t, B, ht, hx, hy, hB⟩ :=
    tryInsert_priced hd hidle ⟨row, by omega⟩ ⟨col, by omega⟩ hadds
  exact ⟨t, _, _, B, (Except.ok.inj (ht.symm.trans h)).symm, hB.prices.row, hB.prices.col, hx, hy,
    hB⟩

end Determinant

end ImpuritySampler
