import ImpuritySampler.Proofs.Determinant.Border
import ImpuritySampler.Proofs.Grid
import ImpuritySampler.Determinant

/-!
# Trials and commits in exact arithmetic

A tracked determinant is exact if its inverse and its value are those of the matrix that its keys
build. A trial leaves it alone and returns the ratio by which committing the trial changes the
determinant of that matrix. Committing a trial of nonzero ratio gives an exact determinant again.
-/

set_option autoImplicit false

namespace ImpuritySampler.Determinant

open Border

section Trials

variable {α X Y : Type} [Scalar α] {d : Determinant α X Y}

/-- The rule has a value for each pair of keys that row key `x` and column key `y` add. -/
structure Adds (d : Determinant α X Y) (x : X) (y : Y) (b c : List α) (corner : α) : Prop where
  column : d.rowKeys.mapM (fun key => d.element key y) = .ok b
  row : d.colKeys.mapM (fun key => d.element x key) = .ok c
  corner : d.element x y = .ok corner

theorem tryInsert_eq_ok {row col : ℕ} {x : X} {y : Y} {b c : List α} {corner : α}
    (hidle : d.isIdle = true) (hrow : row ≤ d.size) (hcol : col ≤ d.size)
    (h : d.Adds x y b c corner) :
    d.tryInsert row col x y =
      .ok ((d.insertionTrial row col x y b.toArray c.toArray corner).ratio,
        { d with
          trial := .insertion (d.insertionTrial row col x y b.toArray c.toArray corner) }) := by
  rw [tryInsert, requireIdle, Outcome.require_true hidle, Outcome.require_true ⟨hrow, hcol⟩,
    h.column, h.row, h.corner]
  rfl

theorem tryRemove_eq_ok {row col : ℕ} (hidle : d.isIdle = true) (hrow : row < d.size)
    (hcol : col < d.size) :
    d.tryRemove row col = .ok ((d.removalTrial row col).ratio,
      { d with trial := .removal (d.removalTrial row col) }) := by
  rw [tryRemove, requireIdle, Outcome.require_true hidle, Outcome.require_true ⟨hrow, hcol⟩]
  rfl

end Trials

variable {α X Y : Type} [ExactScalar α]

def HasMatrix (d : Determinant α X Y) {n : ℕ} (A : Matrix (Fin n) (Fin n) α) : Prop :=
  ∃ g, d.matrix = .ok g ∧ g.HasShape n n ∧ g.toMatrix n = A

/-- The inverse, column first, and the value belong to the matrix `A` of the keys. -/
structure Exact (d : Determinant α X Y) {n : ℕ} (A : Matrix (Fin n) (Fin n) α) : Prop where
  matrix : d.HasMatrix A
  shape : d.inverse.HasShape n n
  left_inverse : d.inverse.toMatrix n * A = 1
  right_inverse : A * d.inverse.toMatrix n = 1
  value : d.value = A.det

def Builds (d : Determinant α X Y) (i j : ℕ) (a : α) : Prop :=
  ∃ x y, d.rowKeys[i]? = some x ∧ d.colKeys[j]? = some y ∧ d.element x y = .ok a

theorem hasMatrix_iff {d : Determinant α X Y} {n : ℕ} {A : Matrix (Fin n) (Fin n) α} :
    d.HasMatrix A ↔ d.rowKeys.length = n ∧ d.colKeys.length = n ∧
      ∀ i j : Fin n, d.Builds i j (A i j) := by
  constructor
  · rintro ⟨g, hg, ⟨hr, hc⟩, rfl⟩
    have hshape := Grid.ofFnM_shape hg
    have hrows : d.rowKeys.length = n := hshape.1.symm.trans hr
    have hcols : d.colKeys.length = n := hshape.2.symm.trans hc
    refine ⟨hrows, hcols, fun i j => ?_⟩
    have hi : (i : ℕ) < d.rowKeys.length := by omega
    have hj : (j : ℕ) < d.colKeys.length := by omega
    have he := Grid.ofFnM_entry hg hi hj
    obtain ⟨x, hx, he⟩ := Outcome.bind_eq_ok.mp he
    obtain ⟨y, hy, he⟩ := Outcome.bind_eq_ok.mp he
    exact ⟨x, y, Outcome.nth_eq_ok.mp hx, Outcome.nth_eq_ok.mp hy, he⟩
  · rintro ⟨hrows, hcols, h⟩
    let v : ℕ → ℕ → α := fun i j => if hi : i < n ∧ j < n then A ⟨i, hi.1⟩ ⟨j, hi.2⟩ else 0
    have hv : d.matrix = .ok (Grid.ofFn n n v) := by
      rw [matrix, hrows, hcols]
      refine Grid.ofFnM_eq_ok fun i hi j hj => ?_
      obtain ⟨x, y, hx, hy, he⟩ := h ⟨i, hi⟩ ⟨j, hj⟩
      rw [rowKey, Outcome.nth_eq_ok.mpr hx, Outcome.ok_bind, colKey, Outcome.nth_eq_ok.mpr hy,
        Outcome.ok_bind, he]
      simp [v, hi, hj]
    refine ⟨_, hv, ⟨rfl, rfl⟩, ?_⟩
    ext i j
    rw [Grid.toMatrix_apply, Grid.entry_ofFn v i.isLt j.isLt]
    simp [v]

theorem Exact.size {d : Determinant α X Y} {n : ℕ} {A : Matrix (Fin n) (Fin n) α}
    (h : d.Exact A) : d.size = n := (hasMatrix_iff.mp h.matrix).1

theorem Exact.det_ne_zero {d : Determinant α X Y} {n : ℕ} {A : Matrix (Fin n) (Fin n) α}
    (h : d.Exact A) : A.det ≠ 0 := by
  intro h0
  have := congrArg Matrix.det h.left_inverse
  rw [Matrix.det_mul, h0, mul_zero, Matrix.det_one] at this
  exact zero_ne_one this

theorem empty_exact (element : X → Y → Outcome α α) :
    (empty element).Exact (0 : Matrix (Fin 0) (Fin 0) α) where
  matrix := hasMatrix_iff.mpr ⟨rfl, rfl, fun i => i.elim0⟩
  shape := ⟨rfl, rfl⟩
  left_inverse := Subsingleton.elim _ _
  right_inverse := Subsingleton.elim _ _
  value := Matrix.det_fin_zero.symm

theorem Exact.with_trial {d : Determinant α X Y} {n : ℕ} {A : Matrix (Fin n) (Fin n) α}
    (h : d.Exact A) (t : Trial α X Y) : { d with trial := t }.Exact A where
  matrix := h.matrix
  shape := h.shape
  left_inverse := h.left_inverse
  right_inverse := h.right_inverse
  value := h.value

section Places

theorem keptPlace_eq {n : ℕ} (i : Fin (n + 1)) (k : Fin n) :
    keptPlace i k = (i.succAbove k : ℕ) := by
  rw [keptPlace, Fin.succAbove]
  by_cases h : (k : ℕ) < i
  · rw [if_pos h, if_pos (Fin.lt_def.mpr h)]
    rfl
  · rw [if_neg h, if_neg (fun hk => h (Fin.lt_def.mp hk))]
    rfl

theorem oldPlace_self (i : ℕ) : oldPlace i i = none := by simp [oldPlace]

theorem oldPlace_succAbove {n : ℕ} (i : Fin (n + 1)) (k : Fin n) :
    oldPlace i (i.succAbove k) = some (k : ℕ) := by
  rw [← keptPlace_eq, keptPlace, oldPlace]
  by_cases h : (k : ℕ) < i
  · rw [if_pos h, if_pos h]
  · rw [if_neg h, if_neg (by omega), if_neg (by omega), Nat.add_sub_cancel]

theorem insertIdx_length {β : Type} {l : List β} {n : ℕ} (hl : l.length = n) (i : Fin (n + 1))
    (b : β) : (l.insertIdx i b).length = n + 1 := by
  rw [List.length_insertIdx_of_le_length (by omega), hl]

theorem eraseIdx_length {β : Type} {l : List β} {n : ℕ} (hl : l.length = n + 1) (i : Fin (n + 1)) :
    (l.eraseIdx i).length = n := by
  rw [List.length_eraseIdx_of_lt (by omega), hl, Nat.add_sub_cancel]

theorem insertIdx_new {β : Type} {l : List β} {n : ℕ} (hl : l.length = n) (i : Fin (n + 1))
    (b : β) : (l.insertIdx i b)[(i : ℕ)]? = some b := by
  rw [List.getElem?_insertIdx_self, if_pos (by omega)]

theorem insertIdx_old {β : Type} {l : List β} {n : ℕ} (i : Fin (n + 1)) (k : Fin n) (b : β) :
    (l.insertIdx i b)[(i.succAbove k : ℕ)]? = l[(k : ℕ)]? := by
  rw [← keptPlace_eq, keptPlace]
  split_ifs with h
  · exact List.getElem?_insertIdx_of_lt h
  · exact List.getElem?_insertIdx_of_gt (by omega)

theorem eraseIdx_kept {β : Type} {l : List β} {n : ℕ} (i : Fin (n + 1)) (k : Fin n) :
    (l.eraseIdx i)[(k : ℕ)]? = l[(i.succAbove k : ℕ)]? := by
  rw [← keptPlace_eq, keptPlace, List.getElem?_eraseIdx]
  split_ifs <;> rfl

end Places

section Insertion

variable {d : Determinant α X Y} {n : ℕ} {A : Matrix (Fin n) (Fin n) α}

/-- The parts of an insertion trial at places `i` and `j` are those of the bordered matrix `B`. -/
structure Prices (d : Determinant α X Y) (t : Insertion α X Y)
    (B : Matrix (Fin (n + 1)) (Fin (n + 1)) α) (i j : Fin (n + 1)) : Prop where
  row : t.row = i
  col : t.col = j
  inverseColumn : ∀ l : Fin n,
    t.inverseColumn.getD l 0 = Border.inverseColumn B i j (d.inverse.toMatrix n) l
  rowInverse : ∀ k : Fin n,
    t.rowInverse.getD k 0 = Border.rowInverse B i j (d.inverse.toMatrix n) k
  schur : t.schur = Border.schur B i j (d.inverse.toMatrix n)
  ratio : t.ratio = (-1) ^ (i + j : ℕ) * Border.schur B i j (d.inverse.toMatrix n)

theorem insertionTrial_prices (hn : d.size = n) (i j : Fin (n + 1)) (x : X) (y : Y) (b c : Array α)
    (corner : α) :
    d.Prices (d.insertionTrial i j x y b c corner)
      (border A i j (fun k => b.getD k 0) (fun l => c.getD l 0) corner) i j := by
  subst hn
  have hcolumn : ∀ l : Fin d.size,
      (d.insertionTrial i j x y b c corner).inverseColumn.getD l 0 =
        Border.inverseColumn (border A i j (fun k => b.getD k 0) (fun l => c.getD l 0) corner) i j
          (d.inverse.toMatrix d.size) l := by
    intro l
    simp [insertionTrial, Border.inverseColumn, Scalar.dot_eq_sum, Grid.toMatrix_apply]
  have hschur : (d.insertionTrial i j x y b c corner).schur =
      Border.schur (border A i j (fun k => b.getD k 0) (fun l => c.getD l 0) corner) i j
        (d.inverse.toMatrix d.size) := by
    rw [Border.schur, cleared, border_corner]
    simp only [← hcolumn, border_row]
    exact congrArg (corner - ·) (Scalar.dot_eq_sum d.size (fun l => c.getD l 0) _)
  exact
    { row := rfl
      col := rfl
      inverseColumn := hcolumn
      rowInverse := fun k => by
        simp [insertionTrial, Border.rowInverse, Scalar.dot_eq_sum, Grid.toMatrix_apply]
      schur := hschur
      ratio := by
        rw [← hschur, ← Sign.apply_parity]
        rfl }

theorem commitInsertion_entry (t : Insertion α X Y) {a b : ℕ} (ha : a < d.size + 1)
    (hb : b < d.size + 1) :
    (d.commitInsertion t).inverse.entry a b =
      match oldPlace t.col a, oldPlace t.row b with
      | some l, some k =>
        d.inverse.entry l k + t.inverseColumn.getD l 0 * t.rowInverse.getD k 0 * (1 / t.schur)
      | some l, none => -t.inverseColumn.getD l 0 * (1 / t.schur)
      | none, some k => -t.rowInverse.getD k 0 * (1 / t.schur)
      | none, none => 1 / t.schur :=
  Grid.entry_ofFn _ ha hb

theorem commitInsertion_enlarged {t : Insertion α X Y} {i j : Fin (n + 1)}
    {B : Matrix (Fin (n + 1)) (Fin (n + 1)) α} (hn : d.size = n) (ht : d.Prices t B i j) :
    Enlarged B i j (d.inverse.toMatrix n) ((d.commitInsertion t).inverse.toMatrix (n + 1)) := by
  have hentry := fun a b : Fin (n + 1) =>
    d.commitInsertion_entry t (a := a) (b := b) (hn ▸ a.isLt) (hn ▸ b.isLt)
  rw [ht.col, ht.row, ht.schur] at hentry
  exact
    { block := fun l k => by
        rw [Grid.toMatrix_apply, hentry, oldPlace_succAbove, oldPlace_succAbove,
          ← ht.inverseColumn, ← ht.rowInverse]
        rfl
      column := fun l => by
        rw [Grid.toMatrix_apply, hentry, oldPlace_succAbove, oldPlace_self, ← ht.inverseColumn]
      row := fun k => by
        rw [Grid.toMatrix_apply, hentry, oldPlace_succAbove, oldPlace_self, ← ht.rowInverse]
      corner := by
        rw [Grid.toMatrix_apply, hentry, oldPlace_self, oldPlace_self] }

theorem commitInsertion_hasMatrix (hd : d.HasMatrix A) (i j : Fin (n + 1)) {x : X} {y : Y}
    {b c : List α} {corner : α} (h : d.Adds x y b c corner) :
    (d.commitInsertion (d.insertionTrial i j x y b.toArray c.toArray corner)).HasMatrix
      (border A i j (fun k => b.toArray.getD k 0) (fun l => c.toArray.getD l 0) corner) := by
  obtain ⟨hrows, hcols, hold⟩ := hasMatrix_iff.mp hd
  have hb := List.forall₂_iff_get.mp (Outcome.of_mapM_eq_ok h.column)
  have hc := List.forall₂_iff_get.mp (Outcome.of_mapM_eq_ok h.row)
  refine hasMatrix_iff.mpr
    ⟨insertIdx_length hrows i x, insertIdx_length hcols j y, fun p q => ?_⟩
  rcases Fin.eq_self_or_eq_succAbove i p with rfl | ⟨k, rfl⟩ <;>
    rcases Fin.eq_self_or_eq_succAbove j q with rfl | ⟨l, rfl⟩
  · exact ⟨x, y, insertIdx_new hrows p x, insertIdx_new hcols q y, by
      rw [border_corner]
      exact h.corner⟩
  · have hl : (l : ℕ) < d.colKeys.length := hcols ▸ l.isLt
    refine ⟨x, d.colKeys[l], insertIdx_new hrows p x, ?_, ?_⟩
    · exact (insertIdx_old j l y).trans (List.getElem?_eq_getElem hl)
    · have he : d.element x d.colKeys[l] = .ok (c.toArray.getD l 0) := by
        simpa [← hc.1, hl] using hc.2 l hl (hc.1 ▸ hl)
      rwa [border_row]
  · have hk : (k : ℕ) < d.rowKeys.length := hrows ▸ k.isLt
    refine ⟨d.rowKeys[k], y, ?_, insertIdx_new hcols q y, ?_⟩
    · exact (insertIdx_old i k x).trans (List.getElem?_eq_getElem hk)
    · have he : d.element d.rowKeys[k] y = .ok (b.toArray.getD k 0) := by
        simpa [← hb.1, hk] using hb.2 k hk (hb.1 ▸ hk)
      rwa [border_column]
  · obtain ⟨x', y', hx, hy, he⟩ := hold k l
    exact ⟨x', y', (insertIdx_old i k x).trans hx, (insertIdx_old j l y).trans hy,
      by rwa [border_old]⟩

structure PricedInsertion (d : Determinant α X Y) (A : Matrix (Fin n) (Fin n) α) (i j : Fin (n + 1))
    (t : Insertion α X Y) (B : Matrix (Fin (n + 1)) (Fin (n + 1)) α) : Prop where
  prices : d.Prices t B i j
  core : core B i j = A
  matrix : (d.commitInsertion t).HasMatrix B
  ratio : t.ratio = B.det / A.det

theorem PricedInsertion.with_trial {i j : Fin (n + 1)} {t : Insertion α X Y}
    {B : Matrix (Fin (n + 1)) (Fin (n + 1)) α} (h : d.PricedInsertion A i j t B)
    (t' : Trial α X Y) : { d with trial := t' }.PricedInsertion A i j t B where
  prices := ⟨h.prices.row, h.prices.col, h.prices.inverseColumn, h.prices.rowInverse,
    h.prices.schur, h.prices.ratio⟩
  core := h.core
  matrix := h.matrix
  ratio := h.ratio

theorem tryInsert_priced (hd : d.Exact A) (hidle : d.isIdle = true) (i j : Fin (n + 1)) {x : X}
    {y : Y} {b c : List α} {corner : α} (h : d.Adds x y b c corner) :
    ∃ t B, d.tryInsert i j x y = .ok (t.ratio, { d with trial := .insertion t }) ∧
      t.x = x ∧ t.y = y ∧ d.PricedInsertion A i j t B := by
  have hn := hd.size
  have hprices := insertionTrial_prices (A := A) hn i j x y b.toArray c.toArray corner
  have hcore := core_border A i j (fun k => b.toArray.getD k 0) (fun l => c.toArray.getD l 0) corner
  refine ⟨d.insertionTrial i j x y b.toArray c.toArray corner, _,
    tryInsert_eq_ok hidle (by omega) (by omega) h, rfl, rfl, hprices, hcore,
    commitInsertion_hasMatrix hd.matrix i j h, ?_⟩
  rw [eq_div_iff hd.det_ne_zero, hprices.ratio,
    det_border (M := d.inverse.toMatrix n) (hcore.symm ▸ hd.right_inverse), hcore]

theorem commitInsertion_exact {t : Insertion α X Y} {i j : Fin (n + 1)}
    {B : Matrix (Fin (n + 1)) (Fin (n + 1)) α} (hd : d.Exact A) (h : d.PricedInsertion A i j t B)
    (hr : t.ratio ≠ 0) : (d.commitInsertion t).Exact B := by
  obtain ⟨ht, hcore, hm, -⟩ := h
  have hs : Border.schur B i j (d.inverse.toMatrix n) ≠ 0 := fun h => hr (by
    rw [ht.ratio, h, mul_zero])
  have hinv : B * (d.commitInsertion t).inverse.toMatrix (n + 1) = 1 :=
    enlarged_inverse (hcore ▸ hd.right_inverse) hs (commitInsertion_enlarged hd.size ht)
  have hn : d.size + 1 = n + 1 := congrArg (· + 1) hd.size
  exact
    { matrix := hm
      shape := ⟨hn, hn⟩
      left_inverse := mul_eq_one_comm.mp hinv
      right_inverse := hinv
      value := by
        have hv : (d.commitInsertion t).value = d.value * t.ratio := rfl
        rw [hv, hd.value, ht.ratio, det_border (hcore ▸ hd.right_inverse), hcore, mul_comm] }

end Insertion

section Removal

variable {d : Determinant α X Y} {n : ℕ} {B : Matrix (Fin (n + 1)) (Fin (n + 1)) α}

theorem removalTrial_ratio (i j : Fin (n + 1)) :
    (d.removalTrial i j).ratio = (-1) ^ (i + j : ℕ) * d.inverse.toMatrix (n + 1) j i :=
  Sign.apply_parity _ _

theorem removalTrial_ratio_eq (hd : d.Exact B) (i j : Fin (n + 1)) :
    (d.removalTrial i j).ratio = (core B i j).det / B.det := by
  rw [eq_div_iff hd.det_ne_zero, removalTrial_ratio, det_core hd.right_inverse]

theorem commitRemoval_hasMatrix (hd : d.HasMatrix B) (i j : Fin (n + 1)) :
    (d.commitRemoval (d.removalTrial i j)).HasMatrix (core B i j) := by
  obtain ⟨hrows, hcols, hold⟩ := hasMatrix_iff.mp hd
  refine hasMatrix_iff.mpr ⟨eraseIdx_length hrows i, eraseIdx_length hcols j, fun k l => ?_⟩
  obtain ⟨x, y, hx, hy, he⟩ := hold (i.succAbove k) (j.succAbove l)
  exact ⟨x, y, (eraseIdx_kept i k).trans hx, (eraseIdx_kept j l).trans hy, he⟩

theorem commitRemoval_inverse (hn : d.size = n + 1) (i j : Fin (n + 1)) :
    (d.commitRemoval (d.removalTrial i j)).inverse.toMatrix n =
      reduced (d.inverse.toMatrix (n + 1)) i j := by
  ext l k
  have hs : d.size - 1 = n := by omega
  rw [Grid.toMatrix_apply, commitRemoval, Grid.entry_ofFn _ (hs ▸ l.isLt) (hs ▸ k.isLt)]
  simp only [removalTrial, keptPlace_eq]
  rfl

theorem commitRemoval_exact (hd : d.Exact B) (i j : Fin (n + 1))
    (hr : (d.removalTrial i j).ratio ≠ 0) :
    (d.commitRemoval (d.removalTrial i j)).Exact (core B i j) := by
  rw [removalTrial_ratio] at hr
  have hinv := reduced_inverse hd.right_inverse (right_ne_zero_of_mul hr)
  have hn : d.size - 1 = n := by rw [hd.size, Nat.add_sub_cancel]
  rw [← commitRemoval_inverse hd.size] at hinv
  exact
    { matrix := commitRemoval_hasMatrix hd.matrix i j
      shape := ⟨hn, hn⟩
      left_inverse := mul_eq_one_comm.mp hinv
      right_inverse := hinv
      value := by
        have hv : (d.commitRemoval (d.removalTrial i j)).value =
          d.value * (d.removalTrial i j).ratio := rfl
        rw [hv, hd.value, removalTrial_ratio, det_core hd.right_inverse, mul_comm] }

end Removal

end ImpuritySampler.Determinant
