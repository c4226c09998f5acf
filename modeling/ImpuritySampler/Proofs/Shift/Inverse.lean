import ImpuritySampler.Proofs.Move.Attempt
import ImpuritySampler.Proofs.Shift.Weight

/-!
# Inverse matrices under another origin

Rearranging the rows and columns of a matrix and changing the sign of some of them does the same to
the columns and rows of its inverse. So the inverse that belongs to the later keys is known entry by
entry, and a state whose tables hold inverses has a later state whose tables hold inverses.
-/

set_option autoImplicit false

namespace ImpuritySampler

open Outcome Time

section Rearranged

variable {R : Type} [CommRing R] {n : ℕ} {A B M N : Matrix (Fin n) (Fin n) R} {v w : Fin n → R}
variable {σ τ : Equiv.Perm (Fin n)}

theorem rearranged_mul (hv : ∀ i, v i * v i = 1) (hw : ∀ j, w j * w j = 1)
    (hB : ∀ i j, B i j = v (σ i) * w (τ j) * A (σ i) (τ j))
    (hN : ∀ j i, N j i = w (τ j) * v (σ i) * M (τ j) (σ i)) (hA : A * M = 1) : B * N = 1 := by
  ext i k
  have hterm : ∀ j, B i j * N j k = v (σ i) * v (σ k) * (A (σ i) (τ j) * M (τ j) (σ k)) := by
    intro j
    rw [hB, hN]
    linear_combination v (σ i) * v (σ k) * A (σ i) (τ j) * M (τ j) (σ k) * hw (τ j)
  calc (B * N) i k
    _ = ∑ j, v (σ i) * v (σ k) * (A (σ i) (τ j) * M (τ j) (σ k)) := by
      rw [Matrix.mul_apply]
      exact Finset.sum_congr rfl fun j _ => hterm j
    _ = v (σ i) * v (σ k) * (A * M) (σ i) (σ k) := by
      rw [← Finset.mul_sum, Equiv.sum_comp τ fun j => A (σ i) j * M j (σ k), Matrix.mul_apply]
    _ = (1 : Matrix (Fin n) (Fin n) R) i k := by
      rw [hA]
      by_cases hik : i = k
      · rw [hik, Matrix.one_apply_eq, Matrix.one_apply_eq, mul_one, hv]
      · rw [Matrix.one_apply_ne hik, Matrix.one_apply_ne (σ.injective.ne hik), mul_zero]

theorem rearranged_inverse (hv : ∀ i, v i * v i = 1) (hw : ∀ j, w j * w j = 1)
    (hB : ∀ i j, B i j = v (σ i) * w (τ j) * A (σ i) (τ j)) (hA : A * M = 1) (hN : B * N = 1)
    (j i : Fin n) : N j i = w (τ j) * v (σ i) * M (τ j) (σ i) := by
  obtain ⟨P, hP⟩ : ∃ P : Matrix (Fin n) (Fin n) R, ∀ j i,
      P j i = w (τ j) * v (σ i) * M (τ j) (σ i) := ⟨Matrix.of _, fun _ _ => rfl⟩
  have hBP := rearranged_mul hv hw hB hP hA
  have hNB : N * B = 1 := mul_eq_one_comm.mp hN
  have hNP : N = P := by
    calc N
      _ = N * (B * P) := by rw [hBP, mul_one]
      _ = P := by rw [← mul_assoc, hNB, one_mul]
  rw [hNP, hP]

theorem finRotate_pow_val (k : ℕ) (i : Fin n) :
    ((finRotate n ^ k : Equiv.Perm (Fin n)) i : ℕ) = (i + k) % n := by
  induction k generalizing i with
  | zero => exact (Nat.mod_eq_of_lt i.isLt).symm
  | succ k ih =>
    cases n with
    | zero => exact i.elim0
    | succ n =>
      rw [pow_succ, Equiv.Perm.mul_apply, ih, finRotate_apply, Fin.val_add, Fin.val_one',
        Nat.add_mod_mod, Nat.mod_add_mod, add_assoc, add_comm 1 k]

end Rearranged

variable {α : Type} [ExactScalar α] {beta : α} {d : ℕ}

theorem Time.turn_mul_self (d t : ℕ) : (turn d t * turn d t : α) = 1 := by
  unfold turn
  split_ifs <;> norm_num

theorem signed_eq_mul (p : Prop) [Decidable p] (a : α) :
    (if p then a else -a) = (if p then 1 else -1) * a := by
  split_ifs
  · rw [one_mul]
  · rw [neg_one_mul]

theorem Hybridization.turning (h : Hybridization α) (beta : α) (d : ℕ) :
    Turning beta d h.element := by
  intro x y hx hy a ha
  have hgap : (x.shift d).time.sub (y.shift d).time = x.time.sub y.time := sub_shift hx.1 hy.1 d
  rw [element] at ha ⊢
  rw [hgap]
  obtain ⟨distance, hdistance, ha⟩ := bind_eq_ok.mp ha
  obtain ⟨v, hv, ha⟩ := bind_eq_ok.mp ha
  have hv : h.value distance.value (x.shift d).orbital (y.shift d).orbital = .ok v := hv
  cases ha
  rw [hdistance, ok_bind, hv, ok_bind, pure_eq]
  change Except.ok (if ahead y.time.ticks d ≤ ahead x.time.ticks d then v else -v) = _
  rw [signed_eq_mul _ v, signed_eq_mul _ v, order_ahead hx.1.lt hy.1.lt, mul_assoc]

theorem Grid.exists_toMatrix {n : ℕ} (N : Matrix (Fin n) (Fin n) α) :
    ∃ g : Grid α, g.HasShape n n ∧ g.toMatrix n = N := by
  refine ⟨Grid.ofFn n n fun j i => if h : j < n ∧ i < n then N ⟨j, h.1⟩ ⟨i, h.2⟩ else 0,
    ⟨rfl, rfl⟩, ?_⟩
  ext j i
  rw [toMatrix_apply, entry_ofFn _ j.isLt i.isLt, dif_pos ⟨j.isLt, i.isLt⟩]

namespace Determinant

variable {X Y : Type}

def Inverted (D : Determinant α X Y) : Prop :=
  ∃ (n : ℕ) (A : Matrix (Fin n) (Fin n) α), D.HasMatrix A ∧ D.inverse.HasShape n n ∧
    A * D.inverse.toMatrix n = 1

theorem Exact.inverted {D : Determinant α X Y} {n : ℕ} {A : Matrix (Fin n) (Fin n) α}
    (h : D.Exact A) : D.Inverted := ⟨n, A, h.matrix, h.shape, h.right_inverse⟩

theorem Inverted.of_size {D : Determinant α X Y} (h : D.Inverted) {n : ℕ} (hn : D.size = n) :
    ∃ A : Matrix (Fin n) (Fin n) α, D.HasMatrix A ∧ D.inverse.HasShape n n ∧
      A * D.inverse.toMatrix n = 1 := by
  obtain ⟨k, A, hA, hshape, hinverse⟩ := h
  obtain rfl : k = n := (hasMatrix_iff.mp hA).1.symm.trans hn
  exact ⟨A, hA, hshape, hinverse⟩

theorem Inverted.hasShape {D : Determinant α X Y} (h : D.Inverted) :
    D.inverse.HasShape D.size D.size := by
  obtain ⟨A, -, hshape, -⟩ := h.of_size rfl
  exact hshape

/-- The keys of `D'` are those of `D`, `d` ticks later, and its table is an inverse again. -/
structure ShiftedTo (d : ℕ) (D D' : LineDeterminant α) : Prop where
  element : D'.element = D.element
  rowKeys : D'.rowKeys = shiftKeys d D.rowKeys
  colKeys : D'.colKeys = shiftKeys d D.colKeys
  inverted : D'.Inverted

variable {D D' : LineDeterminant α} {rows cols : List ℕ}

/-- A pair of keys at the places `l` and `k` with its entry of the inverse, and the pair that it
becomes at the places `j` and `i`. -/
structure ShiftedPair (beta : α) (d : ℕ) (D D' : LineDeterminant α) (j i l k : ℕ) (y x : Key α)
    (e : α) : Prop where
  column : y.time.IsPoint beta
  row : x.time.IsPoint beta
  colKey : D.colKey l = .ok y
  rowKey : D.rowKey k = .ok x
  entry : D.inverseEntry l k = .ok e
  later_colKey : D'.colKey j = .ok (y.shift d)
  later_rowKey : D'.rowKey i = .ok (x.shift d)
  later_entry : D'.inverseEntry j i = .ok (turn d y.time.ticks * turn d x.time.ticks * e)

theorem ShiftedTo.hasMatrix (h : D.ShiftedTo d D') {n : ℕ} {B : Matrix (Fin n) (Fin n) α} :
    D'.HasMatrix B ↔ (D.shift d).HasMatrix B := by
  have hmatrix : D'.matrix = (D.shift d).matrix := by
    simp only [matrix, rowKey, colKey, h.element, h.rowKeys, h.colKeys, shift]
  rw [HasMatrix, HasMatrix, hmatrix]

theorem ShiftedTo.size (h : D.ShiftedTo d D') : D'.size = D.size := by
  rw [Determinant.size, h.rowKeys, (shiftKeys_perm d D.rowKeys).length_eq, List.length_map]
  rfl

/-- The pairs are turned around by as many places as keys have passed the end of the axis. -/
theorem ShiftedTo.pair (h : D.ShiftedTo d D') (hD : D.Inverted) (he : Turning beta d D.element)
    (hr : Keyed beta D.rowKeys rows) (hc : Keyed beta D.colKeys cols) {n : ℕ} (hn : D.size = n)
    (j i : Fin n) : ∃ y x e, ShiftedPair beta d D D' j i ((j + cols.countP (crosses d)) % n)
      ((i + rows.countP (crosses d)) % n) y x e := by
  obtain ⟨A, hA, hshape, hinverse⟩ := hD.of_size hn
  obtain ⟨B, hB, hshape', hinverse'⟩ := h.inverted.of_size (h.size.trans hn)
  obtain ⟨x, hx⟩ := exists_ofFn (hasMatrix_iff.mp hA).1
  obtain ⟨y, hy⟩ := exists_ofFn (hasMatrix_iff.mp hA).2.1
  have hx' := h.rowKeys.trans (hr.shiftKeys_ofFn hx d)
  have hy' := h.colKeys.trans (hc.shiftKeys_ofFn hy d)
  have hentry := (hA.shift he hr hc hx hy B).mp (h.hasMatrix.mp hB)
  have hkept := rearranged_inverse (v := fun i => turn d (x i).time.ticks)
    (w := fun j => turn d (y j).time.ticks) (fun _ => turn_mul_self d _)
    (fun _ => turn_mul_self d _) hentry hinverse hinverse'
  subst hn
  rw [← finRotate_pow_val, ← finRotate_pow_val]
  refine ⟨_, _, _,
    { column := (hc.points _ (hy ▸ List.mem_ofFn.mpr ⟨_, rfl⟩)).1
      row := (hr.points _ (hx ▸ List.mem_ofFn.mpr ⟨_, rfl⟩)).1
      colKey := nth_eq_ok.mpr (by rw [hy, List.getElem?_ofFn, dif_pos (Fin.isLt _)])
      rowKey := nth_eq_ok.mpr (by rw [hx, List.getElem?_ofFn, dif_pos (Fin.isLt _)])
      entry := inverseEntry_eq hshape (Fin.isLt _) (Fin.isLt _)
      later_colKey := nth_eq_ok.mpr (by rw [hy', List.getElem?_ofFn, dif_pos (Fin.isLt _)])
      later_rowKey := nth_eq_ok.mpr (by rw [hx', List.getElem?_ofFn, dif_pos (Fin.isLt _)])
      later_entry := ?_ }⟩
  rw [inverseEntry_eq (h.size.symm ▸ hshape') (h.size.symm ▸ j.isLt) (h.size.symm ▸ i.isLt)]
  exact congrArg Except.ok (hkept j i)

theorem Inverted.exists_shiftedTo (hD : D.Inverted) (he : Turning beta d D.element)
    (hr : Keyed beta D.rowKeys rows) (hc : Keyed beta D.colKeys cols) :
    ∃ inverse, D.ShiftedTo d { D.shift d with inverse } := by
  obtain ⟨n, A, hA, hshape, hinverse⟩ := hD
  obtain ⟨x, hx⟩ := exists_ofFn (hasMatrix_iff.mp hA).1
  obtain ⟨y, hy⟩ := exists_ofFn (hasMatrix_iff.mp hA).2.1
  obtain ⟨B, hB⟩ : ∃ B : Matrix (Fin n) (Fin n) α, ∀ i j, B i j =
      turn d (x ((finRotate n ^ rows.countP (crosses d)) i)).time.ticks *
        turn d (y ((finRotate n ^ cols.countP (crosses d)) j)).time.ticks *
        A ((finRotate n ^ rows.countP (crosses d)) i)
          ((finRotate n ^ cols.countP (crosses d)) j) := ⟨Matrix.of _, fun _ _ => rfl⟩
  obtain ⟨N, hN⟩ : ∃ N : Matrix (Fin n) (Fin n) α, ∀ j i, N j i =
      turn d (y ((finRotate n ^ cols.countP (crosses d)) j)).time.ticks *
        turn d (x ((finRotate n ^ rows.countP (crosses d)) i)).time.ticks *
        D.inverse.toMatrix n ((finRotate n ^ cols.countP (crosses d)) j)
          ((finRotate n ^ rows.countP (crosses d)) i) := ⟨Matrix.of _, fun _ _ => rfl⟩
  have hBN : B * N = 1 := rearranged_mul (v := fun i => turn d (x i).time.ticks)
    (w := fun j => turn d (y j).time.ticks) (fun _ => turn_mul_self d _)
    (fun _ => turn_mul_self d _) hB hN hinverse
  obtain ⟨g, hg⟩ := Grid.exists_toMatrix N
  refine ⟨g, rfl, rfl, rfl, n, B, (hA.shift he hr hc hx hy B).mpr hB, hg.1, ?_⟩
  rw [hg.2]
  exact hBN

end Determinant

namespace State

variable {s : State α}

/-- All operators are `d` ticks later, lines and keys are in order, and each table is the inverse of
its own matrix. -/
structure ShiftedTo (d : ℕ) (s s' : State α) : Prop where
  config : s'.config = s.config.shift d
  determinants : List.Forall₂ (Determinant.ShiftedTo d) s.determinants s'.determinants

theorem Matched.exists_shiftedTo (hs : s.Matched beta)
    (hh : ∀ D ∈ s.determinants, Turning beta d D.element ∧ D.Inverted) :
    ∃ s', s.ShiftedTo d s' ∧ s'.Matched beta := by
  have hlater : ∀ D ∈ s.determinants, ∃ inverse, D.ShiftedTo d { D.shift d with inverse } := by
    intro D hD
    obtain ⟨k, hk⟩ := List.mem_iff_getElem?.mp hD
    have hheld := hs.held k D hk
    exact (hh D hD).2.exists_shiftedTo (hh D hD).1 hheld.rows hheld.cols
  have : Nonempty (Grid α) := ⟨.replicate 0 0 0⟩
  choose! inverse hinverse using hlater
  have hshift := hs.shift d
  refine ⟨⟨s.config.shift d, s.determinants.map fun D => { D.shift d with inverse := inverse D }⟩,
    ⟨rfl, ?_⟩, hshift.valid, ?_, ?_⟩
  · rw [List.forall₂_map_right_iff, List.forall₂_same]
    exact hinverse
  · have hcount := hshift.count
    rw [State.shift, List.length_map] at hcount
    rw [List.length_map, hcount]
  · intro k D' hk
    obtain ⟨D, hD, rfl⟩ := Option.map_eq_some_iff.mp (List.getElem?_map.symm.trans hk)
    have hheld := hshift.held k (D.shift d) (by rw [State.shift, List.getElem?_map, hD]; rfl)
    exact ⟨hheld.idle, hheld.rows, hheld.cols⟩

end State

end ImpuritySampler
