import Mathlib

/-!
# Bordered matrices

A square matrix with one more row, at place `i`, and one more column, at place `j`, than its core.
The places are independent of each other. The determinant changes by the Schur complement of the
new corner, up to the sign of the two places, and the inverses of the matrix and of its core
determine each other.
-/

set_option autoImplicit false

namespace ImpuritySampler.Border

open Matrix

variable {K : Type} {n : ℕ}

def core (B : Matrix (Fin (n + 1)) (Fin (n + 1)) K) (i j : Fin (n + 1)) :
    Matrix (Fin n) (Fin n) K := B.submatrix i.succAbove j.succAbove

section Construction

variable (A : Matrix (Fin n) (Fin n) K) (i j : Fin (n + 1)) (b c : Fin n → K) (x : K)

def border : Matrix (Fin (n + 1)) (Fin (n + 1)) K :=
  of (i.insertNth (α := fun _ => Fin (n + 1) → K) (j.insertNth (α := fun _ => K) x c)
    fun k => j.insertNth (α := fun _ => K) (b k) (A k))

@[simp] theorem border_old (k l : Fin n) :
    border A i j b c x (i.succAbove k) (j.succAbove l) = A k l := by simp [border]

@[simp] theorem border_column (k : Fin n) : border A i j b c x (i.succAbove k) j = b k := by
  simp [border]

@[simp] theorem border_row (l : Fin n) : border A i j b c x i (j.succAbove l) = c l := by
  simp [border]

@[simp] theorem border_corner : border A i j b c x i j = x := by simp [border]

@[simp] theorem core_border : core (border A i j b c x) i j = A := by
  ext k l
  exact border_old A i j b c x k l

end Construction

variable [Field K]

def inverseColumn (B : Matrix (Fin (n + 1)) (Fin (n + 1)) K) (i j : Fin (n + 1))
    (M : Matrix (Fin n) (Fin n) K) (l : Fin n) : K := ∑ k, M l k * B (i.succAbove k) j

def rowInverse (B : Matrix (Fin (n + 1)) (Fin (n + 1)) K) (i j : Fin (n + 1))
    (M : Matrix (Fin n) (Fin n) K) (k : Fin n) : K := ∑ l, B i (j.succAbove l) * M l k

/-- The new column less the combination of the other columns that agrees with it on the core. -/
def cleared (B : Matrix (Fin (n + 1)) (Fin (n + 1)) K) (i j : Fin (n + 1))
    (M : Matrix (Fin n) (Fin n) K) (p : Fin (n + 1)) : K :=
  B p j - ∑ l, B p (j.succAbove l) * inverseColumn B i j M l

def schur (B : Matrix (Fin (n + 1)) (Fin (n + 1)) K) (i j : Fin (n + 1))
    (M : Matrix (Fin n) (Fin n) K) : K := cleared B i j M i

variable {B : Matrix (Fin (n + 1)) (Fin (n + 1)) K} {i j : Fin (n + 1)}

section Enlarge

variable {M : Matrix (Fin n) (Fin n) K}

theorem cleared_core (h : core B i j * M = 1) (k : Fin n) :
    cleared B i j M (i.succAbove k) = 0 := by
  have hv : core B i j *ᵥ (M *ᵥ fun k => B (i.succAbove k) j) = fun k => B (i.succAbove k) j := by
    rw [mulVec_mulVec, h, one_mulVec]
  exact sub_eq_zero.mpr (congrFun hv k).symm

def clearing (B : Matrix (Fin (n + 1)) (Fin (n + 1)) K) (i j : Fin (n + 1))
    (M : Matrix (Fin n) (Fin n) K) : Fin (n + 1) → K :=
  j.insertNth (α := fun _ => K) 1 fun l => -inverseColumn B i j M l

theorem clearing_sum (p : Fin (n + 1)) :
    ∑ q, clearing B i j M q • B p q = cleared B i j M p := by
  rw [Fin.sum_univ_succAbove _ j, cleared, sub_eq_add_neg, ← Finset.sum_neg_distrib]
  simp only [clearing, Fin.insertNth_apply_same, Fin.insertNth_apply_succAbove, smul_eq_mul,
    one_mul, neg_mul]
  simp only [mul_comm]

/-- Clearing the new column leaves the Schur complement as its only entry, and the expansion along
that column has a single term. -/
theorem det_border (h : core B i j * M = 1) :
    B.det = (-1) ^ (i + j : ℕ) * schur B i j M * (core B i j).det := by
  have hdet : (B.updateCol j (cleared B i j M)).det = B.det := by
    have hc := det_updateCol_sum B j (clearing B i j M)
    simp only [clearing_sum] at hc
    rw [show clearing B i j M j = 1 from Fin.insertNth_apply_same .., one_smul] at hc
    exact hc
  have hsub : (B.updateCol j (cleared B i j M)).submatrix i.succAbove j.succAbove = core B i j := by
    ext k l
    simp [core, Fin.succAbove_ne]
  rw [← hdet, det_succ_column _ j, Fin.sum_univ_succAbove _ i, hsub]
  simp only [updateCol_self, cleared_core h, mul_zero, zero_mul, Finset.sum_const_zero, add_zero]
  rfl

structure Enlarged (B : Matrix (Fin (n + 1)) (Fin (n + 1)) K) (i j : Fin (n + 1))
    (M : Matrix (Fin n) (Fin n) K) (N : Matrix (Fin (n + 1)) (Fin (n + 1)) K) : Prop where
  block : ∀ l k, N (j.succAbove l) (i.succAbove k) =
    M l k + inverseColumn B i j M l * rowInverse B i j M k * (1 / schur B i j M)
  column : ∀ l, N (j.succAbove l) i = -inverseColumn B i j M l * (1 / schur B i j M)
  row : ∀ k, N j (i.succAbove k) = -rowInverse B i j M k * (1 / schur B i j M)
  corner : N j i = 1 / schur B i j M

variable {N : Matrix (Fin (n + 1)) (Fin (n + 1)) K}

theorem product_old (hN : Enlarged B i j M N) (p : Fin (n + 1)) (k : Fin n) :
    (B * N) p (i.succAbove k) = ∑ l, B p (j.succAbove l) * M l k
      - cleared B i j M p * (rowInverse B i j M k * (1 / schur B i j M)) := by
  rw [mul_apply, Fin.sum_univ_succAbove _ j, cleared, sub_mul, Finset.sum_mul]
  have hsum : ∑ l, B p (j.succAbove l) * N (j.succAbove l) (i.succAbove k) =
      ∑ l, B p (j.succAbove l) * M l k + ∑ l, B p (j.succAbove l) * inverseColumn B i j M l *
        (rowInverse B i j M k * (1 / schur B i j M)) := by
    rw [← Finset.sum_add_distrib]
    refine Finset.sum_congr rfl fun l _ => ?_
    rw [hN.block]
    ring
  rw [hsum, hN.row]
  ring

theorem product_new (hN : Enlarged B i j M N) (p : Fin (n + 1)) :
    (B * N) p i = cleared B i j M p * (1 / schur B i j M) := by
  rw [mul_apply, Fin.sum_univ_succAbove _ j, cleared, sub_mul, Finset.sum_mul, hN.corner,
    sub_eq_add_neg, ← Finset.sum_neg_distrib]
  congr 1
  refine Finset.sum_congr rfl fun l _ => ?_
  rw [hN.column]
  ring

theorem enlarged_inverse (h : core B i j * M = 1) (hs : schur B i j M ≠ 0)
    (hN : Enlarged B i j M N) : B * N = 1 := by
  ext p q
  rcases Fin.eq_self_or_eq_succAbove i q with rfl | ⟨k, rfl⟩
  · rw [product_new hN]
    rcases Fin.eq_self_or_eq_succAbove q p with rfl | ⟨k, rfl⟩
    · rw [one_apply_eq]
      exact mul_one_div_cancel hs
    · rw [cleared_core h, zero_mul, one_apply_ne (Fin.succAbove_ne q k)]
  · rw [product_old hN]
    rcases Fin.eq_self_or_eq_succAbove i p with rfl | ⟨k', rfl⟩
    · have hc : cleared B p j M p * (rowInverse B p j M k * (1 / schur B p j M)) =
          rowInverse B p j M k := by
        rw [mul_left_comm]
        exact (congrArg _ (mul_one_div_cancel hs)).trans (mul_one _)
      rw [hc, one_apply_ne (Fin.succAbove_ne p k).symm]
      exact sub_self _
    · have hb : ∑ l, B (i.succAbove k') (j.succAbove l) * M l k = (1 : Matrix _ _ K) k' k :=
        congrFun (congrFun h k') k
      rw [cleared_core h, zero_mul, sub_zero, hb]
      simp only [one_apply, Fin.succAbove_right_inj]

end Enlarge

section Reduce

variable {N : Matrix (Fin (n + 1)) (Fin (n + 1)) K}

def reduced (N : Matrix (Fin (n + 1)) (Fin (n + 1)) K) (i j : Fin (n + 1)) :
    Matrix (Fin n) (Fin n) K :=
  of fun l k => N (j.succAbove l) (i.succAbove k)
    - N (j.succAbove l) i * N j (i.succAbove k) / N j i

theorem reduced_inverse (h : B * N = 1) (hp : N j i ≠ 0) : core B i j * reduced N i j = 1 := by
  -- without its term at place `j`, a row of `B` against a column of `N`
  have hsum : ∀ k q, ∑ l, B (i.succAbove k) (j.succAbove l) * N (j.succAbove l) q =
      (1 : Matrix _ _ K) (i.succAbove k) q - B (i.succAbove k) j * N j q := by
    intro k q
    rw [← h, mul_apply, Fin.sum_univ_succAbove _ j, add_sub_cancel_left]
  ext k k'
  have hsplit : (core B i j * reduced N i j) k k' =
      ∑ l, B (i.succAbove k) (j.succAbove l) * N (j.succAbove l) (i.succAbove k')
        - (∑ l, B (i.succAbove k) (j.succAbove l) * N (j.succAbove l) i)
          * (N j (i.succAbove k') / N j i) := by
    rw [mul_apply, Finset.sum_mul, ← Finset.sum_sub_distrib]
    refine Finset.sum_congr rfl fun l _ => ?_
    simp only [core, reduced, submatrix_apply, of_apply]
    ring
  rw [hsplit, hsum, hsum, one_apply_ne (Fin.succAbove_ne i k)]
  simp only [one_apply, Fin.succAbove_right_inj]
  field_simp
  ring

theorem det_core (h : B * N = 1) :
    (core B i j).det = (-1) ^ (i + j : ℕ) * N j i * B.det := by
  have hadj : B.adjugate = B.det • N := by
    calc B.adjugate = B.adjugate * (B * N) := by rw [h, mul_one]
      _ = B.det • N := by rw [← mul_assoc, adjugate_mul, smul_mul, one_mul]
  have hentry := adjugate_fin_succ_eq_det_submatrix B j i
  rw [hadj, Matrix.smul_apply, smul_eq_mul] at hentry
  have hsq : ((-1) ^ (i + j : ℕ) * (-1) ^ (i + j : ℕ) : K) = 1 := by
    rw [← mul_pow, neg_one_mul, neg_neg, one_pow]
  calc (core B i j).det
      = (-1) ^ (i + j : ℕ) * ((-1) ^ (i + j : ℕ) * (core B i j).det) := by
        rw [← mul_assoc, hsq, one_mul]
    _ = (-1) ^ (i + j : ℕ) * N j i * B.det := by
        rw [show (-1) ^ (i + j : ℕ) * (core B i j).det = B.det * N j i from hentry.symm]
        ring

end Reduce

end ImpuritySampler.Border
