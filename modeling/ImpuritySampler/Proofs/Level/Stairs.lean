import Mathlib

/-!
# Determinants of stairs

A matrix with one value on and under the diagonal and another one above it. If the two differ by
one, subtracting from each row the one above it leaves unit rows under the first row, so that the
determinant is the value on the diagonal.
-/

set_option autoImplicit false

namespace ImpuritySampler

open Matrix

variable {R : Type} [CommRing R] {n : ℕ} {u v : R}

/-- `u` on and under the diagonal, `v` above it. -/
def stairs (n : ℕ) (u v : R) : Matrix (Fin n) (Fin n) R := of fun i j => if i < j then v else u

def steps (n : ℕ) (u v : R) : Matrix (Fin (n + 1)) (Fin (n + 1)) R :=
  of fun i j => if i = 0 then stairs (n + 1) u v 0 j else if i = j then 1 else 0

theorem det_steps : (steps n u v).det = u := by
  have htriangular : (steps n u v).BlockTriangular id := fun i j hji => by
    have hlt : j < i := hji
    rw [steps, of_apply, if_neg (Fin.ne_zero_of_lt hlt), if_neg hlt.ne']
  rw [det_of_isUpperTriangular htriangular, Fin.prod_univ_succ]
  simp [steps, stairs, Fin.succ_ne_zero]

theorem stairs_succ (h : u - v = 1) (i : Fin n) (j : Fin (n + 1)) :
    stairs (n + 1) u v i.succ j = steps n u v i.succ j + stairs (n + 1) u v i.castSucc j := by
  rw [steps, of_apply, if_neg (Fin.succ_ne_zero i), stairs, of_apply, of_apply]
  have hsucc : i.succ < j ↔ (i : ℕ) + 1 < j := Iff.rfl
  have hcast : i.castSucc < j ↔ (i : ℕ) < j := Iff.rfl
  have heq : i.succ = j ↔ (i : ℕ) + 1 = j := Fin.ext_iff
  rcases lt_trichotomy ((i : ℕ) + 1) j with hlt | he | hlt
  · rw [if_pos (hsucc.mpr hlt), if_neg (mt heq.mp hlt.ne), if_pos (hcast.mpr (by omega)), zero_add]
  · rw [if_neg (mt hsucc.mp he.not_lt), if_pos (heq.mpr he), if_pos (hcast.mpr (by omega)), ← h,
      sub_add_cancel]
  · rw [if_neg (mt hsucc.mp (by omega)), if_neg (mt heq.mp hlt.ne'),
      if_neg (mt hcast.mp (by omega)), zero_add]

theorem det_stairs (h : u - v = 1) : (stairs (n + 1) u v).det = u := by
  refine (det_eq_of_forall_row_eq_smul_add_pred (B := steps n u v) (fun _ => 1) (fun j => ?_)
    fun i j => ?_).trans det_steps
  · rw [steps, of_apply, if_pos rfl]
  · rw [one_mul, stairs_succ h]

/-- With the diagonal above the stairs, the transposed matrix is stairs with both values negated. -/
theorem det_stairs_above (h : u - v = 1) :
    (of fun i j : Fin (n + 1) => if i ≤ j then v else u).det = (-1) ^ n * v := by
  have hstairs : (of fun i j : Fin (n + 1) => if i ≤ j then v else u) =
      -(stairs (n + 1) (-v) (-u))ᵀ := by
    ext i j
    rw [neg_apply, transpose_apply, stairs, of_apply, of_apply]
    by_cases hij : i ≤ j
    · rw [if_pos hij, if_neg (not_lt.mpr hij), neg_neg]
    · rw [if_neg hij, if_pos (not_le.mp hij), neg_neg]
  rw [hstairs, det_neg, det_transpose, det_stairs (by rw [neg_sub_neg, h]), Fintype.card_fin,
    pow_succ, mul_neg_one, neg_mul_neg]

end ImpuritySampler
