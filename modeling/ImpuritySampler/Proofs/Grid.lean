import ImpuritySampler.Proofs.ExactScalar
import ImpuritySampler.Proofs.Outcome
import ImpuritySampler.Grid

/-!
# Tables as matrices

A table whose entries come from a rule that can fail exists exactly if the rule has a value at every
place, and then it holds these values. A square table is read as a matrix.
-/

set_option autoImplicit false

namespace ImpuritySampler

namespace Grid

section Entries

variable {α β : Type}

theorem ofFnM_eq_ok {rows cols : ℕ} {f : ℕ → ℕ → Outcome α β} {v : ℕ → ℕ → β}
    (h : ∀ i < rows, ∀ j < cols, f i j = .ok (v i j)) :
    ofFnM rows cols f = .ok (ofFn rows cols v) := by
  have hv : Vector.ofFnM (fun k : Fin (rows * cols) => f (k / cols) (k % cols)) =
      (pure (Vector.ofFn fun k : Fin (rows * cols) => v (k / cols) (k % cols)) :
        Outcome α (Vector β (rows * cols))) := by
    rw [← Vector.ofFnM_pure]
    congr 1
    funext k
    have hc : 0 < cols := Nat.pos_of_mul_pos_left (Nat.zero_lt_of_lt k.isLt)
    exact h _ (Nat.div_lt_of_lt_mul (Nat.mul_comm rows cols ▸ k.isLt)) _ (Nat.mod_lt _ hc)
  rw [ofFnM, hv]
  rfl

theorem ofFnM_shape {rows cols : ℕ} {f : ℕ → ℕ → Outcome α β} {g : Grid β}
    (h : ofFnM rows cols f = .ok g) : g.HasShape rows cols := by
  obtain ⟨v, -, hg⟩ := Outcome.bind_eq_ok.mp h
  cases hg
  exact ⟨rfl, rfl⟩

theorem ofFnM_entry [Zero β] {rows cols i j : ℕ} {f : ℕ → ℕ → Outcome α β} {g : Grid β}
    (h : ofFnM rows cols f = .ok g) (hi : i < rows) (hj : j < cols) :
    f i j = .ok (g.entry i j) := by
  obtain ⟨v, hv, hg⟩ := Outcome.bind_eq_ok.mp h
  cases hg
  have hk := Outcome.of_ofFnM_eq_ok hv ⟨i * cols + j, place_lt hi hj⟩
  simp only [place_div hj, place_mod hj] at hk
  rw [hk, entry, get?, if_pos ⟨hi, hj⟩]
  simp [place_lt hi hj]

end Entries

variable {α : Type} [Zero α]

def toMatrix (g : Grid α) (n : ℕ) : Matrix (Fin n) (Fin n) α := Matrix.of fun i j => g.entry i j

theorem toMatrix_apply (g : Grid α) {n : ℕ} (i j : Fin n) : g.toMatrix n i j = g.entry i j := rfl

end Grid
end ImpuritySampler
