import ImpuritySampler.Proofs.Line.Check

/-!
# Keys of a determinant

The row keys of a color are the creation times of its segments and the column keys the
annihilation times, each by decreasing time. Which times a list of keys stands for is followed up
to order, as the order is the sorted one.
-/

set_option autoImplicit false

namespace ImpuritySampler

variable {α : Type} {beta : α}

/-- Keys of orbital zero at the given ticks, by decreasing time. -/
structure Keyed (beta : α) (keys : List (Key α)) (ticks : List ℕ) : Prop where
  falling : Falling (·.time.ticks) keys
  perm : (keys.map (·.time.ticks)).Perm ticks
  points : ∀ k ∈ keys, k.time.IsPoint beta ∧ k.orbital = 0

namespace Keyed

variable {keys : List (Key α)} {ticks rest : List ℕ} {t : Time α}

theorem of_perm (h : Keyed beta keys ticks) (hp : ticks.Perm rest) : Keyed beta keys rest :=
  ⟨h.falling, h.perm.trans hp, h.points⟩

theorem mem_ticks {k : Key α} (h : Keyed beta keys ticks) (hk : k ∈ keys) : k.time.ticks ∈ ticks :=
  h.perm.mem_iff.mp (List.mem_map_of_mem hk)

theorem insert (h : Keyed beta keys ticks) (ht : t.IsPoint beta) (hne : t.ticks ∉ ticks) :
    Line.lowerBound (keys.map (·.time)) t ≤ keys.length ∧
      Keyed beta (keys.insertIdx (Line.lowerBound (keys.map (·.time)) t) ⟨t, 0⟩)
        (t.ticks::ticks) := by
  have hplace := Line.lowerBound_isPlace (x := ⟨t, 0⟩) h.falling fun k hk he =>
    hne (he ▸ h.mem_ticks hk)
  have hperm := List.perm_insertIdx (⟨t, 0⟩ : Key α) keys hplace.le
  refine ⟨hplace.le, hplace.falling h.falling, (hperm.map _).trans (.cons _ h.perm), ?_⟩
  intro k hk
  rcases List.mem_cons.mp (hperm.mem_iff.mp hk) with rfl | hk
  · exact ⟨ht, rfl⟩
  · exact h.points k hk

theorem eraseIdx {i : ℕ} {k : Key α} (h : Keyed beta keys ticks) (hk : keys[i]? = some k)
    (hp : (k.time.ticks::rest).Perm ticks) : Keyed beta (keys.eraseIdx i) rest := by
  obtain ⟨hi, rfl⟩ := List.getElem?_eq_some_iff.mp hk
  have hsub := List.eraseIdx_sublist keys i
  refine ⟨h.falling.sublist hsub, ?_, fun k hk => h.points k (hsub.subset hk)⟩
  have hperm := ((List.getElem_cons_eraseIdx_perm hi).map (·.time.ticks)).trans
    (h.perm.trans hp.symm)
  exact hperm.cons_inv

theorem exists_findIdx (h : Keyed beta keys ticks) {n : ℕ} (hn : n ∈ ticks) :
    ∃ i k, keys.findIdx? (fun key => key.time.ticks = n) = some i ∧ keys[i]? = some k ∧
      k.time.ticks = n := by
  obtain ⟨k, hk, hkn⟩ := List.mem_map.mp (h.perm.mem_iff.mpr hn)
  cases hf : keys.findIdx? fun key => key.time.ticks = n with
  | none =>
    have hne := List.findIdx?_eq_none_iff.mp hf k hk
    exact absurd hkn (of_decide_eq_false hne)
  | some i =>
    obtain ⟨hi, he, -⟩ := List.findIdx?_eq_some_iff_getElem.mp hf
    exact ⟨i, keys[i], rfl, List.getElem?_eq_getElem hi, of_decide_eq_true he⟩

end Keyed

end ImpuritySampler
