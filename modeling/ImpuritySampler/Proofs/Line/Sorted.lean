import ImpuritySampler.Proofs.Line.Search
import ImpuritySampler.Hybridization
import ImpuritySampler.Line

/-!
# Sorted lists

Segments and determinant keys are kept by decreasing ticks. Both searches find the place at which a
new one keeps the list sorted, and a sorted list is determined by its elements.
-/

set_option autoImplicit false

namespace ImpuritySampler

section Falling

variable {β : Type} {key : β → ℕ} {l m : List β} {x : β}

/-- By decreasing key, without ties. -/
def Falling (key : β → ℕ) (l : List β) : Prop := l.Pairwise fun x y => key y < key x

structure IsPlace (key : β → ℕ) (l : List β) (x : β) (k : ℕ) : Prop where
  le : k ≤ l.length
  above : ∀ y ∈ l.take k, key x < key y
  below : ∀ y ∈ l.drop k, key y < key x

theorem insertIdx_eq_append {k : ℕ} (h : k ≤ l.length) :
    l.insertIdx k x = l.take k ++ x :: l.drop k := by
  induction k generalizing l with
  | zero => rfl
  | succ k ih =>
    cases l with
    | nil => exact absurd h (by simp)
    | cons y l =>
      rw [List.insertIdx_succ_cons, ih (Nat.le_of_succ_le_succ h)]
      rfl

theorem IsPlace.falling {k : ℕ} (h : IsPlace key l x k) (hl : Falling key l) :
    Falling key (l.insertIdx k x) := by
  rw [insertIdx_eq_append h.le]
  refine List.pairwise_append.mpr ⟨hl.sublist (List.take_sublist k l),
    List.pairwise_cons.mpr ⟨h.below, hl.sublist (List.drop_sublist k l)⟩, ?_⟩
  intro y hy z hz
  rcases List.mem_cons.mp hz with rfl | hz
  · exact h.above y hy
  · exact lt_trans (h.below z hz) (h.above y hy)

theorem Falling.exists_place (hl : Falling key l) (hx : ∀ y ∈ l, key y ≠ key x) :
    ∃ k, IsPlace key l x k := by
  induction l with
  | nil => exact ⟨0, le_rfl, by simp, by simp⟩
  | cons z l ih =>
    obtain ⟨hz, hl⟩ := List.pairwise_cons.mp hl
    rcases lt_or_gt_of_ne (hx z List.mem_cons_self) with hlt | hgt
    · refine ⟨0, Nat.zero_le _, by simp, fun y hy => ?_⟩
      rcases List.mem_cons.mp hy with rfl | hy
      · exact hlt
      · exact lt_trans (hz y hy) hlt
    · obtain ⟨k, hk⟩ := ih hl fun y hy => hx y (List.mem_cons_of_mem z hy)
      refine ⟨k + 1, Nat.succ_le_succ hk.le, fun y hy => ?_, fun y hy => hk.below y hy⟩
      rcases List.mem_cons.mp hy with rfl | hy
      · exact hgt
      · exact hk.above y hy

theorem IsPlace.of_lt {k i : ℕ} {y : β} (h : IsPlace key l x k) (hy : l[i]? = some y) (hi : i < k) :
    key x < key y :=
  h.above y (List.mem_of_getElem? (by rw [List.getElem?_take_of_lt hi, hy]))

theorem IsPlace.of_le {k i : ℕ} {y : β} (h : IsPlace key l x k) (hy : l[i]? = some y) (hi : k ≤ i) :
    key y < key x :=
  h.below y (List.mem_of_getElem? (by rw [List.getElem?_drop, Nat.add_sub_cancel' hi, hy]))

theorem Falling.lt_of_lt {i j : ℕ} {y z : β} (h : Falling key l) (hij : i < j)
    (hy : l[i]? = some y) (hz : l[j]? = some z) : key z < key y := by
  obtain ⟨hi, rfl⟩ := List.getElem?_eq_some_iff.mp hy
  obtain ⟨hj, rfl⟩ := List.getElem?_eq_some_iff.mp hz
  exact List.pairwise_iff_getElem.mp h i j hi hj hij

theorem Falling.le_of_le {i j : ℕ} {y z : β} (h : Falling key l) (hij : i ≤ j)
    (hy : l[i]? = some y) (hz : l[j]? = some z) : key z ≤ key y := by
  rcases Nat.lt_or_eq_of_le hij with hlt | rfl
  · exact (h.lt_of_lt hlt hy hz).le
  · rw [Option.some.inj (hy.symm.trans hz)]

theorem Falling.index_unique {i j : ℕ} {y z : β} (h : Falling key l) (hy : l[i]? = some y)
    (hz : l[j]? = some z) (he : key y = key z) : i = j := by
  rcases lt_trichotomy i j with hij | hij | hij
  · exact absurd he (h.lt_of_lt hij hy hz).ne'
  · exact hij
  · exact absurd he (h.lt_of_lt hij hz hy).ne

theorem Falling.eq_of_perm (hl : Falling key l) (hm : Falling key m) (h : l.Perm m) : l = m :=
  h.eq_of_pairwise (fun _ _ _ _ h₁ h₂ => absurd h₁ (lt_asymm h₂)) hl hm

theorem falling_map : Falling id (l.map key) ↔ Falling key l := List.pairwise_map

theorem Falling.nodup (h : Falling key l) : (l.map key).Nodup :=
  (falling_map.mpr h).imp fun hlt he => absurd hlt (by rw [he]; exact lt_irrefl _)

theorem falling_mergeSort (h : (l.map key).Nodup) :
    Falling key (l.mergeSort fun x y => decide (key y ≤ key x)) := by
  have hle : (l.mergeSort fun x y => decide (key y ≤ key x)).Pairwise fun x y =>
      decide (key y ≤ key x) = true :=
    List.pairwise_mergeSort (fun x y z hxy hyz => by simp at *; omega)
      (fun x y => by simp; omega) _
  have hne : (l.mergeSort fun x y => decide (key y ≤ key x)).Pairwise fun x y => key x ≠ key y :=
    List.pairwise_map.mp (((List.mergeSort_perm l _).map key).nodup_iff.mpr h)
  exact (hle.and hne).imp fun ⟨h₁, h₂⟩ => lt_of_le_of_ne (of_decide_eq_true h₁) h₂.symm

end Falling

variable {α : Type}

theorem Line.place_le (l : Line α) (s : Segment α) : l.place s ≤ l.length :=
  Search.partitionPoint_le _ _

theorem Line.place_isPlace {l : Line α} {s : Segment α}
    (hl : Falling (·.annihilation.ticks) l)
    (hs : ∀ t ∈ l, t.annihilation.ticks ≠ s.annihilation.ticks) :
    IsPlace (·.annihilation.ticks) l s (l.place s) := by
  obtain ⟨k, hk⟩ := hl.exists_place hs
  suffices h : l.place s = k by rwa [h]
  refine Search.partitionPoint_eq hk.le (fun i hi => ?_) fun i hi hki => ?_
  · have hlt := lt_of_lt_of_le hi hk.le
    have ht := hk.of_lt (List.getElem?_eq_getElem hlt) hi
    simp only [List.getElem?_eq_getElem hlt, Segment.notAfter, Segment.compare,
      Nat.compare_eq_lt.mpr ht]
    rfl
  · have ht := hk.of_le (List.getElem?_eq_getElem hi) hki
    simp only [List.getElem?_eq_getElem hi, Segment.notAfter, Segment.compare,
      Nat.compare_eq_gt.mpr ht]
    rfl

theorem Line.lowerBound_isPlace {keys : List (Key α)} {x : Key α}
    (hl : Falling (·.time.ticks) keys) (hx : ∀ y ∈ keys, y.time.ticks ≠ x.time.ticks) :
    IsPlace (·.time.ticks) keys x (Line.lowerBound (keys.map (·.time)) x.time) := by
  obtain ⟨k, hk⟩ := hl.exists_place hx
  suffices h : Line.lowerBound (keys.map (·.time)) x.time = k by rwa [h]
  refine Search.lowerBound_eq (by rw [List.length_map]; exact hk.le) (fun i hi => ?_) fun i hi => ?_
  · have hlt : (i : ℕ) < keys.length := by simpa using i.isLt
    simpa using hk.of_lt (List.getElem?_eq_getElem hlt) hi
  · have hlt : (i : ℕ) < keys.length := by simpa using i.isLt
    simpa using (hk.of_le (List.getElem?_eq_getElem hlt) hi).le

end ImpuritySampler
