import ImpuritySampler.Proofs.Line.Valid
import ImpuritySampler.State.Check

/-!
# Checked lines

On a cycle, the lines that pass the check are the valid ones.
-/

set_option autoImplicit false

namespace ImpuritySampler.Line

variable {α : Type} {beta : α} {l : Line α} {rule : Rule α} {color : ℕ}

/-- A rule that is reported exactly if it does not hold. -/
def Strict (rule : Rule α) : Prop :=
  ∀ (p : Prop) [Decidable p] (v : Violation α), rule p v = .ok () ↔ p

theorem checkSegments_eq_ok (hrule : Strict rule) : checkSegments rule color l = .ok () ↔
    ∀ s k, l[k]? = some s → s.annihilation.ticks ≠ s.creation.ticks ∧
      (s.isCyclic = false ∨ k + 1 = l.length) := by
  rw [checkSegments, Outcome.forM_eq_ok]
  constructor
  · intro h s k hk
    obtain ⟨_, hpos, hcyc⟩ := Outcome.bind_eq_ok.mp
      (h (s, k) (List.mk_mem_zipIdx_iff_getElem?.mpr hk))
    exact ⟨(hrule _ _).mp hpos, (hrule _ _).mp hcyc⟩
  · rintro h ⟨s, k⟩ hk
    obtain ⟨hpos, hcyc⟩ := h s k (List.mk_mem_zipIdx_iff_getElem?.mp hk)
    exact Outcome.bind_eq_ok.mpr ⟨(), (hrule _ _).mpr hpos, (hrule _ _).mpr hcyc⟩

def Later (s t : Segment α) : Prop := t.annihilation.ticks < s.annihilation.ticks

theorem checkOrder_eq_ok (hrule : Strict rule) :
    checkOrder rule color l = .ok () ↔ Sorted l := by
  have hsorted : Sorted l ↔ ∀ k (_ : k + 1 < l.length), Later l[k] l[k + 1] :=
    List.isChain_iff_pairwise.symm.trans List.isChain_iff_getElem
  rw [hsorted, checkOrder, Outcome.forM_eq_ok]
  constructor
  · intro h k hk
    have hget : (l.zip l.tail)[k]? = some (l[k], l[k + 1]) := by
      rw [List.getElem?_zip_eq_some]
      simp [hk, Nat.lt_of_succ_lt hk]
    exact (hrule (l[k + 1].annihilation.ticks < l[k].annihilation.ticks) _).mp
      (h ((l[k], l[k + 1]), k) (List.mk_mem_zipIdx_iff_getElem?.mpr hget))
  · rintro h ⟨⟨s, t⟩, k⟩ hk
    obtain ⟨hs, ht⟩ := List.getElem?_zip_eq_some.mp (List.mk_mem_zipIdx_iff_getElem?.mp hk)
    rw [List.getElem?_tail] at ht
    obtain ⟨hk₁, hs⟩ : ∃ hk : k < l.length, l[k] = s := List.getElem?_eq_some_iff.mp hs
    obtain ⟨hk₂, ht⟩ : ∃ hk : k + 1 < l.length, l[k + 1] = t := List.getElem?_eq_some_iff.mp ht
    have hlater := h k hk₂
    rw [hs, ht] at hlater
    exact (hrule _ _).mpr hlater

variable [Scalar α] [Time.Resolved beta]

theorem checkOverlaps_eq_ok (hrule : Strict rule) (hb : 0 < beta)
    (hl : ∀ s ∈ l, s.OnCycle beta) :
    checkOverlaps rule color l = .ok () ↔ l.Pairwise fun s t => Disjoint s.ticks t.ticks := by
  have hdrop : ∀ k, ∀ s ∈ l.drop k, s.OnCycle beta := fun k s hs => hl s (List.mem_of_mem_drop hs)
  rw [checkOverlaps, Outcome.forM_eq_ok]
  constructor
  · intro h
    rw [List.pairwise_iff_getElem]
    intro i k hi hk hik
    obtain ⟨shared, hshared, hzero⟩ := Outcome.bind_eq_ok.mp
      (h (l[i], i) (List.mk_mem_zipIdx_iff_getElem?.mpr (List.getElem?_eq_getElem hi)))
    refine disjoint_of_overlap hb (hdrop _) (hl _ (List.getElem_mem hi)) hshared
      ((hrule _ _).mp hzero) _ ?_
    exact List.mem_drop_iff_getElem.mpr ⟨k - (i + 1), by omega, by congr 1; omega⟩
  · rintro h ⟨s, k⟩ hk
    have hk := List.mk_mem_zipIdx_iff_getElem?.mp hk
    have hs := List.mem_of_getElem? hk
    have hd : ∀ t ∈ l.drop (k + 1), Disjoint s.ticks t.ticks := by
      intro t ht
      obtain ⟨i, hi, rfl⟩ := List.mem_drop_iff_getElem.mp ht
      obtain ⟨hkl, rfl⟩ := List.getElem?_eq_some_iff.mp hk
      exact List.pairwise_iff_getElem.mp h k (k + 1 + i) hkl (by omega) (by omega)
    have hzero : s.ticks ∩ ticks (l.drop (k + 1)) = ∅ :=
      Finset.disjoint_iff_inter_eq_empty.mp (disjoint_ticks fun t ht => (hd t ht).symm).symm
    refine Outcome.bind_eq_ok.mpr ⟨Time.scale 0 beta, ?_, (hrule _ _).mpr ?_⟩
    · rw [overlap_eq hb (hdrop _) (hl s hs) (h.sublist (List.drop_sublist _ l)), hzero,
        Finset.card_empty]
    · exact (Time.Resolved.zero hb 0 (by decide)).mpr rfl

/-- The lines that pass the check are the valid ones. -/
theorem check_eq_ok (hrule : Strict rule) (hb : 0 < beta) (hl : ∀ s ∈ l, s.OnCycle beta) :
    l.check rule color = .ok () ↔ l.Valid beta := by
  have hany : l.anyM Segment.isFull = (.ok (l.any fun s => decide s.Whole) : Outcome α Bool) :=
    Outcome.anyM_eq_ok fun s hs => (hl s hs).isFull hb
  rw [check, hany, Outcome.ok_bind]
  by_cases hw : ∃ s ∈ l, s.Whole
  · have htrue : (l.any fun s => decide s.Whole) = true := by simpa using hw
    rw [htrue, if_pos rfl, hrule]
    constructor
    · intro hlen
      obtain ⟨s, rfl⟩ := List.length_eq_one_iff.mp hlen
      exact ⟨hl, .inl ⟨s, rfl, by simpa using hw⟩⟩
    · intro h
      obtain ⟨s, hs, hw⟩ := hw
      obtain ⟨i, hi⟩ := List.mem_iff_getElem?.mp hs
      rw [eq_singleton_of_whole h hi hw]
      rfl
  · have hfalse : (l.any fun s => decide s.Whole) = false := by simpa using hw
    rw [hfalse, if_neg (by decide), Outcome.bind_eq_ok]
    constructor
    · rintro ⟨_, hsegments, h⟩
      obtain ⟨_, horder, hoverlaps⟩ := Outcome.bind_eq_ok.mp h
      have hsegments := (checkSegments_eq_ok hrule).mp hsegments
      refine ⟨hl, .inr ⟨fun s hs => (hl s hs).regular fun h => hw ⟨s, hs, h⟩, fun s hs => ?_,
        (checkOrder_eq_ok hrule).mp horder, (checkOverlaps_eq_ok hrule hb hl).mp hoverlaps⟩⟩
      obtain ⟨k, hk⟩ := List.mem_iff_getElem?.mp hs
      exact (hsegments s k hk).1
    · intro h
      rcases h.shape with ⟨s, rfl, hws⟩ | ht
      · exact absurd ⟨s, List.mem_singleton_self s, hws⟩ hw
      have hwrap : ∀ s k, l[k]? = some s → s.isCyclic = false ∨ k + 1 = l.length := by
        intro s k hk
        cases hc : s.isCyclic with
        | false => exact .inl rfl
        | true => exact .inr (ht.last_of_cyclic hk hc)
      have hsegments : checkSegments rule color l = .ok () :=
        (checkSegments_eq_ok hrule).mpr fun s k hk =>
          ⟨ht.positive s (List.mem_of_getElem? hk), hwrap s k hk⟩
      exact ⟨(), hsegments, Outcome.bind_eq_ok.mpr ⟨(), (checkOrder_eq_ok hrule).mpr ht.sorted,
          (checkOverlaps_eq_ok hrule hb hl).mpr ht.apart⟩⟩

end ImpuritySampler.Line
