import ImpuritySampler.Proofs.State.Consistent

/-!
# Alternating operators

The creations and the annihilations of a line alternate. So the comparison of an annihilation with
a creation, each taken by decreasing time, is one of their places. If the last segment wraps, its
creation is the latest operator of all, and all other creations come one place later. The keys of a
determinant alternate as the operators of its line do.
-/

set_option autoImplicit false

namespace ImpuritySampler.Line

variable {α : Type} {beta : α} {l m : Line α} {p q s : Segment α} {i j a c : ℕ}
variable {D : LineDeterminant α}

def wraps (l : Line α) : Bool := l.getLast?.any Segment.isCyclic

theorem traceSign_eq (l : Line α) :
    l.traceSign = if l.wraps then .ofParity l.length else .plus := by
  rw [traceSign, wraps]
  cases l.getLast? with
  | none => rfl
  | some s => rfl

theorem Valid.traceSign_bounded (hv : l.Valid beta) (hl : l.bounded = []) :
    l.traceSign = .plus := by
  rcases hv.shape with ⟨s, rfl, hw⟩ | ht
  · rw [traceSign_eq, show wraps [s] = false from hw.not_cyclic, if_neg Bool.false_ne_true]
  · obtain rfl : l = [] := ht.bounded.symm.trans hl
    rfl

theorem wraps_append (m : Line α) (s : Segment α) : wraps (m ++ [s]) = s.isCyclic := by
  rw [wraps, List.getLast?_concat, Option.any_some]

theorem exists_wrap (hl : l.wraps = true) : ∃ m s, l = m ++ [s] ∧ s.isCyclic = true := by
  rcases l.eq_nil_or_concat' with rfl | ⟨m, s, rfl⟩
  · cases hl
  · exact ⟨m, s, rfl, (wraps_append m s).symm.trans hl⟩

theorem Tidy.straight (h : Tidy l) (hl : l.wraps = false) (hs : s ∈ l) :
    s.creation.ticks < s.annihilation.ticks := by
  obtain ⟨k, hk⟩ := List.mem_iff_getElem?.mp hs
  have hne := h.positive s hs
  by_contra hle
  have hc : s.isCyclic = true := by
    rw [Segment.isCyclic, decide_eq_true_iff]
    omega
  have hlast : l.getLast? = some s := by
    rw [List.getLast?_eq_getElem?, ← h.last_of_cyclic hk hc, Nat.add_sub_cancel, hk]
  rw [wraps, hlast, Option.any_some, hc] at hl
  cases hl

/-- A segment of which the creation comes first ends after exactly those that come later in the
list. -/
theorem Tidy.annihilation_le_iff (h : Tidy l) (hp : l[i]? = some p) (hq : l[j]? = some q)
    (hs : p.creation.ticks < p.annihilation.ticks) :
    q.annihilation.ticks ≤ p.creation.ticks ↔ i < j := by
  rcases lt_trichotomy i j with hij | rfl | hij
  · exact ⟨fun _ => hij, fun _ => (h.before_of_lt hij hp hq).above⟩
  · cases hp.symm.trans hq
    omega
  · obtain ⟨h₁, h₂, -⟩ := h.before_of_lt hij hq hp
    omega

theorem Tidy.annihilation_le_cyclic (h : Tidy l) (hp : l[i]? = some p) (hq : l[j]? = some q)
    (hc : p.isCyclic = true) : q.annihilation.ticks ≤ p.creation.ticks := by
  have hlast := h.last_of_cyclic hp hc
  have hj := (List.getElem?_eq_some_iff.mp hq).1
  rw [Segment.isCyclic, decide_eq_true_iff] at hc
  rcases Nat.lt_or_eq_of_le (show j ≤ i by omega) with hji | rfl
  · exact (h.before_of_lt hji hq hp).wrap hc
  · cases hp.symm.trans hq
    exact hc.le

theorem falling_creations (h : m.Pairwise Before)
    (hm : ∀ s ∈ m, s.creation.ticks < s.annihilation.ticks) : Falling (·.creation.ticks) m := by
  refine h.imp_of_mem fun {p q} _ hq hpq => ?_
  have hstraight := hm q hq
  have habove := hpq.above
  show q.creation.ticks < p.creation.ticks
  omega

/-- The creations by decreasing time: the last one comes first if its segment wraps. -/
def creations (l : Line α) : List ℕ :=
  (l.map (·.creation.ticks)).rotate (if l.wraps then l.length - 1 else 0)

theorem creations_straight (hl : l.wraps = false) : l.creations = l.map (·.creation.ticks) := by
  rw [creations, hl, if_neg Bool.false_ne_true, List.rotate_zero]

theorem creations_wrap (hs : s.isCyclic = true) :
    creations (m ++ [s]) = s.creation.ticks::m.map (·.creation.ticks) := by
  have hlength : (m ++ [s]).length - 1 = (m.map (·.creation.ticks)).length := by simp
  rw [creations, wraps_append, hs, if_pos rfl, hlength, List.map_append,
    List.rotate_append_length_eq]
  rfl

theorem Tidy.creations_falling (h : Tidy l) : Falling id l.creations := by
  cases hl : l.wraps with
  | false =>
    rw [creations_straight hl]
    exact falling_map.mpr (falling_creations h.before fun s => h.straight hl)
  | true =>
    obtain ⟨m, s, rfl, hs⟩ := exists_wrap hl
    obtain ⟨hm, -, hlast⟩ := List.pairwise_append.mp h.before
    have hbefore : ∀ p ∈ m, Before p s := fun p hp => hlast p hp s List.mem_cons_self
    rw [Segment.isCyclic, decide_eq_true_iff] at hs
    rw [creations_wrap (decide_eq_true hs)]
    refine List.pairwise_cons.mpr ⟨fun c hc => ?_,
      falling_map.mpr (falling_creations hm fun p hp => (hbefore p hp).straight)⟩
    obtain ⟨p, hp, rfl⟩ := List.mem_map.mp hc
    exact lt_of_lt_of_le (hbefore p hp).straight ((hbefore p hp).wrap hs)

theorem Tidy.decreasing_creations (h : Tidy l) :
    State.decreasing (l.map (·.creation.ticks)) = l.creations :=
  State.decreasing_eq h.creations_falling (List.rotate_perm _ _)

theorem Tidy.annihilation_le_creations (h : Tidy l) (hc : l.creations[i]? = some c)
    (ha : (l.map (·.annihilation.ticks))[j]? = some a) :
    a ≤ c ↔ if l.wraps then i ≤ j else i < j := by
  rw [List.getElem?_map, Option.map_eq_some_iff] at ha
  obtain ⟨q, hq, rfl⟩ := ha
  cases hl : l.wraps with
  | false =>
    rw [creations_straight hl, List.getElem?_map, Option.map_eq_some_iff] at hc
    obtain ⟨p, hp, rfl⟩ := hc
    exact h.annihilation_le_iff hp hq (h.straight hl (List.mem_of_getElem? hp))
  | true =>
    obtain ⟨m, s, rfl, hs⟩ := exists_wrap hl
    rw [creations_wrap hs] at hc
    rw [if_pos rfl]
    cases i with
    | zero =>
      cases hc
      exact iff_of_true (h.annihilation_le_cyclic List.getElem?_concat_length hq hs)
        (Nat.zero_le j)
    | succ i =>
      rw [List.getElem?_cons_succ, List.getElem?_map, Option.map_eq_some_iff] at hc
      obtain ⟨p, hp, rfl⟩ := hc
      have hi := (List.getElem?_eq_some_iff.mp hp).1
      have hbefore := (List.pairwise_append.mp h.before).2.2 p (List.mem_of_getElem? hp) s
        List.mem_cons_self
      exact h.annihilation_le_iff ((List.getElem?_append_left hi).trans hp) hq hbefore.straight

theorem HeldBy.map_rowKeys (h : l.HeldBy beta D) (ht : Tidy l) :
    D.rowKeys.map (·.time.ticks) = l.creations := by
  have hperm := h.rows.perm
  rw [ht.bounded] at hperm
  exact Falling.eq_of_perm (falling_map.mpr h.rows.falling) ht.creations_falling
    (hperm.trans (List.rotate_perm _ _).symm)

/-- A creation key is not before an annihilation key exactly if its place is not after it, or not at
it if no segment wraps. -/
theorem HeldBy.alternate {x y : Key α} (h : l.HeldBy beta D) (ht : Tidy l)
    (hx : D.rowKeys[i]? = some x) (hy : D.colKeys[j]? = some y) :
    y.time.ticks ≤ x.time.ticks ↔ if l.wraps then i ≤ j else i < j := by
  have hc : l.creations[i]? = some x.time.ticks := by
    rw [← h.map_rowKeys ht, List.getElem?_map, hx, Option.map_some]
  have ha : (l.map (·.annihilation.ticks))[j]? = some y.time.ticks := by
    rw [← h.map_colKeys ht, List.getElem?_map, hy, Option.map_some]
  exact ht.annihilation_le_creations hc ha

end ImpuritySampler.Line
