import ImpuritySampler.Proofs.Move.Partner
import ImpuritySampler.Proofs.Move.Tiling

/-!
# Lines taken apart and put together

Every valid line can be emptied by the moves, one draw after the other, and every line with a free
tick can be built up from the empty one. What is built is taken apart backwards: a free tick lies in
the gap behind some segment, which therefore does not touch the next one. So it can be taken out,
and drawn again once the rest is there.
-/

set_option autoImplicit false

namespace ImpuritySampler.Line

open Relation

-- the number of ticks of a segment is not to be computed where it is compared
attribute [local irreducible] Segment.ticks

variable {α : Type} {beta : α} {l m : Line α}

def Edited (beta : α) (l m : Line α) : Prop :=
  l.Valid beta ∧ ∃ x change, Draw.Edits beta l x change m

def Roomy (l : Line α) : Prop := (∃ u ∈ l, u.Whole) ∨ ∃ t < ticksPerPeriod, t ∉ ticks l

theorem Tidy.emptied (hv : l.Valid beta) (ht : Tidy l) : ReflTransGen (Edited beta) l [] := by
  induction l with
  | nil => exact .refl
  | cons u l ih =>
    have hedit : Draw.Edits beta (u::l) (.remove 0) (.remove 0) l := .remove rfl ht
    exact .head ⟨hv, _, _, hedit⟩
      (ih (hv.sublist (List.sublist_cons_self u l)) (ht.sublist (List.sublist_cons_self u l)))

theorem Valid.emptied (hv : l.Valid beta) : ReflTransGen (Edited beta) l [] := by
  rcases hv.shape with ⟨u, rfl, hw⟩ | ht
  · have hu : [u][0]? = some u := rfl
    have hcard : u.ticks.card = ticksPerPeriod := by
      rw [Segment.ticks_whole hw, Finset.card_range]
    have hd : Splits u 0 1 := ⟨Nat.zero_ne_one, fun h => absurd hw h⟩
    have h₁ : Window.Admits ⟨u.annihilation, ⟨u.ticks.card, beta⟩⟩ ⟨0, beta⟩ :=
      ⟨hcard ▸ ticksPerPeriod_pos, rfl⟩
    have h₂ : Window.Admits ⟨u.annihilation, ⟨u.ticks.card, beta⟩⟩ ⟨1, beta⟩ :=
      ⟨hcard ▸ (by decide : 1 < ticksPerPeriod), rfl⟩
    obtain ⟨⟨c, a⟩, hac⟩ : ∃ v, Window.spanned ⟨u.annihilation, ⟨u.ticks.card, beta⟩⟩ (¬u.Whole)
        0 1 = v := ⟨_, rfl⟩
    obtain ⟨hhole, ha, hc⟩ := (hv.onCycle u (List.mem_singleton_self u)).hole_spanned h₁.1 h₂.1
      hd.1 hd.2 hac
    exact .head ⟨hv, _, _, .split hu h₁ h₂ hd hac⟩
      ((hv.tidy_holed hu hhole).emptied (hv.holed hu ha hc hhole))
  · exact ht.emptied hv

/-- If every segment touched the next one, there would be no free tick. -/
theorem Tidy.exists_not_touches (ht : Tidy l) {t : ℕ} (hlt : t < ticksPerPeriod)
    (hfree : t ∉ ticks l) {i : ℕ} {p : Segment α} (hp : l[i]? = some p) :
    ∃ j u, l[j]? = some u ∧ ¬l.Touches j := by
  obtain ⟨j, u, v, hu, hv, hgap⟩ := ht.exists_gap hlt hfree hp
  refine ⟨j, u, hu, ?_⟩
  rintro ⟨u', v', hu', hv', he⟩
  cases hu.symm.trans hu'
  cases hv.symm.trans hv'
  rw [between, Segment.mem_mk, he, Time.gap_self] at hgap
  exact Nat.not_lt_zero _ hgap.2

theorem Tidy.assembled (hv : l.Valid beta) (ht : Tidy l) {t : ℕ} (hlt : t < ticksPerPeriod)
    (hfree : t ∉ ticks l) : ReflTransGen (Edited beta) [] l := by
  induction hn : l.length generalizing l with
  | zero =>
    rw [List.eq_nil_of_length_eq_zero hn]
  | succ n ih =>
    have hfirst : l[0]? = some l[0] := List.getElem?_eq_getElem (by omega)
    obtain ⟨i, u, hu, hnot⟩ := ht.exists_not_touches hlt hfree hfirst
    obtain ⟨index, d₁, d₂, hedit⟩ := hv.refill ht hu hnot
    have hvalid := hv.sublist (List.eraseIdx_sublist l i)
    have hless : t ∉ ticks (l.eraseIdx i) := fun hmem => by
      obtain ⟨v, hvl, hvt⟩ := mem_ticks.mp hmem
      exact hfree (mem_ticks.mpr ⟨v, List.eraseIdx_subset hvl, hvt⟩)
    have hlength : (l.eraseIdx i).length = n := by
      rw [List.length_eraseIdx_of_lt (List.getElem?_eq_some_iff.mp hu).1, hn, Nat.add_sub_cancel]
    exact (ih hvalid (ht.eraseIdx i) hless hlength).tail ⟨hvalid, _, _, hedit⟩

theorem whole_assembled (beta : α) : ReflTransGen (Edited beta) [] [whole beta] := by
  have hone : 1 < ticksPerPeriod := by decide
  obtain ⟨u, hu⟩ : ∃ u : Segment α, u = ⟨⟨1, beta⟩, ⟨0, beta⟩⟩ := ⟨_, rfl⟩
  have hregular : u.Regular := hu ▸ ⟨hone, ticksPerPeriod_pos⟩
  have hpositive : u.annihilation.ticks ≠ u.creation.ticks := hu ▸ Nat.one_ne_zero
  have ht := singleton_tidy hregular hpositive
  have hv : Valid beta [u] := singleton_valid
    (hu ▸ ⟨rfl, rfl, .inl ⟨hone, ticksPerPeriod_pos⟩⟩) hpositive
  have hfree : 1 ∉ ticks [u] := by
    rw [ticks_singleton, Segment.mem_ticks (.inl hregular), hu]
    dsimp only
    omega
  have hedit : Draw.Edits beta [u] (.regroup 0) (.regroup 0) (closed beta [u] 0 u u) :=
    .regroup rfl rfl ht
  exact (ht.assembled hv hone hfree).tail ⟨hv, _, _, hedit⟩

theorem Valid.assembled (hv : l.Valid beta) (hroom : l.Roomy) :
    ReflTransGen (Edited beta) [] l := by
  rcases hv.shape with ⟨u, rfl, hw⟩ | ht
  · rw [eq_whole (hv.onCycle u (List.mem_singleton_self u)) hw]
    exact whole_assembled beta
  · rcases hroom with ⟨u, hu, hw⟩ | ⟨t, hlt, hfree⟩
    · exact absurd hw (ht.not_whole hu)
    · exact ht.assembled hv hlt hfree

end ImpuritySampler.Line
