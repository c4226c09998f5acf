import ImpuritySampler.Proofs.MeshFunction
import ImpuritySampler.Proofs.Results.Entry

/-!
# Merging two results

Results of one form can be merged. Their counts are added, their histograms are as long as the
longer ones, and every entry is the weighted mean of the two: by the sums of the signs where runs
were divided by that sum, by the numbers of measurements elsewhere.
-/

set_option autoImplicit false

namespace ImpuritySampler.Results

inductive Related {β : Type} (P : β → β → β → Prop) : Option β → Option β → Option β → Prop
  | missing : Related P none none none
  | present {a b c : β} (h : P a b c) : Related P (some a) (some b) (some c)

section Related

variable {α β γ : Type} {P : β → β → β → Prop} {x y z : Option β}

theorem both_related {combine : β → β → Outcome α β} {shape : β → γ}
    (h : x.map shape = y.map shape)
    (hc : ∀ a b, shape a = shape b → ∃ c, combine a b = .ok c ∧ P a b c) :
    ∃ z, both combine x y = .ok z ∧ Related P x y z := by
  cases x with
  | none =>
    cases y with
    | none => exact ⟨none, rfl, .missing⟩
    | some b => cases h
  | some a =>
    cases y with
    | none => cases h
    | some b =>
      obtain ⟨c, hcombine, hp⟩ := hc a b (Option.some.inj h)
      exact ⟨some c, by rw [both, hcombine]; rfl, .present hp⟩

theorem both_map_related (combine : β → β → β) (h : x.isSome = y.isSome) :
    ∃ z, (both (fun a b => .ok (combine a b)) x y : Outcome α (Option β)) = .ok z ∧
      Related (fun a b c => c = combine a b) x y z :=
  both_related (map_unit_eq h) fun a b _ => ⟨combine a b, rfl, rfl⟩

theorem Related.map {f : β → γ} (h : Related P x y z) (hf : ∀ a b c, P a b c → f c = f a) :
    z.map f = x.map f := by
  cases h with
  | missing => rfl
  | present hp => exact congrArg some (hf _ _ _ hp)

theorem Related.isSome (h : Related P x y z) : z.isSome = x.isSome := by
  cases h with
  | missing => rfl
  | present => rfl

theorem Related.elim {combine : γ → γ → γ} {d : γ} {f : β → γ} (h : Related P x y z)
    (hd : combine d d = d) (hf : ∀ a b c, P a b c → f c = combine (f a) (f b)) :
    z.elim d f = combine (x.elim d f) (y.elim d f) := by
  cases h with
  | missing => exact hd.symm
  | present hp => exact hf _ _ _ hp

end Related

variable {α : Type} [ExactScalar α] {a b c r : Results α}

theorem mean_zero (wa wb : α) : mean wa wb 0 0 = 0 := by
  rw [mean, mul_zero, mul_zero, add_zero, zero_div]

section Observables

variable (wa wb : α)

theorem mergeDensities_eq {l m : List α} (h : l.length = m.length) :
    ∃ n, mergeDensities wa wb l m = .ok n ∧ n.length = l.length ∧
      ∀ k, n.getD k 0 = mean wa wb (l.getD k 0) (m.getD k 0) := by
  refine ⟨_, Outcome.bind_eq_ok.mpr ⟨(), Outcome.require_true h, rfl⟩, ?_, fun k => ?_⟩
  · rw [List.length_zipWith, ← h, min_self]
  · rw [← getD_zipWith (f := mean wa wb) h, mean_zero]

theorem mergeMeshes_eq {g h : Grid α} (hshape : g.shape = h.shape) :
    ∃ f, mergeMeshes wa wb g h = .ok f ∧ f.shape = g.shape ∧
      ∀ i j, f.entry i j = mean wa wb (g.entry i j) (h.entry i j) :=
  ⟨_, Outcome.bind_eq_ok.mpr ⟨(), Outcome.require_true (Prod.ext_iff.mp hshape), rfl⟩, rfl,
    Grid.entry_zipWith hshape (mean_zero wa wb)⟩

theorem length_mergeHistograms (l m : List α) :
    (mergeHistograms wa wb l m).length = max l.length m.length := by
  rw [mergeHistograms, List.length_map, List.length_range]

theorem getD_mergeHistograms (l m : List α) (k : ℕ) :
    (mergeHistograms wa wb l m).getD k 0 = mean wa wb (l.getD k 0) (m.getD k 0) :=
  getD_map_range (fun k hk => by
    rw [List.getD_eq_default _ _ (le_of_max_le_left hk),
      List.getD_eq_default _ _ (le_of_max_le_right hk), mean_zero]) k

theorem mergeOrders_eq {l m : List (List α)} (h : l.length = m.length) :
    ∃ n, mergeOrders wa wb l m = .ok n ∧ n.length = l.length ∧ ∀ c,
      (n.getD c []).length = max (l.getD c []).length (m.getD c []).length ∧ ∀ k,
        (n.getD c []).getD k 0 = mean wa wb ((l.getD c []).getD k 0) ((m.getD c []).getD k 0) := by
  refine ⟨_, Outcome.bind_eq_ok.mpr ⟨(), Outcome.require_true h, rfl⟩, ?_, fun c => ?_⟩
  · rw [List.length_zipWith, ← h, min_self]
  · have hget : (List.zipWith (mergeHistograms wa wb) l m).getD c [] =
        mergeHistograms wa wb (l.getD c []) (m.getD c []) := by
      rw [← getD_zipWith (f := mergeHistograms wa wb) h]
      rfl
    rw [hget]
    exact ⟨length_mergeHistograms wa wb _ _, getD_mergeHistograms wa wb _ _⟩

end Observables

def weight (r : Results α) : Entry → α
  | .density _ | .green _ _ | .improved _ _ => r.signSum
  | .averageSign | .totalOrder _ | .order _ _ => r.measurements

/-- The results `r` are those of the runs of `a` and `b` together. -/
structure Joins (r a b : Results α) : Prop where
  form : r.form = a.form
  measurements : r.measurements = a.measurements + b.measurements
  signSum : r.signSum = a.signSum + b.signSum
  extent : ∀ h, r.extent h = max (a.extent h) (b.extent h)
  entry : ∀ e, r.entry e = mean (a.weight e) (b.weight e) (a.entry e) (b.entry e)

theorem Joins.weight (h : r.Joins a b) (e : Entry) : r.weight e = a.weight e + b.weight e := by
  cases e with
  | density | green | improved => exact h.signSum
  | averageSign | totalOrder | order =>
    show (r.measurements : α) = _
    rw [h.measurements, Nat.cast_add]
    rfl

theorem Joins.unique (h : r.Joins a b) (h' : c.Joins a b) : r = c :=
  eq_of_entries (h.form.trans h'.form.symm) (h.measurements.trans h'.measurements.symm)
    (h.signSum.trans h'.signSum.symm) (fun k => (h.extent k).trans (h'.extent k).symm)
    fun e => (h.entry e).trans (h'.entry e).symm

theorem near_self {beta : α} (h : 0 ≤ beta) : Scalar.Near beta beta := by
  rw [Scalar.Near, sub_self, Scalar.abs, if_neg (lt_irrefl 0), Scalar.tolerance_eq]
  positivity

/-- Nothing but the number of all measurements keeps results of one form from being merged, unless
the period is negative. -/
theorem merge_eq (hform : a.form = b.form) (hbeta : 0 ≤ a.beta) :
    ∃ r, r.Joins a b ∧
      a.merge b = (do let _ ← Outcome.word (a.measurements + b.measurements); pure r) := by
  obtain ⟨hperiod, hsign, hdensities, hgreen, himproved, htotal, horders⟩ := Form.mk.inj hform
  have hnear : Scalar.abs (a.beta - b.beta) ≤ Scalar.tolerance * a.beta := by
    rw [← hperiod]
    exact near_self hbeta
  obtain ⟨sign, hsign, hrsign⟩ := both_map_related (α := α)
    (mean (a.measurements : α) (b.measurements : α)) hsign
  obtain ⟨densities, hdensities, hrdensities⟩ := both_related hdensities fun _ _ =>
    mergeDensities_eq a.signSum b.signSum
  obtain ⟨green, hgreen, hrgreen⟩ := both_related hgreen fun _ _ =>
    mergeMeshes_eq a.signSum b.signSum
  obtain ⟨improved, himproved, hrimproved⟩ := both_related himproved fun _ _ =>
    mergeMeshes_eq a.signSum b.signSum
  obtain ⟨total, htotal, hrtotal⟩ := both_map_related (α := α)
    (mergeHistograms (a.measurements : α) (b.measurements : α)) htotal
  obtain ⟨orders, horders, hrorders⟩ := both_related horders fun _ _ =>
    mergeOrders_eq (a.measurements : α) (b.measurements : α)
  refine ⟨⟨a.beta, a.measurements + b.measurements, a.signSum + b.signSum, sign, densities, green,
    improved, total, orders⟩, ⟨?_, rfl, rfl, ?_, ?_⟩, ?_⟩
  · rw [form, form, hrsign.isSome, hrtotal.isSome, hrdensities.map fun _ _ _ h => h.1,
      hrgreen.map fun _ _ _ h => h.1, hrimproved.map fun _ _ _ h => h.1,
      hrorders.map fun _ _ _ h => h.1]
  · rintro (_ | k)
    · exact hrtotal.elim (max_self 0) fun l m _ h => h ▸ length_mergeHistograms _ _ l m
    · exact hrorders.elim (max_self 0) fun _ _ _ h => (h.2 k).1
  · rintro (_ | k | ⟨k, i⟩ | ⟨k, i⟩ | i | ⟨k, i⟩)
    · exact hrsign.elim (mean_zero _ _) fun _ _ _ h => h
    · exact hrdensities.elim (mean_zero _ _) fun _ _ _ h => h.2 k
    · exact hrgreen.elim (mean_zero _ _) fun _ _ _ h => h.2 k i
    · exact hrimproved.elim (mean_zero _ _) fun _ _ _ h => h.2 k i
    · exact hrtotal.elim (mean_zero _ _) fun l m _ h => h ▸ getD_mergeHistograms _ _ l m i
    · exact hrorders.elim (mean_zero _ _) fun _ _ _ h => (h.2 k).2 i
  · simp only [merge, Outcome.require_true hnear, hsign, hdensities, hgreen, himproved, htotal,
      horders, Outcome.ok_bind, Outcome.pure_eq]
    rw [Outcome.word]
    split_ifs <;> rfl

theorem merge_joins (hform : a.form = b.form) (hbeta : 0 ≤ a.beta)
    (hcount : a.measurements + b.measurements < wordLimit) :
    ∃ r, a.merge b = .ok r ∧ r.Joins a b := by
  obtain ⟨r, hr, hmerge⟩ := merge_eq hform hbeta
  rw [Outcome.word_eq_ok.mpr ⟨hcount, rfl⟩] at hmerge
  exact ⟨r, hmerge, hr⟩

end ImpuritySampler.Results
