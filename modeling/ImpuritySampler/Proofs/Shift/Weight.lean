import ImpuritySampler.Proofs.Move.Undo
import ImpuritySampler.Proofs.Shift.Determinant
import ImpuritySampler.Proofs.Shift.Ratio

/-!
# The signed weight under another origin

The sign of the trace and the determinants change with the origin of time, each by the
transpositions that the operators cost which pass the end of the axis. Their product does not
change, and neither do the ratios of the local weights: nothing that is sampled depends on the
origin of time.
-/

set_option autoImplicit false

namespace ImpuritySampler

open Outcome Time

variable {α : Type} [ExactScalar α] {beta : α} {d : ℕ} {l : Line α} {D : LineDeterminant α}

def Determinant.keyDeterminant (D : LineDeterminant α) : Outcome α α := do
  let g ← D.matrix
  pure (g.toMatrix D.size).det

theorem Determinant.HasMatrix.keyDeterminant {n : ℕ} {A : Matrix (Fin n) (Fin n) α}
    (h : D.HasMatrix A) : D.keyDeterminant = .ok A.det := by
  obtain rfl : D.size = n := (hasMatrix_iff.mp h).1
  obtain ⟨g, hg, -, rfl⟩ := h
  rw [Determinant.keyDeterminant, hg]
  rfl

def Hybridization.HasValues (beta : α) (h : Hybridization α) : Prop :=
  ∀ k < ticksPerPeriod, ∃ v, h.value (scale k beta) 0 0 = .ok v

section Color

omit [ExactScalar α] in
theorem Line.map_shift {f : Segment α → ℕ} (hf : ∀ s : Segment α, ¬s.Whole →
      f (s.shift d) = ahead (f s) d) (l : Line α) :
    (l.bounded.map f).map (ahead · d) = (l.bounded.map (Segment.shift d)).map f := by
  rw [List.map_map, List.map_map]
  refine List.map_congr_left fun s hs => ?_
  have hw : ¬s.Whole := by simpa using (List.mem_filter.mp hs).2
  exact (hf s hw).symm

omit [ExactScalar α] in
theorem Line.HeldBy.shift (h : l.HeldBy beta D) (d : ℕ) :
    (l.shift d).HeldBy beta (D.shift d) := by
  have hcre := l.map_shift (d := d) (f := (·.creation.ticks)) fun s hw => by
    rw [Segment.shift_ends hw]
    rfl
  have hann := l.map_shift (d := d) (f := (·.annihilation.ticks)) fun s hw => by
    rw [Segment.shift_ends hw]
    rfl
  have hperm := bounded_shift d l
  refine ⟨h.idle, (h.rows.shift d).of_perm ?_, (h.cols.shift d).of_perm ?_⟩
  · rw [hcre]
    exact (hperm.map _).symm
  · rw [hann]
    exact (hperm.map _).symm

/-- The signs of the line and of its determinant change together. -/
theorem Line.HeldBy.weight_shift {h : Hybridization α} (hl : l.HeldBy beta D) (hv : l.Valid beta)
    (helement : D.element = h.element) (hvalues : h.HasValues beta) (d : ℕ) :
    ∃ v v', D.keyDeterminant = .ok v ∧ (D.shift d).keyDeterminant = .ok v' ∧
      (l.shift d).traceSign.toScalar * v' = l.traceSign.toScalar * v := by
  obtain ⟨delta, hdelta⟩ := Hybridization.antiperiodic hvalues
  obtain ⟨A, A', hA, hA', hdet⟩ := Determinant.shift_det (d := d) (helement ▸ hdelta) hl.rows
    hl.cols (List.length_map _) (List.length_map _)
  refine ⟨_, _, hA.keyDeterminant, hA'.keyDeterminant, ?_⟩
  rw [hdet, hv.traceSign_shift, mul_mul_mul_comm, ← mul_pow, neg_one_mul, neg_neg, one_pow, one_mul]

end Color

theorem Configuration.toScalar_traceSign (c : Configuration α) :
    (c.traceSign.toScalar : α) = (c.lines.map fun l => l.traceSign.toScalar).prod := by
  have hfold : ∀ (lines : List (Line α)) (sign : Sign),
      ((lines.foldl (fun sign l => sign * l.traceSign) sign).toScalar : α) =
        sign.toScalar * (lines.map fun l => l.traceSign.toScalar).prod := by
    intro lines
    induction lines with
    | nil => exact fun sign => (mul_one _).symm
    | cons l lines ih =>
      intro sign
      rw [List.foldl_cons, ih, Sign.toScalar_mul, List.map_cons, List.prod_cons, mul_assoc]
  exact (hfold c.lines .plus).trans (one_mul _)

namespace State

def shift (d : ℕ) (s : State α) : State α :=
  ⟨s.config.shift d, s.determinants.map (Determinant.shift d)⟩

def signedWeight (s : State α) : Outcome α α := do
  let values ← s.determinants.mapM Determinant.keyDeterminant
  pure (s.config.traceSign.apply values.prod)

variable {s : State α}

omit [ExactScalar α] in
theorem Matched.shift (h : s.Matched beta) (d : ℕ) : (s.shift d).Matched beta := by
  have hcolors : (s.shift d).config.colors = s.config.colors :=
    Configuration.colors_shift d s.config
  refine ⟨fun l' hl' => ?_, ?_, fun k D' hk => ?_⟩
  · obtain ⟨l, hl, rfl⟩ := List.mem_map.mp hl'
    exact (h.valid l hl).shift d
  · rw [hcolors, ← h.count]
    exact List.length_map _
  · obtain ⟨D, hD, rfl⟩ := Option.map_eq_some_iff.mp (List.getElem?_map.symm.trans hk)
    rw [State.shift, Configuration.lineAt_shift]
    exact (h.held k D hD).shift d

omit [ExactScalar α] in
theorem Matched.forall₂ (h : s.Matched beta) :
    List.Forall₂ (fun l D => l.Valid beta ∧ l.HeldBy beta D) s.config.lines s.determinants := by
  refine List.forall₂_iff_get.mpr ⟨h.count.symm, fun k hk hk' => ?_⟩
  have hline : s.config.lines[k]? = some (s.config.lineAt k) := Configuration.getElem?_lines hk
  have hget : s.config.lines.get ⟨k, hk⟩ = s.config.lineAt k :=
    Option.some.inj ((List.getElem?_eq_getElem hk).symm.trans hline)
  rw [hget]
  exact ⟨h.valid.lineAt hk, h.held k _ (List.getElem?_eq_getElem hk')⟩

theorem weight_product {lines : List (Line α)} {determinants : List (LineDeterminant α)}
    (h : List.Forall₂ (fun l D => l.Valid beta ∧ l.HeldBy beta D) lines determinants)
    (hh : ∀ D ∈ determinants, ∃ h : Hybridization α, D.element = h.element ∧ h.HasValues beta)
    (d : ℕ) : ∃ vs vs', determinants.mapM Determinant.keyDeterminant = .ok vs ∧
      (determinants.map (Determinant.shift d)).mapM Determinant.keyDeterminant = .ok vs' ∧
      ((lines.map (Line.shift d)).map fun l => l.traceSign.toScalar).prod * vs'.prod =
        (lines.map fun l => (l.traceSign.toScalar : α)).prod * vs.prod := by
  induction h with
  | nil => exact ⟨[], [], rfl, rfl, rfl⟩
  | @cons l D lines determinants hl _ ih =>
    obtain ⟨vs, vs', hvs, hvs', hprod⟩ := ih fun D hD => hh D (List.mem_cons_of_mem _ hD)
    obtain ⟨h, helement, hvalues⟩ := hh D List.mem_cons_self
    obtain ⟨v, v', hv, hv', hcolor⟩ := hl.2.weight_shift hl.1 helement hvalues d
    refine ⟨v :: vs, v' :: vs', ?_, ?_, ?_⟩
    · rw [List.mapM_cons, hv, ok_bind, hvs]
      rfl
    · rw [List.map_cons, List.mapM_cons, hv', ok_bind, hvs']
      rfl
    · simp only [List.map_cons, List.prod_cons]
      rw [mul_mul_mul_comm, hcolor, hprod, mul_mul_mul_comm]

theorem Matched.signedWeight_shift (h : s.Matched beta)
    (hh : ∀ D ∈ s.determinants, ∃ h : Hybridization α, D.element = h.element ∧ h.HasValues beta)
    (d : ℕ) : ∃ w, s.signedWeight = .ok w ∧ (s.shift d).signedWeight = .ok w := by
  obtain ⟨vs, vs', hvs, hvs', hprod⟩ := weight_product h.forall₂ hh d
  refine ⟨s.config.traceSign.apply vs.prod, ?_, ?_⟩
  · rw [signedWeight, hvs]
    rfl
  · rw [signedWeight, State.shift, hvs', ok_bind, Outcome.pure_eq, Sign.apply_eq_mul,
      Sign.apply_eq_mul, Configuration.toScalar_traceSign, Configuration.toScalar_traceSign]
    exact congrArg Except.ok hprod

end State

/-- On one color, each proposal has the same trace ratio as the proposal `d` ticks later. No
proposal puts in or takes out the whole cycle, which has no ends that could be later: with a
retarded interaction, whose sums are taken at the ends, nothing is said of it. -/
structure SameRatios (beta : α) (d : ℕ) (c c' : Configuration α) (m : Model α) (color : ℕ) :
    Prop where
  insert : ∀ s : Segment α, s.OnCycle beta → (s.Whole → m.retarded = none) →
    Agree (LocalRatio.insert c' m color (s.shift d)) (LocalRatio.insert c m color s)
  remove : ∀ i s, (c.lineAt color)[i]? = some s → (s.Whole → m.retarded = none) →
    ∃ j, (c'.lineAt color)[j]? = some (s.shift d) ∧
      Agree (LocalRatio.remove c' m color j) (LocalRatio.remove c m color i)
  split : ∀ a t : Time α, a.IsPoint beta → t.IsPoint beta →
    Agree (LocalRatio.split c' m color (a.shift d) (t.shift d)) (LocalRatio.split c m color a t)
  regroup : ∀ i s, (c.lineAt color)[i]? = some s → ¬s.Whole →
    ∃ j, (c'.lineAt color)[j]? = some (s.shift d) ∧
      Agree (LocalRatio.regroup c' m color j) (LocalRatio.regroup c m color i)

theorem Configuration.Valid.sameRatios {c : Configuration α} (hb : 0 < beta) (hbeta : c.beta = beta)
    (hv : c.Valid beta) (m : Model α) {color : ℕ} (hc : color < c.colors) (d : ℕ) :
    SameRatios beta d c (c.shift d) m color := by
  have hshifted := Configuration.shifted d c
  have hplace : ∀ (i : ℕ) (s : Segment α), (c.lineAt color)[i]? = some s →
      ∃ j : ℕ, ((c.shift d).lineAt color)[j]? = some (s.shift d) := fun i s hs =>
    List.mem_iff_getElem?.mp ((hshifted.lines color).mem_iff.mpr
      (List.mem_map_of_mem (List.mem_of_getElem? hs)))
  refine ⟨fun s hs hw => ?_, fun i s hs hw => ?_, fun a t ha ht => ?_, fun i s hs hw => ?_⟩
  · exact LocalRatio.insert_shift hb hv.onCycle hshifted hs hw
  · obtain ⟨j, hj⟩ := hplace i s hs
    exact ⟨j, hj, LocalRatio.remove_shift hb hv.onCycle hshifted hc hs hj hw⟩
  · exact LocalRatio.split_shift hb hv.onCycle hshifted ha ht
  · obtain ⟨j, hj⟩ := hplace i s hs
    have ht := (hv.lineAt hc).tidy (List.mem_of_getElem? hs) hw
    have ht' : ((c.shift d).lineAt color).Tidy := by
      rw [Configuration.lineAt_shift]
      exact ht.shift d
    exact ⟨j, hj, LocalRatio.regroup_shift hb hbeta hbeta hv hshifted hc ht ht' hs hj⟩

/-- Another origin of time leaves a consistent state consistent. The signed weight exists and is the
same, and so is, for every model, the trace ratio of every proposal. -/
theorem State.shift_invariant {s : State α} (hb : 0 < beta) (hbeta : s.config.beta = beta)
    (hs : s.Consistent beta)
    (hh : ∀ D ∈ s.determinants, ∃ h : Hybridization α, D.element = h.element ∧ h.HasValues beta)
    (d : ℕ) :
    (s.shift d).Consistent beta ∧
    (∃ w, s.signedWeight = .ok w ∧ (s.shift d).signedWeight = .ok w) ∧
    ∀ (m : Model α) (color : ℕ), color < s.config.colors →
      SameRatios beta d s.config (s.shift d).config m color := by
  have hmatched := (consistent_iff hb).mp hs
  exact ⟨(consistent_iff hb).mpr (hmatched.shift d), hmatched.signedWeight_shift hh d,
    fun m color hc => hmatched.valid.sameRatios hb hbeta m hc d⟩

noncomputable def straight : State ℝ where
  config := ⟨1, [[⟨⟨10, 1⟩, ⟨5, 1⟩⟩]]⟩
  determinants := [{ Determinant.empty Hybridization.level.element with
    rowKeys := [⟨⟨5, 1⟩, 0⟩], colKeys := [⟨⟨10, 1⟩, 0⟩] }]

theorem straight_consistent : straight.Consistent 1 := by
  have ha : (⟨10, 1⟩ : Time ℝ).IsPoint 1 := ⟨rfl, by decide⟩
  have hc : (⟨5, 1⟩ : Time ℝ).IsPoint 1 := ⟨rfl, by decide⟩
  have ht : Line.Tidy [(⟨⟨10, 1⟩, ⟨5, 1⟩⟩ : Segment ℝ)] :=
    Line.singleton_tidy ⟨ha.lt, hc.lt⟩ (by decide)
  refine (State.consistent_iff one_pos).mpr ⟨fun l hl => ?_, rfl, fun k D hD => ?_⟩
  · rw [List.mem_singleton.mp hl]
    exact Line.singleton_valid (Segment.onCycle_of_points ha hc) (by decide)
  · obtain rfl : k = 0 := by simpa [straight] using (List.getElem?_eq_some_iff.mp hD).1
    cases hD
    have hbounded : (straight.config.lineAt 0).bounded = [⟨⟨10, 1⟩, ⟨5, 1⟩⟩] := ht.bounded
    refine ⟨rfl, ⟨List.pairwise_singleton _ _, ?_, ?_⟩, ⟨List.pairwise_singleton _ _, ?_, ?_⟩⟩
    · rw [hbounded]
      rfl
    · simpa using hc
    · rw [hbounded]
      rfl
    · simpa using ha

theorem Hybridization.level_hasValues : level.HasValues 1 := fun _ hk =>
  (Readable.bath 1 [⟨0, [1]⟩] (by simp)).value hk

theorem State.shift_invariant_straight :
    straight.Consistent 1 ∧
    (∀ D ∈ straight.determinants, ∃ h : Hybridization ℝ,
      D.element = h.element ∧ h.HasValues 1) ∧
    (straight.shift (ticksPerPeriod - 8)).config.lineAt 0 =
      [⟨⟨2, 1⟩, ⟨ticksPerPeriod - 3, 1⟩⟩] ∧
    (straight.shift (ticksPerPeriod - 8)).Consistent 1 ∧
    (∃ w, straight.signedWeight = .ok w ∧
      (straight.shift (ticksPerPeriod - 8)).signedWeight = .ok w) ∧
    ∀ (m : Model ℝ) (color : ℕ), color < straight.config.colors →
      SameRatios 1 (ticksPerPeriod - 8) straight.config
        (straight.shift (ticksPerPeriod - 8)).config m color := by
  have hh : ∀ D ∈ straight.determinants, ∃ h : Hybridization ℝ,
      D.element = h.element ∧ h.HasValues 1 := by
    intro D hD
    rw [List.mem_singleton.mp hD]
    exact ⟨.level, rfl, Hybridization.level_hasValues⟩
  have hline : (straight.shift (ticksPerPeriod - 8)).config.lineAt 0 =
      [⟨⟨2, 1⟩, ⟨ticksPerPeriod - 3, 1⟩⟩] := by
    have hann : ahead 10 (ticksPerPeriod - 8) = 2 := by decide
    have hcre : ahead 5 (ticksPerPeriod - 8) = ticksPerPeriod - 3 := by decide
    rw [State.shift, Configuration.lineAt_shift, ← hann, ← hcre]
    exact (Line.shift_singleton _ _).trans
      (congrArg (fun s => [s]) (Segment.shift_ends (by decide) _))
  exact ⟨straight_consistent, hh, hline,
    shift_invariant one_pos rfl straight_consistent hh (ticksPerPeriod - 8)⟩

end ImpuritySampler
