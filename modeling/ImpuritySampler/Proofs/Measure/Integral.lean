import ImpuritySampler.Proofs.Measure.Bins
import ImpuritySampler.Proofs.Measure.Replica

/-!
# The integral over the mesh

A distance falls into the bin of the closest mesh point. The bins at the two ends are half as wide
as the others, and are doubled when the bins are collected: that is what the trapezoidal rule takes
off again, so that the integral over the mesh is the sum over all pairs, however few points there
are.
-/

set_option autoImplicit false

namespace ImpuritySampler

open Outcome

variable {α : Type} [ExactScalar α]

theorem Scalar.abs_sub_round_le {a : α} (ha : 0 ≤ a) : |a - (Scalar.round a : ℕ)| ≤ 1 / 2 := by
  change |a - (⌊a + 1 / 2⌋₊ : ℕ)| ≤ 1 / 2
  have hlow : (⌊a + 1 / 2⌋₊ : α) ≤ a + 1 / 2 := Nat.floor_le (by positivity)
  have hhigh : a + 1 / 2 < (⌊a + 1 / 2⌋₊ : α) + 1 := Nat.lt_floor_add_one _
  rw [abs_le]
  constructor <;> linarith

theorem Scalar.round_le {a : α} {n : ℕ} (ha : 0 ≤ a) (hn : a < n) : Scalar.round a ≤ n := by
  change ⌊a + 1 / 2⌋₊ ≤ n
  have hfloor : ⌊a + 1 / 2⌋₊ < n + 1 := by
    rw [Nat.floor_lt (by positivity)]
    push_cast
    linarith
  exact Nat.lt_succ_iff.mp hfloor

/-- The integral of a row over the mesh. -/
def Grid.trapezoid (f : Grid α) (spacing : α) (row : ℕ) : α :=
  ∑ k ∈ Finset.range (f.cols - 1),
    (f.entry row k + f.entry row (k + 1)) / ((2 : ℕ) : α) * spacing

/-- The trapezoidal rule takes half of what is doubled at the ends. -/
theorem trapezoid_doubled {n : ℕ} (hn : 2 ≤ n) (f : ℕ → α) {w : ℕ → α}
    (hw : ∀ k, w k = if k = 0 ∨ k + 1 = n then 2 else 1) :
    ∑ k ∈ Finset.range (n - 1), (w k * f k + w (k + 1) * f (k + 1)) / 2 =
      ∑ k ∈ Finset.range n, f k := by
  obtain ⟨l, rfl⟩ := Nat.exists_eq_add_of_le' hn
  have hends : w 0 = 2 ∧ w (l + 1) = 2 := ⟨by simp [hw], by simp [hw]⟩
  have hinner : ∀ k ∈ Finset.range l, w (k + 1) * f (k + 1) = f (k + 1) := by
    intro k hk
    have hne : ¬(k + 1 = 0 ∨ k + 1 + 1 = l + 2) := by
      rw [Finset.mem_range] at hk
      omega
    rw [hw, if_neg hne, one_mul]
  -- all but the two ends are counted once as a left and once as a right neighbour
  have hleft : ∑ k ∈ Finset.range (l + 1), w k * f k =
      ∑ k ∈ Finset.range l, f (k + 1) + 2 * f 0 := by
    rw [Finset.sum_range_succ', Finset.sum_congr rfl hinner, hends.1]
  have hright : ∑ k ∈ Finset.range (l + 1), w (k + 1) * f (k + 1) =
      ∑ k ∈ Finset.range l, f (k + 1) + 2 * f (l + 1) := by
    rw [Finset.sum_range_succ, Finset.sum_congr rfl hinner, hends.2]
  have hwhole : ∑ k ∈ Finset.range (l + 2), f k =
      ∑ k ∈ Finset.range l, f (k + 1) + f 0 + f (l + 1) := by
    rw [Finset.sum_range_succ, Finset.sum_range_succ']
  rw [← Finset.sum_div, Finset.sum_add_distrib]
  change (∑ k ∈ Finset.range (l + 1), w k * f k +
    ∑ k ∈ Finset.range (l + 1), w (k + 1) * f (k + 1)) / 2 = _
  rw [hleft, hright, hwhole]
  ring

namespace Green

section Mesh

variable {g : Green α} {colors points : ℕ} {beta d : α} {improved : Bool}
variable (hg : g.Alike (.empty colors beta points improved)) (hpoints : 2 ≤ points)

include hg

theorem Alike.cols_of_empty : g.bins.cols = points := (Prod.ext_iff.mp hg.bins).2

include hpoints

theorem Alike.steps : (points - 1 : ℕ) * g.spacing = beta := by
  have hsteps : ((points - 1 : ℕ) : α) ≠ 0 := Nat.cast_ne_zero.mpr (by omega)
  rw [hg.spacing]
  exact mul_div_cancel₀ _ hsteps

variable (hb : 0 < beta)

include hb

theorem Alike.spacing_pos : 0 < g.spacing := by
  have hsteps : (0 : α) < (points - 1 : ℕ) := Nat.cast_pos.mpr (by omega)
  rw [hg.spacing]
  exact div_pos hb hsteps

variable (hd : 0 ≤ d) (hdb : d < beta)

include hd hdb

theorem Alike.bin_eq : g.bin d = Scalar.round (d / g.spacing) := by
  have hspacing := hg.spacing_pos hpoints hb
  rw [Green.bin, hg.cols_of_empty]
  apply min_eq_left
  apply Scalar.round_le (div_nonneg hd hspacing.le)
  rwa [div_lt_iff₀ hspacing, hg.steps hpoints]

theorem Alike.closest : |d - (g.bin d : ℕ) * g.spacing| ≤ g.spacing / ((2 : ℕ) : α) := by
  have hspacing := hg.spacing_pos hpoints hb
  have hround := Scalar.abs_sub_round_le (div_nonneg hd hspacing.le)
  rw [hg.bin_eq hpoints hb hd hdb]
  calc |d - (Scalar.round (d / g.spacing) : ℕ) * g.spacing|
      = |d / g.spacing - (Scalar.round (d / g.spacing) : ℕ)| * g.spacing := by
        rw [← abs_of_pos hspacing, ← abs_mul, sub_mul, abs_of_pos hspacing,
          div_mul_cancel₀ _ hspacing.ne']
    _ ≤ 1 / 2 * g.spacing := mul_le_mul_of_nonneg_right hround hspacing.le
    _ = g.spacing / ((2 : ℕ) : α) := by
      rw [Nat.cast_ofNat]
      ring

end Mesh

theorem trapezoid_normalized {g : Green α} (hspacing : g.spacing ≠ 0) {f : Grid α}
    (hf : 2 ≤ f.cols) (row : ℕ) : (g.normalized f).trapezoid g.spacing row =
      -1 / (g.beta * g.signSum) * ∑ k ∈ Finset.range f.cols, f.entry row k := by
  have hweight : ∀ k, ((if k = 0 ∨ k + 1 = f.cols then 2 else 1 : ℕ) : α) =
      if k = 0 ∨ k + 1 = f.cols then 2 else 1 := by
    intro k
    split_ifs <;> norm_num
  rw [← trapezoid_doubled hf (f.entry row) hweight, Finset.mul_sum]
  apply Finset.sum_congr rfl
  intro k _
  have hunit : g.spacing / (-g.beta * g.spacing) / g.signSum = -1 / (g.beta * g.signSum) := by
    rw [mul_comm, div_mul_eq_div_div, div_self hspacing]
    ring
  rw [entry_normalized, entry_normalized, gain, gain, ← hunit, Nat.cast_ofNat]
  ring

section Collected

variable {g : Green α} {m : Model α} {colors points color : ℕ} {beta : α} {improved : Bool}
variable {xs : List (State α × α)} {v : Deposit α → α}

def filled (g : Green α) (m : Model α) (colors points : ℕ) (xs : List (State α × α))
    (v : Deposit α → α) : Grid α :=
  (Grid.replicate colors points 0).plus (tally (g.deposited m xs) v)

theorem entry_filled (hcolor : color < colors) {k : ℕ} (hk : k < points) :
    (g.filled m colors points xs v).entry color k = overPairs xs color fun x D j i =>
      if g.bin (D.way j i).value = k then v (g.pairDeposit x.1 m x.2 color D j i) else 0 := by
  have hentry : (g.filled m colors points xs v).entry color k =
      (Grid.replicate colors points (0 : α)).entry color k +
        tally (g.deposited m xs) v color k := Grid.entry_ofFn _ hcolor hk
  rw [hentry, Grid.entry_zeros, zero_add, tally_deposited]

variable (hg : g.Alike (.empty colors beta points improved)) (hpoints : 2 ≤ points)

include hg hpoints

theorem bin_lt_points (distance : α) : g.bin distance < points := by
  have hcols := hg.cols_of_empty
  have hlt := bin_lt (g := g) (by omega) distance
  rwa [hcols] at hlt

theorem trapezoid_filled (hb : 0 < beta) (hcolor : color < colors) :
    (g.normalized (g.filled m colors points xs v)).trapezoid g.spacing color =
      -1 / (beta * g.signSum) * overPairs xs color fun x D j i =>
        v (g.pairDeposit x.1 m x.2 color D j i) := by
  have hbeta : g.beta = beta := hg.beta
  have hcols : (g.filled m colors points xs v).cols = points := rfl
  rw [trapezoid_normalized (hg.spacing_pos hpoints hb).ne' (hcols ▸ hpoints), hbeta, hcols,
    ← sum_overPairs fun D j i => bin_lt_points hg hpoints (D.way j i).value]
  congr 1
  apply Finset.sum_congr rfl
  intro k hk
  exact entry_filled hcolor (Finset.mem_range.mp hk)

end Collected

theorem accumulateAll_empty {m : Model α} {colors points : ℕ} {beta : α} {improved : Bool}
    {xs : List (State α × α)} (hpoints : 2 ≤ points)
    (hxs : ∀ x ∈ xs, x.1.Matched beta ∧ x.1.config.colors = colors ∧ x.1.Tabulated ∧
      (Green.empty colors beta points improved).Weighable x.1 m) :
    ∃ g, (Green.empty colors beta points improved).accumulateAll m xs = .ok g ∧
      g.Alike (.empty colors beta points improved) ∧ g.signSum = Results.signs xs ∧
      g.bins = g.filled m colors points xs Deposit.value ∧
      g.improved = if improved then some (g.filled m colors points xs Deposit.improved)
        else none := by
  have hsized : ∀ x ∈ xs,
      (Green.empty colors beta points improved).Sized x.1.determinants.length := by
    intro x hx
    obtain ⟨hmatched, rfl, -⟩ := hxs x hx
    rw [hmatched.count]
    exact (Measure.Fresh.green hpoints improved).sized
  have hall := accumulateAll_eq hsized fun x hx => ⟨(hxs x hx).1, (hxs x hx).2.2⟩
  have halike := collected_alike (Green.empty colors beta points improved)
    ((Green.empty colors beta points improved).signSum + Results.signs xs)
    ((Green.empty colors beta points improved).deposited m xs)
  refine ⟨_, hall, halike, zero_add _, ?_, ?_⟩
  · rw [filled, halike.deposited]
    rfl
  · rw [filled, halike.deposited]
    cases improved <;> rfl

/-- The pair falls into the bin of a mesh point that is as close as can be to its distance. -/
structure Binned (g : Green α) (points : ℕ) (D : LineDeterminant α) (j : Fin D.colKeys.length)
    (i : Fin D.rowKeys.length) : Prop where
  distance : (D.colKeys.get j).time.sub (D.rowKeys.get i).time = .ok (D.way j i)
  bin_lt : g.bin (D.way j i).value < points
  closest : |(D.way j i).value - (g.bin (D.way j i).value : α) * g.spacing| ≤
    g.spacing / ((2 : ℕ) : α)

/-- Each pair is in its bin of the table `f`, and in the integral of the collected table `t`. -/
structure Holds (g : Green α) (xs : List (State α × α)) (color : ℕ)
    (w : State α × α → OnPairs α α) (f t : Grid α) : Prop where
  cols : t.cols = f.cols
  entry : ∀ k < f.cols, f.entry color k = overPairs xs color fun x D j i =>
    if g.bin (D.way j i).value = k then w x D j i else 0
  integral : t.trapezoid g.spacing color = -1 / (g.beta * g.signSum) * overPairs xs color w

section Statement

variable {g : Green α} {m : Model α} {colors points color : ℕ} {beta : α} {improved : Bool}
variable {xs : List (State α × α)} {s : State α} {D : LineDeterminant α}
variable (hg : g.Alike (.empty colors beta points improved)) (hpoints : 2 ≤ points) (hb : 0 < beta)

include hg hpoints hb

theorem Alike.binned (hs : s.Matched beta) (hD : s.determinants[color]? = some D)
    (j : Fin D.colKeys.length) (i : Fin D.rowKeys.length) : g.Binned points D j i := by
  have hl := hs.held color D hD
  have hway := hl.way_isPoint j i
  have hvalue : (D.way j i).value = Time.scale (D.way j i).ticks beta := by
    rw [Time.value, hway.period]
  have hlow : 0 ≤ (D.way j i).value := hvalue ▸ Time.scale_nonneg hb _
  have hhigh : (D.way j i).value < beta := hvalue ▸ Time.scale_lt hb hway.lt
  exact ⟨hl.sub_eq_way j i, bin_lt_points hg hpoints _, hg.closest hpoints hb hlow hhigh⟩

theorem holds_filled (hcolor : color < colors) (v : Deposit α → α) :
    g.Holds xs color (fun x D j i => v (g.pairDeposit x.1 m x.2 color D j i))
      (g.filled m colors points xs v) (g.normalized (g.filled m colors points xs v)) where
  cols := rfl
  entry := fun k hk => entry_filled hcolor hk
  integral := by
    have hbeta : g.beta = beta := hg.beta
    rw [trapezoid_filled hg hpoints hb hcolor, hbeta]

end Statement

variable {p : Params α} {m : Model α} {points : ℕ} {improved : Bool} {xs : List (State α × α)}

/-- Collecting from consistent states loses and doubles nothing: each pair of operators goes to one
bin, that of a closest mesh point, and the integral of a collected row over the mesh is the sum over
all pairs, weighted with what the annihilation feels in that of the improved estimator. -/
theorem integral_over_mesh (hp : Model.ofParams p = .ok m) (hpoints : 2 ≤ points)
    (hslopes : improved = true → (∀ r, p.retarded = some r → r.slope.Square) ∧
      ∀ f, p.spinSlope = some f → f.Square)
    (hxs : ∀ x ∈ xs, x.1.Consistent p.beta ∧ x.1.OfParams p ∧ x.1.Tabulated) :
    ∃ g, (Green.empty m.colors m.beta points improved).accumulateAll m xs = .ok g ∧
      g.beta = m.beta ∧ g.signSum = Results.signs xs ∧ g.bins.cols = points ∧
      g.spacing = m.beta / ((points - 1 : ℕ) : α) ∧
      (∀ x ∈ xs, ∀ color D, x.1.determinants[color]? = some D → ∀ j i,
        g.Binned points D j i ∧ (improved = true → felt x.1 m color D.colKeys[j].time =
          .ok (interaction x.1 m color D.colKeys[j].time))) ∧
      ∀ color < m.colors, ∀ r : Results α,
        (∃ t, (g.collect r).green = some t ∧
          g.Holds xs color (fun x D j i => D.signed j i x.2) g.bins t) ∧
        if improved then ∃ f t, g.improved = some f ∧ (g.collect r).improved = some t ∧
          f.cols = points ∧ g.Holds xs color (fun x D j i =>
            D.signed j i x.2 * interaction x.1 m color D.colKeys[j].time) f t
        else (g.collect r).improved = none := by
  have hb : 0 < m.beta := by
    obtain ⟨hsound, rfl⟩ := Model.of_ofParams hp
    exact hsound.beta
  have hready : ∀ x ∈ xs, x.1.Ready m := fun x hx =>
    State.ready_of_consistent hp (hxs x hx).1 (hxs x hx).2.1 (hxs x hx).2.2
  have hgraded : improved = true → m.Graded := by
    intro himproved
    obtain ⟨hk, hf⟩ := hslopes himproved
    exact Model.graded_of_ofParams hp hk hf
  have hsome : (Green.empty m.colors m.beta points improved).improved.isSome = improved := by
    cases improved <;> rfl
  have hweighable : ∀ x ∈ xs, (Green.empty m.colors m.beta points improved).Weighable x.1 m := by
    intro x hx
    exact weighable_of_graded (fun h => hgraded (hsome.symm.trans h)) (hready x hx)
  obtain ⟨g, hrun, halike, hsigns, hbins, himproved⟩ := accumulateAll_empty hpoints fun x hx =>
    ⟨(hready x hx).matched, (hready x hx).colors, (hready x hx).tables, hweighable x hx⟩
  refine ⟨g, hrun, halike.beta, hsigns, halike.cols_of_empty, halike.spacing, ?_, ?_⟩
  · intro x hx color D hD j i
    refine ⟨halike.binned hpoints hb (hready x hx).matched hD j i, ?_⟩
    intro htrue
    obtain ⟨y, hy⟩ := hweighable x hx (hsome.trans htrue) color D hD j
    rw [hy, interaction_eq hy]
  · intro color hcolor r
    have hholds : ∀ v, g.Holds xs color _ (g.filled m m.colors points xs v) _ :=
      holds_filled halike hpoints hb hcolor
    constructor
    · refine ⟨g.normalized g.bins, rfl, ?_⟩
      rw [hbins]
      exact hholds Deposit.value
    · cases improved with
      | false =>
        rw [if_neg Bool.false_ne_true, collect, himproved]
        rfl
      | true =>
        have htable := hholds Deposit.improved
        have htrue : g.improved.isSome = true := halike.isSome
        simp only [pairDeposit, htrue, if_true] at htable
        refine ⟨_, _, himproved, ?_, rfl, htable⟩
        rw [collect, himproved]
        rfl

section Touching

open LocalRatio Results

/-- Two segments that touch, on a mesh of two points. -/
theorem integral_over_mesh_touching : Model.ofParams flat = .ok flatModel ∧
    (∀ x ∈ repeated [1, -1, 1], x.1.Consistent flat.beta ∧ x.1.OfParams flat ∧ x.1.Tabulated) ∧
    ∃ g f t, (Green.empty 1 1 2 true).accumulateAll flatModel (repeated [1, -1, 1]) = .ok g ∧
      g.signSum = 1 ∧ g.improved = some f ∧ (g.collect (.empty 1)).improved = some t ∧
      f.cols = 2 ∧ g.Holds (repeated [1, -1, 1]) 0 (fun x D j i =>
        D.signed j i x.2 * interaction x.1 flatModel 0 D.colKeys[j].time) f t := by
  have hstates := repeated_states [1, -1, 1]
  obtain ⟨g, hg, -, hsigns, -, -, -, hcolors⟩ := integral_over_mesh ofParams_flat (le_refl 2)
    (fun _ : true = true => ⟨flat_slopes, flat_spinless⟩) hstates
  obtain ⟨-, hresult⟩ := hcolors 0 Nat.zero_lt_one (.empty 1)
  rw [if_pos rfl] at hresult
  obtain ⟨f, t, hf, ht, hcols, hholds⟩ := hresult
  have hone : signs (repeated [1, -1, 1]) = 1 := by norm_num [signs, repeated]
  exact ⟨ofParams_flat, hstates, g, f, t, hg, hsigns.trans hone, hf, ht, hcols, hholds⟩

end Touching

end Green

end ImpuritySampler
