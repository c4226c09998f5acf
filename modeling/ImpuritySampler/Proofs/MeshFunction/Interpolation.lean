import ImpuritySampler.Proofs.MeshFunction

/-!
# Interpolation on a mesh

A time on the axis lies between two neighbouring points of the mesh, and a value there is on the
chord between theirs. At a point that two cells share both chords meet, so it does not matter which
cell is taken: that settles the values at the points, the last one included, and those of a table
that is read backwards.
-/

set_option autoImplicit false

namespace ImpuritySampler

theorem Scalar.clamp_eq_self {α : Type} [ExactScalar α] {lo hi a : α} (hlo : lo ≤ a)
    (hhi : a ≤ hi) : clamp lo hi a = a := by
  rw [clamp, if_neg (not_lt.mpr hlo), if_neg (not_lt.mpr hhi)]

namespace MeshFunction

variable {α : Type} [ExactScalar α]

section Chord

variable {g : ℕ → α} {x : α} {k l n : ℕ}

def Spans (k : ℕ) (x : α) : Prop := (k : α) ≤ x ∧ x ≤ k + 1

def chord (g : ℕ → α) (k : ℕ) (x : α) : α := (1 - (x - k)) * g k + (x - k) * g (k + 1)

theorem chord_congr {h : ℕ → α} (hk : g k = h k) (hnext : g (k + 1) = h (k + 1)) (x : α) :
    chord g k x = chord h k x := by
  rw [chord, chord, hk, hnext]

theorem chord_start (g : ℕ → α) (k : ℕ) : chord g k k = g k := by
  rw [chord]
  ring

theorem chord_stop (g : ℕ → α) (k : ℕ) : chord g k ((k + 1 : ℕ) : α) = g (k + 1) := by
  rw [chord]
  push_cast
  ring

/-- Two cells with a common position are the same, or neighbours that meet there. -/
theorem Spans.eq_or_meet (hk : Spans k x) (hl : Spans l x) (hle : k ≤ l) :
    k = l ∨ l = k + 1 ∧ x = ((k + 1 : ℕ) : α) := by
  rcases Nat.eq_or_lt_of_le hle with h | h
  · exact .inl h
  · have hlast : l ≤ k + 1 := by exact_mod_cast hl.1.trans hk.2
    obtain rfl : l = k + 1 := le_antisymm hlast h
    exact .inr ⟨rfl, le_antisymm (hk.2.trans_eq (Nat.cast_succ k).symm) hl.1⟩

theorem chord_unique (g : ℕ → α) (hk : Spans k x) (hl : Spans l x) : chord g k x = chord g l x := by
  wlog hle : k ≤ l generalizing k l
  · exact (this hl hk (le_of_not_ge hle)).symm
  rcases hk.eq_or_meet hl hle with rfl | ⟨rfl, rfl⟩
  · rfl
  · rw [chord_stop, chord_start]

theorem chord_point (g : ℕ → α) (h : Spans k (n : α)) : chord g k n = g n := by
  rw [chord_unique g h ⟨le_rfl, le_add_of_nonneg_right zero_le_one⟩, chord_start]

theorem chord_affine (c m x : α) (k : ℕ) : chord (fun j => c + m * j) k x = c + m * x := by
  rw [chord]
  push_cast
  ring

theorem chord_between (h : Spans k x) :
    min (g k) (g (k + 1)) ≤ chord g k x ∧ chord g k x ≤ max (g k) (g (k + 1)) := by
  have hw : 0 ≤ x - k := sub_nonneg.mpr h.1
  have hw' : 0 ≤ 1 - (x - k) := by linarith [h.2]
  have hsplit : ∀ c : α, c = (1 - (x - k)) * c + (x - k) * c := fun c => by ring
  constructor
  · rw [hsplit (min _ _), chord]
    exact add_le_add (mul_le_mul_of_nonneg_left (min_le_left _ _) hw')
      (mul_le_mul_of_nonneg_left (min_le_right _ _) hw)
  · rw [hsplit (max _ _), chord]
    exact add_le_add (mul_le_mul_of_nonneg_left (le_max_left _ _) hw')
      (mul_le_mul_of_nonneg_left (le_max_right _ _) hw)

theorem Spans.reversed (h : Spans k ((n : α) - x)) (hk : k + 1 ≤ n) : Spans (n - (k + 1)) x := by
  rw [Spans, Nat.cast_sub hk]
  push_cast
  constructor <;> linarith [h.1, h.2]

theorem chord_reversed (g : ℕ → α) (hk : k + 1 ≤ n) (x : α) :
    chord (fun j => g (n - j)) k ((n : α) - x) = chord g (n - (k + 1)) x := by
  have hnext : n - (k + 1) + 1 = n - k := by omega
  rw [chord, chord, hnext, Nat.cast_sub hk]
  push_cast
  ring

end Chord

section Mesh

variable {beta tau : α} {n k : ℕ}

/-- The position of a time in units of the spacing of `n` points, without any limits. -/
def steps (beta : α) (n : ℕ) (tau : α) : α := tau / beta * ((n - 1 : ℕ) : α)

def cellOf (beta : α) (n : ℕ) (tau : α) : ℕ := min ⌊steps beta n tau⌋₊ (n - 2)

theorem steps_nonneg (hb : 0 < beta) (h0 : 0 ≤ tau) : 0 ≤ steps beta n tau :=
  mul_nonneg (div_nonneg h0 hb.le) (Nat.cast_nonneg _)

theorem steps_le (hb : 0 < beta) (h1 : tau ≤ beta) : steps beta n tau ≤ ((n - 1 : ℕ) : α) :=
  mul_le_of_le_one_left (Nat.cast_nonneg _) ((div_le_one hb).mpr h1)

theorem spacing_pos (hb : 0 < beta) (hn : 2 ≤ n) : 0 < beta / ((n - 1 : ℕ) : α) :=
  div_pos hb (Nat.cast_pos.mpr (by omega))

theorem steps_mul_spacing (hb : 0 < beta) (hn : 2 ≤ n) (tau : α) :
    steps beta n tau * (beta / ((n - 1 : ℕ) : α)) = tau := by
  have hlast : ((n - 1 : ℕ) : α) ≠ 0 := Nat.cast_ne_zero.mpr (by omega)
  rw [steps]
  field_simp

theorem steps_pointTime (hb : 0 < beta) (hn : 2 ≤ n) (k : ℕ) :
    steps beta n (pointTime beta n k) = k := by
  have hlast : ((n - 1 : ℕ) : α) ≠ 0 := Nat.cast_ne_zero.mpr (by omega)
  rw [steps, pointTime]
  field_simp

theorem steps_sub (hb : 0 < beta) (tau : α) :
    steps beta n (beta - tau) = ((n - 1 : ℕ) : α) - steps beta n tau := by
  rw [steps, steps, sub_div, div_self hb.ne', sub_mul, one_mul]

theorem pointTime_nonneg (hb : 0 < beta) (hn : 2 ≤ n) (k : ℕ) : 0 ≤ pointTime beta n k :=
  mul_nonneg (Nat.cast_nonneg k) (spacing_pos hb hn).le

theorem pointTime_le (hb : 0 < beta) (hn : 2 ≤ n) (hk : k < n) : pointTime beta n k ≤ beta := by
  have hle : (k : α) ≤ ((n - 1 : ℕ) : α) := Nat.cast_le.mpr (by omega)
  calc pointTime beta n k ≤ ((n - 1 : ℕ) : α) * (beta / ((n - 1 : ℕ) : α)) :=
        mul_le_mul_of_nonneg_right hle (spacing_pos hb hn).le
    _ = beta := mul_div_cancel₀ _ (Nat.cast_ne_zero.mpr (by omega))

theorem cellOf_lt (hn : 2 ≤ n) (tau : α) : cellOf beta n tau + 1 < n := by
  have hle : cellOf beta n tau ≤ n - 2 := min_le_right _ _
  omega

theorem cellOf_spans (hb : 0 < beta) (hn : 2 ≤ n) (h0 : 0 ≤ tau) (h1 : tau ≤ beta) :
    Spans (cellOf beta n tau) (steps beta n tau) := by
  have hfloor : (⌊steps beta n tau⌋₊ : α) ≤ steps beta n tau := Nat.floor_le (steps_nonneg hb h0)
  rw [cellOf]
  rcases le_total ⌊steps beta n tau⌋₊ (n - 2) with h | h
  · rw [min_eq_left h]
    exact ⟨hfloor, (Nat.lt_floor_add_one _).le⟩
  · rw [min_eq_right h]
    have hlast : n - 1 = n - 2 + 1 := by omega
    refine ⟨(Nat.cast_le.mpr h).trans hfloor, (steps_le hb h1).trans_eq ?_⟩
    rw [hlast, Nat.cast_succ]

theorem spans_iff (hb : 0 < beta) (hn : 2 ≤ n) : Spans k (steps beta n tau) ↔
    pointTime beta n k ≤ tau ∧ tau ≤ pointTime beta n (k + 1) := by
  have hpos := spacing_pos hb hn
  have htau := steps_mul_spacing hb hn tau
  rw [Spans, pointTime, pointTime, Nat.cast_succ]
  nth_rewrite 3 4 [← htau]
  rw [mul_le_mul_iff_left₀ hpos, mul_le_mul_iff_left₀ hpos]

end Mesh

section Values

variable {f : MeshFunction α} {beta tau : α} {n k a b : ℕ}

def OnMesh (f : MeshFunction α) (beta : α) (n : ℕ) : Prop := f.beta = beta ∧ f.points = n

def mixed (f : MeshFunction α) (k : ℕ) (w : α) (a b : ℕ) : Outcome α α := do
  let left ← f.entry k a b
  let right ← f.entry (k + 1) a b
  pure ((1 - w) * left + w * right)

def samples (f : MeshFunction α) (a b k : ℕ) : α := (f.values.get? k a b).getD 0

theorem entry_eq_samples (hk : k < f.points) (ha : a < f.values.rows) (hb : b < f.values.cols) :
    f.entry k a b = .ok (f.samples a b k) := by
  obtain ⟨x, hx⟩ := Stack.get?_defined.mpr ⟨hk, ha, hb⟩
  rw [entry, samples, hx]
  rfl

theorem mixed_eq_chord (hk : k + 1 < f.points) (ha : a < f.values.rows) (hb : b < f.values.cols)
    (x : α) : f.mixed k (x - k) a b = .ok (chord (f.samples a b) k x) := by
  rw [mixed, entry_eq_samples (Nat.lt_of_succ_lt hk) ha hb, entry_eq_samples hk ha hb]
  rfl

theorem position_eq (hf : f.OnMesh beta n) (hb : 0 < beta) (h0 : 0 ≤ tau) (h1 : tau ≤ beta) :
    f.position tau = steps beta n tau := by
  obtain ⟨rfl, rfl⟩ := hf
  exact Scalar.clamp_eq_self (steps_nonneg hb h0) (steps_le hb h1)

theorem cell_eq (hf : f.OnMesh beta n) (hb : 0 < beta) (h0 : 0 ≤ tau) (h1 : tau ≤ beta) :
    f.cell tau = cellOf beta n tau := by
  rw [cell, position_eq hf hb h0 h1, hf.2]
  rfl

theorem covers_of_axis (hb : 0 < f.beta) (h0 : 0 ≤ tau) (h1 : tau ≤ f.beta) : f.Covers tau := by
  rw [Covers, Scalar.tolerance_eq]
  constructor <;> linarith

/-- Which entries are read, and how they are weighted, is decided by the time and the mesh. -/
theorem value_eq_mixed (hf : f.OnMesh beta n) (hb : 0 < beta) (hn : 2 ≤ n) (h0 : 0 ≤ tau)
    (h1 : tau ≤ beta) (a b : ℕ) : f.value tau a b =
      f.mixed (cellOf beta n tau) (steps beta n tau - cellOf beta n tau) a b := by
  have hcovers : f.Covers tau := covers_of_axis (hf.1 ▸ hb) h0 (hf.1 ▸ h1)
  rw [Covers] at hcovers
  rw [value, Outcome.require_true hcovers, Outcome.ok_bind, Outcome.require_true (hf.2 ▸ hn),
    Outcome.ok_bind, cell_eq hf hb h0 h1, position_eq hf hb h0 h1]
  rfl

theorem value_eq_chord (hf : f.OnMesh beta n) (hb : 0 < beta) (hn : 2 ≤ n) (h0 : 0 ≤ tau)
    (h1 : tau ≤ beta) (ha : a < f.values.rows) (hc : b < f.values.cols)
    (hk : Spans k (steps beta n tau)) :
    f.value tau a b = .ok (chord (f.samples a b) k (steps beta n tau)) := by
  rw [chord_unique _ hk (cellOf_spans hb hn h0 h1), value_eq_mixed hf hb hn h0 h1,
    mixed_eq_chord (by rw [hf.2]; exact cellOf_lt hn tau) ha hc]

theorem value_pointTime (hf : f.OnMesh beta n) (hb : 0 < beta) (hn : 2 ≤ n) (hk : k < n)
    (ha : a < f.values.rows) (hc : b < f.values.cols) :
    f.value (pointTime beta n k) a b = f.entry k a b := by
  have h0 := pointTime_nonneg hb hn k
  have h1 := pointTime_le hb hn hk
  have hcell := cellOf_spans hb hn h0 h1
  rw [value_eq_chord hf hb hn h0 h1 ha hc hcell, entry_eq_samples (hf.2 ▸ hk) ha hc]
  rw [steps_pointTime hb hn] at hcell ⊢
  rw [chord_point _ hcell]

theorem value_ofFn_affine {dim i j : ℕ} {g : α → Grid α} {c m : α} (hb : 0 < beta) (hn : 2 ≤ n)
    (h0 : 0 ≤ tau) (h1 : tau ≤ beta) (hi : i < dim) (hj : j < dim)
    (hg : ∀ t, (g t).entry i j = c + m * t) :
    (ofFn beta n dim g).value tau i j = .ok ((g tau).entry i j) := by
  have hmesh : (ofFn beta n dim g).OnMesh beta n := ⟨rfl, rfl⟩
  have hlast : cellOf beta n tau + 1 < n := cellOf_lt hn tau
  have hsamples : ∀ k < n, (ofFn beta n dim g).samples i j k =
      c + m * (beta / ((n - 1 : ℕ) : α)) * k := by
    intro k hk
    have hentry := entry_ofFn beta g hk hi hj
    rw [entry_eq_samples (f := ofFn beta n dim g) hk hi hj, hg] at hentry
    rw [Except.ok.inj hentry, pointTime]
    ring
  rw [value_eq_chord hmesh hb hn h0 h1 hi hj (cellOf_spans hb hn h0 h1),
    chord_congr (h := fun k => c + m * (beta / ((n - 1 : ℕ) : α)) * k)
      (hsamples _ (Nat.lt_of_succ_lt hlast)) (hsamples _ hlast),
    chord_affine, hg, mul_assoc, mul_comm (beta / _), steps_mul_spacing hb hn]

def reversed (f : MeshFunction α) : MeshFunction α :=
  ⟨f.beta, Stack.ofFn f.points f.values.rows f.values.cols fun k a b =>
    f.samples a b (f.points - 1 - k)⟩

theorem reversed_samples (hk : k < f.points) (ha : a < f.values.rows) (hb : b < f.values.cols) :
    f.reversed.samples a b k = f.samples a b (f.points - 1 - k) := by
  rw [samples, reversed, Stack.get?_ofFn _ hk ha hb]
  rfl

theorem value_reversed (hf : f.OnMesh beta n) (hb : 0 < beta) (hn : 2 ≤ n) (h0 : 0 ≤ tau)
    (h1 : tau ≤ beta) (ha : a < f.values.rows) (hc : b < f.values.cols) :
    f.reversed.value (beta - tau) a b = f.value tau a b := by
  have hcell := cellOf_spans hb hn (sub_nonneg.mpr h1) (sub_le_self beta h0)
  have hlt : cellOf beta n (beta - tau) + 1 < n := cellOf_lt hn (beta - tau)
  have hsamples : ∀ k < n, f.reversed.samples a b k = f.samples a b (n - 1 - k) := fun k hk => by
    rw [reversed_samples (hf.2 ▸ hk) ha hc, hf.2]
  rw [value_eq_chord (f := f.reversed) hf hb hn (sub_nonneg.mpr h1) (sub_le_self beta h0) ha hc
    hcell]
  rw [steps_sub hb] at hcell ⊢
  rw [chord_congr (h := fun k => f.samples a b (n - 1 - k)) (hsamples _ (Nat.lt_of_succ_lt hlt))
      (hsamples _ hlt), chord_reversed _ (by omega),
    value_eq_chord hf hb hn h0 h1 ha hc (hcell.reversed (by omega))]

end Values

/-- On a mesh of at least two points, a time on the axis lies between two neighbouring points. They
and their weights depend on the mesh alone, all tables are read only there, and the value lies
between the two entries. At a point it is the entry, straight lines are their own interpolation, and
a table in the opposite order has the same values backwards in time. -/
theorem value_interpolates {beta : α} {n : ℕ} (hb : 0 < beta) (hn : 2 ≤ n) :
    (∀ tau, 0 ≤ tau → tau ≤ beta → ∃ (k : ℕ) (w : α), k + 1 < n ∧
      pointTime beta n k ≤ tau ∧ tau ≤ pointTime beta n (k + 1) ∧ 0 ≤ w ∧ w ≤ 1 ∧
      ∀ f : MeshFunction α, f.OnMesh beta n → ∀ a b, f.value tau a b = f.mixed k w a b ∧
        (a < f.values.rows → b < f.values.cols → ∃ x y z, f.entry k a b = .ok x ∧
          f.entry (k + 1) a b = .ok y ∧ f.value tau a b = .ok z ∧
          z = (1 - w) * x + w * y ∧ min x y ≤ z ∧ z ≤ max x y)) ∧
    (∀ f : MeshFunction α, f.OnMesh beta n → ∀ a < f.values.rows, ∀ b < f.values.cols,
      (∀ k < n, f.value (pointTime beta n k) a b = f.entry k a b) ∧
      ∀ tau, 0 ≤ tau → tau ≤ beta → f.reversed.value (beta - tau) a b = f.value tau a b) ∧
    ∀ (dim : ℕ) (g : α → Grid α) (c m : ℕ → ℕ → α), Extent.Storable [n, dim, dim] →
      (∀ t, (g t).HasShape dim dim) →
      (∀ t, ∀ a < dim, ∀ b < dim, (g t).entry a b = c a b + m a b * t) →
      ∃ f, tabulate beta n dim g = .ok f ∧ ∀ tau, 0 ≤ tau → tau ≤ beta →
        ∀ a < dim, ∀ b < dim, f.value tau a b = .ok ((g tau).entry a b) := by
  refine ⟨fun tau h0 h1 => ?_, fun f hf a ha b hc => ⟨fun k hk => ?_, fun tau h0 h1 => ?_⟩,
    fun dim g c m hstorable hshape hg => ?_⟩
  · have hcell := cellOf_spans hb hn h0 h1
    have hlt : cellOf beta n tau + 1 < n := cellOf_lt hn tau
    obtain ⟨hleft, hright⟩ := (spans_iff hb hn).mp hcell
    refine ⟨cellOf beta n tau, steps beta n tau - cellOf beta n tau, hlt, hleft, hright,
      sub_nonneg.mpr hcell.1, by linarith [hcell.2], fun f hf a b =>
        ⟨value_eq_mixed hf hb hn h0 h1 a b, fun ha hc => ?_⟩⟩
    obtain ⟨hlow, hhigh⟩ := chord_between (g := f.samples a b) hcell
    exact ⟨_, _, _, entry_eq_samples (by rw [hf.2]; omega) ha hc,
      entry_eq_samples (hf.2 ▸ hlt) ha hc, value_eq_chord hf hb hn h0 h1 ha hc hcell, rfl, hlow,
      hhigh⟩
  · exact value_pointTime hf hb hn hk ha hc
  · exact value_reversed hf hb hn h0 h1 ha hc
  · refine ⟨ofFn beta n dim g, ?_, fun tau h0 h1 a ha b hc =>
      value_ofFn_affine hb hn h0 h1 ha hc fun t => hg t a ha b hc⟩
    rw [tabulate, Outcome.require_true hn, Outcome.ok_bind, Outcome.require_true hstorable,
      Outcome.ok_bind, Outcome.require_true fun k _ => hshape _, Outcome.ok_bind]
    rfl

theorem value_interpolates_two_points :
    (0 : ℚ) < 2 ∧ 2 ≤ 2 ∧
      (⟨2, Stack.ofFn 2 1 1 fun k _ _ => if k = 0 then 3 else 7⟩ : MeshFunction ℚ).value 2 0 0 =
        .ok 7 := by
  have hbeta : (0 : ℚ) < 2 := two_pos
  obtain ⟨-, htable, -⟩ := value_interpolates hbeta (le_refl 2)
  have hlast := (htable ⟨2, Stack.ofFn 2 1 1 fun k _ _ => if k = 0 then 3 else 7⟩ ⟨rfl, rfl⟩ 0
    (Nat.one_pos) 0 Nat.one_pos).1 1 (by decide)
  have htime : pointTime (2 : ℚ) 2 1 = 2 := by decide +kernel
  rw [htime] at hlast
  exact ⟨hbeta, le_refl 2, hlast⟩

end MeshFunction
end ImpuritySampler
