import ImpuritySampler.Proofs.Outcome
import ImpuritySampler.Proofs.Time
import ImpuritySampler.MeshFunction

/-!
# Values on a mesh

A square table with at least two points has a value at every distance between two points of the
cycle, also if it was tabulated for a period that is only nearly that of the cycle. In exact
arithmetic the distance is below the period by one tick at least, which is more than the two
tolerances cost. The period of the table has to be a number: one that is undefined differs from
nothing, and is near to nothing.
-/

set_option autoImplicit false

namespace ImpuritySampler

namespace Stack

variable {α : Type}

theorem get?_defined {s : Stack α} {k i j : ℕ} : (∃ x, s.get? k i j = some x) ↔
    k < s.layers ∧ i < s.rows ∧ j < s.cols := by
  constructor
  · rintro ⟨x, hx⟩
    by_contra hout
    rw [get?, if_neg hout] at hx
    cases hx
  · rintro ⟨hk, hi, hj⟩
    have hlt : (k * s.rows + i) * s.cols + j < s.data.size := by
      rw [s.size_eq]
      exact Grid.place_lt (Grid.place_lt hk hi) hj
    exact ⟨s.data[(k * s.rows + i) * s.cols + j], by
      rw [get?, if_pos ⟨hk, hi, hj⟩, Array.getElem?_eq_getElem hlt]⟩

end Stack

namespace MeshFunction

section Defined

variable {α : Type} [Scalar α] {f : MeshFunction α} {tau : α} {k a b : ℕ}

/-- The times that the table is for, with a margin at both ends. -/
def Covers (f : MeshFunction α) (tau : α) : Prop :=
  -Scalar.tolerance ≤ tau ∧ tau ≤ f.beta * (1 + Scalar.tolerance)

instance (f : MeshFunction α) (tau : α) : Decidable (f.Covers tau) :=
  inferInstanceAs (Decidable (_ ∧ _))

omit [Scalar α] in
theorem entry_defined : (∃ x, f.entry k a b = .ok x) ↔
    k < f.points ∧ a < f.values.rows ∧ b < f.values.cols := by
  rw [points, ← Stack.get?_defined, entry]
  cases f.values.get? k a b with
  | none => simp
  | some x => simp

/-- There is a value wherever the table has the element and two points to interpolate between. The
cell that is read ends at the last point whatever the position is, so that this holds with any
rounding. -/
theorem value_defined : (∃ x, f.value tau a b = .ok x) ↔
    f.Covers tau ∧ 2 ≤ f.points ∧ a < f.values.rows ∧ b < f.values.cols := by
  have hcell : f.cell tau ≤ f.points - 2 := Nat.min_le_right _ _
  rw [value]
  constructor
  · rintro ⟨x, hx⟩
    obtain ⟨_, hcovers, hx⟩ := Outcome.bind_eq_ok.mp hx
    obtain ⟨_, hpoints, hx⟩ := Outcome.bind_eq_ok.mp hx
    obtain ⟨left, hleft, -⟩ := Outcome.bind_eq_ok.mp hx
    exact ⟨Outcome.require_eq_ok.mp hcovers, Outcome.require_eq_ok.mp hpoints,
      (entry_defined.mp ⟨left, hleft⟩).2⟩
  · rintro ⟨hcovers, hpoints, hentry⟩
    obtain ⟨left, hleft⟩ := entry_defined.mpr ⟨show f.cell tau < f.points by omega, hentry⟩
    obtain ⟨right, hright⟩ := entry_defined.mpr ⟨show f.cell tau + 1 < f.points by omega, hentry⟩
    rw [Covers] at hcovers
    rw [Outcome.require_true hcovers, Outcome.ok_bind, Outcome.require_true hpoints,
      Outcome.ok_bind]
    simp only [hleft, hright, Outcome.ok_bind]
    exact ⟨_, rfl⟩

def Square (f : MeshFunction α) : Prop := 2 ≤ f.points ∧ f.values.cols = f.values.rows

omit [Scalar α] in
instance (f : MeshFunction α) : Decidable f.Square := inferInstanceAs (Decidable (_ ∧ _))

structure Readable (f : MeshFunction α) (beta : α) (n : ℕ) : Prop where
  points : 2 ≤ f.points
  rows : f.values.rows = n
  cols : f.values.cols = n
  covers : ∀ k < ticksPerPeriod, f.Covers (Time.scale k beta)

def reading (f : MeshFunction α) (tau : α) (a b : ℕ) : α :=
  match f.value tau a b with
  | .ok x => x
  | .error _ => 0

theorem value_eq_reading (h : ∃ x, f.value tau a b = .ok x) :
    f.value tau a b = .ok (f.reading tau a b) := by
  obtain ⟨x, hx⟩ := h
  rw [reading, hx]

theorem Readable.value {beta : α} {n : ℕ} (h : f.Readable beta n) (hk : k < ticksPerPeriod)
    (han : a < n) (hbn : b < n) :
    f.value (Time.scale k beta) a b = .ok (f.reading (Time.scale k beta) a b) :=
  value_eq_reading
    (value_defined.mpr ⟨h.covers k hk, h.points, h.rows ▸ han, h.cols ▸ hbn⟩)

end Defined

end MeshFunction

section Tolerance

variable {α : Type} [Scalar α]

/-- How far along the axis a table reaches at least, if its period is nearly `beta`. -/
def Time.reach (beta : α) : α := beta * (1 - Scalar.tolerance * Scalar.tolerance)

/-- Arithmetic in which the tolerance for periods is within the margin of the tables: a table for
nearly the period of a cycle covers the axis up to its reach, and no distance goes beyond that. -/
class Scalar.Tolerant (α : Type) [Scalar α] : Prop where
  covers : ∀ {f : MeshFunction α} {beta tau : α}, 0 < beta → Scalar.isFinite beta = true →
    Scalar.Same f.beta f.beta → ¬Scalar.tolerance * beta < Scalar.abs (f.beta - beta) →
    0 ≤ tau → tau ≤ Time.reach beta → f.Covers tau
  distance : ∀ {beta : α} {k : ℕ}, 0 < beta → Scalar.isFinite beta = true → k < ticksPerPeriod →
    0 ≤ Time.scale k beta ∧ Time.scale k beta ≤ Time.reach beta

end Tolerance

variable {α : Type} [ExactScalar α] {beta : α}

theorem Scalar.tolerance_eq : (tolerance : α) = 1 / 10 ^ 12 := by
  rw [tolerance]
  norm_num

def Scalar.Near (given expected : α) : Prop := abs (given - expected) ≤ tolerance * expected

namespace Time

theorem reach_eq (beta : α) : reach beta = (1 - 1 / 10 ^ 24) * beta := by
  rw [reach, Scalar.tolerance_eq]
  ring

/-- The longest distance between two points of the cycle is below the period by one tick. -/
theorem scale_le {k : ℕ} (hb : 0 < beta) (hk : k < ticksPerPeriod) :
    scale k beta ≤ (1 - 1 / 2 ^ 62) * beta := by
  have hle : scale k beta ≤ scale (ticksPerPeriod - 1) beta := by
    rcases Nat.lt_or_eq_of_le (Nat.le_sub_one_of_lt hk) with h | h
    · exact (scale_strictMono hb h).le
    · rw [h]
  have hlast : scale (ticksPerPeriod - 1) beta = (1 - 1 / 2 ^ 62) * beta := by
    have hp : ticksPerPeriod = 2 ^ 62 := rfl
    rw [scale, hp]
    norm_num
  rwa [hlast] at hle

end Time

namespace MeshFunction

/-- A period that is nearly the expected one leaves out no more than the square of the tolerance. -/
theorem covers_of_near {f : MeshFunction α} {tau : α} (hb : 0 < beta)
    (hperiod : Scalar.Near f.beta beta) (hlow : 0 ≤ tau) (hhigh : tau ≤ Time.reach beta) :
    f.Covers tau := by
  rw [Time.reach_eq] at hhigh
  rw [Scalar.Near, Scalar.tolerance_eq] at hperiod
  rw [Covers, Scalar.tolerance_eq]
  have hf : beta * (1 - 1 / 10 ^ 12) ≤ f.beta := by
    rw [Scalar.abs] at hperiod
    split at hperiod <;> linarith
  constructor
  · linarith
  · nlinarith

instance : Scalar.Tolerant α where
  covers := fun hb _ _ hperiod hlow hhigh => covers_of_near hb (not_lt.mp hperiod) hlow hhigh
  distance := fun {beta k} hb _ hk => by
    refine ⟨Time.scale_nonneg hb k, (Time.scale_le hb hk).trans ?_⟩
    have hgap : (1 - 1 / 2 ^ 62 : α) ≤ 1 - 1 / 10 ^ 24 := by norm_num
    rw [Time.reach_eq]
    exact mul_le_mul_of_nonneg_right hgap hb.le

theorem Square.numbered {f : MeshFunction α} (h : f.Square) :
    f.Square ∧ Scalar.Same f.beta f.beta := ⟨h, Scalar.same_iff.mpr rfl⟩

def constant (beta : α) (n : ℕ) (x : ℕ → ℕ → α) : MeshFunction α :=
  ⟨beta, Stack.ofFn 2 n n fun _ a b => x a b⟩

omit [ExactScalar α] in
theorem constant_square (beta : α) (n : ℕ) (x : ℕ → ℕ → α) : (constant beta n x).Square :=
  ⟨le_refl 2, rfl⟩

theorem constant_value {n a b : ℕ} {tau : α} (x : ℕ → ℕ → α) (h0 : 0 ≤ tau) (h1 : tau ≤ beta)
    (ha : a < n) (hb : b < n) : (constant beta n x).value tau a b = .ok (x a b) := by
  have hcell : (constant beta n x).cell tau ≤ 0 := min_le_right _ _
  have hentry : ∀ k < 2, (constant beta n x).entry k a b = .ok (x a b) := fun k hk => by
    simp only [entry, constant, Stack.get?_ofFn _ hk ha hb]
  have hbounds : -Scalar.tolerance ≤ tau ∧
      tau ≤ (constant beta n x).beta * (1 + Scalar.tolerance) := by
    rw [Scalar.tolerance_eq]
    have hbeta : 0 ≤ beta := h0.trans h1
    constructor
    · linarith
    · show tau ≤ beta * (1 + 1 / 10 ^ 12)
      linarith
  rw [value, Outcome.require_true hbounds, Outcome.ok_bind,
    Outcome.require_true (constant_square beta n x).1, Outcome.ok_bind]
  simp only [hentry _ (Nat.lt_of_le_of_lt hcell (by decide)),
    hentry _ (Nat.lt_of_le_of_lt (Nat.succ_le_succ hcell) (by decide)), Outcome.ok_bind]
  rw [Outcome.pure_eq]
  congr 1
  ring

end MeshFunction
end ImpuritySampler
