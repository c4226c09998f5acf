import ImpuritySampler.Proofs.Line.Occupation
import ImpuritySampler.Proofs.Line.Refill
import ImpuritySampler.Proofs.Measure.Defined
import ImpuritySampler.Proofs.Measure.Deposit
import ImpuritySampler.Proofs.Shift.Inverse

/-!
# The Green's function under another origin

The keys of a color come in another order under another origin of time, and the elements of those
that pass the end of the axis change their sign. The inverse matrix has its rows and columns in the
new order and changes the same signs, so that the sign by which a pair is counted makes up for it:
each pair leaves the same deposit, in the bin of the same distance.
-/

set_option autoImplicit false

namespace ImpuritySampler

open Outcome Time

namespace Outcome

variable {α β γ : Type} [AddCommMonoid γ]

theorem Agree.sumOver {l : List β} {f k : β → Outcome α γ} (h : ∀ b ∈ l, Agree (f b) (k b)) :
    Agree (sumOver l f) (sumOver l k) :=
  Agree.foldlM (fun b hb _ => (h b hb).bind fun _ => .of_eq rfl) 0

theorem Agree.sumOver_forall₂ {δ : Type} {l : List β} {l' : List δ} {f : β → Outcome α γ}
    {f' : δ → Outcome α γ} (h : List.Forall₂ (fun b b' => Agree (f' b') (f b)) l l') :
    Agree (Outcome.sumOver l' f') (Outcome.sumOver l f) := by
  induction h with
  | nil => exact .of_eq rfl
  | cons hb _ ih =>
    rw [sumOver_cons, sumOver_cons]
    exact hb.bind fun _ => ih.bind fun _ => .of_eq rfl

theorem agree_sumOver_turned {n a : ℕ} {f k : ℕ → Outcome α γ}
    (h : ∀ j < n, Agree (f j) (k ((j + a) % n))) :
    Agree (sumOver (List.range n) f) (sumOver (List.range n) k) := by
  have hrotate : (List.range n).map (fun j => (j + a) % n) = (List.range n).rotate a := by
    apply List.ext_getElem
    · simp
    · intro j hj₁ hj₂
      simp [List.getElem_rotate]
  have hturned : Agree (sumOver (List.range n) f)
      (sumOver ((List.range n).map fun j => (j + a) % n) k) := by
    rw [sumOver_map]
    exact Agree.sumOver fun j hj => h j (List.mem_range.mp hj)
  rw [hrotate] at hturned
  exact hturned.trans (agree_sum (List.rotate_perm _ _) k 0)

end Outcome

section Felt

variable {α : Type} [ExactScalar α] {beta : α} {d : ℕ} {l l' : Line α} {t : Time α}

omit [ExactScalar α] in
theorem Line.mem_ticks_shift (hl : ∀ s ∈ l, s.OnCycle beta)
    (hp : l'.Perm (l.map (Segment.shift d))) {u : ℕ} (hu : u < ticksPerPeriod) :
    ahead u d ∈ ticks l' ↔ u ∈ ticks l := by
  rw [ticks_perm hp, mem_ticks, mem_ticks]
  simp only [List.mem_map, exists_exists_and_eq_and]
  constructor
  · rintro ⟨s, hs, hmem⟩
    exact ⟨s, hs, (Segment.mem_ticks_shift (hl s hs).placed hu).mp hmem⟩
  · rintro ⟨s, hs, hmem⟩
    exact ⟨s, hs, (Segment.mem_ticks_shift (hl s hs).placed hu).mpr hmem⟩

theorem Time.behind_ahead {u : ℕ} (hu : u < ticksPerPeriod) (d : ℕ) :
    behind (ahead u d) 1 = ahead (behind u 1) d := by
  have hlast := behind_lt u 1
  have hgap : gap u (behind u 1) = 1 := by
    have hperiod : 1 < ticksPerPeriod := by decide
    rw [behind_one hu]
    unfold gap
    split_ifs <;> omega
  rw [← gap_ahead hu hlast d] at hgap
  calc behind (ahead u d) 1
    _ = behind (ahead u d) (gap (ahead u d) (ahead (behind u 1) d)) := by rw [hgap]
    _ = ahead (behind u 1) d := behind_gap (ahead_lt u d) (ahead_lt _ d)

theorem Line.occupiedBelow_shift (hb : 0 < beta) (hl : ∀ s ∈ l, s.OnCycle beta)
    (ht : t.IsPoint beta) (hp : l'.Perm (l.map (Segment.shift d))) :
    l'.occupiedBelow (t.shift d) = l.occupiedBelow t := by
  have hl' : ∀ s ∈ l', s.OnCycle beta := by
    intro s hs
    obtain ⟨u, hu, rfl⟩ := List.mem_map.mp (hp.mem_iff.mp hs)
    exact (hl u hu).shift d
  have hmem := mem_ticks_shift hl hp (behind_lt t.ticks 1)
  rw [occupiedBelow_eq hb hl' (ht.shift d), occupiedBelow_eq hb hl ht, Time.shift,
    behind_ahead ht.lt]
  simp only [hmem]

namespace Green

variable {m : Model α} {s s' : State α} {color other : ℕ}

theorem feltFrom_shift (hb : 0 < beta) (hl : ∀ s ∈ l, s.OnCycle beta) (ht : t.IsPoint beta)
    (hp : l'.Perm (l.map (Segment.shift d))) (total : α) :
    Agree (feltFrom m color (t.shift d) l' other total) (feltFrom m color t l other total) := by
  rw [feltFrom_eq, feltFrom_eq, Line.occupiedBelow_shift hb hl ht hp]
  refine (Agree.of_eq rfl).bind fun occupied => (Agree.of_eq rfl).bind fun felt =>
    Agree.bind ?_ fun felt => ?_
  · unfold retardedPart
    cases m.retarded with
    | none => exact .of_eq rfl
    | some r =>
      exact (Line.coupling_shift hb hl ht hp .plus r.slope other color).bind fun _ => .of_eq rfl
  · unfold spinPart
    cases m.spinSlope with
    | none => exact .of_eq rfl
    | some slope =>
      refine (Agree.of_eq rfl).bind fun y => ?_
      exact (Line.coupling_shift hb hl ht hp .plus slope other color).bind fun _ => .of_eq rfl

theorem felt_shift (hb : 0 < beta) (hc : s.config.OnCycle beta)
    (h : s.config.Shifted d s'.config) (ht : t.IsPoint beta) :
    Agree (felt s' m color (t.shift d)) (felt s m color t) := by
  rw [felt, felt, Configuration.zipIdx_lines, Configuration.zipIdx_lines, h.colors,
    List.foldlM_map, List.foldlM_map]
  refine Agree.foldlM (fun k hk total => ?_) 0
  exact feltFrom_shift hb (hc.lineAt (List.mem_range.mp hk)) ht (h.lines k) total

end Green

end Felt

section Accumulated

variable {α : Type} [ExactScalar α] {beta : α} {d : ℕ} {s s' : State α} {m : Model α}
variable {l : Line α} {D D' : LineDeterminant α} {color j i k b : ℕ} {y x : Key α} {e sign f : α}

namespace Green

/-- The signs of the two keys that pass the end of the axis come in twice. -/
theorem pairDeposits_shift (g : Green α)
    (h : Determinant.ShiftedPair beta d D D' j i b k y x e) :
    g.pairDeposits D' color sign f j i = g.pairDeposits D color sign f b k := by
  have hgap : (y.shift d).time.sub (x.shift d).time = y.time.sub x.time :=
    sub_shift h.column h.row d
  have hvalue : (if (x.shift d).time.ticks ≤ (y.shift d).time.ticks then sign else -sign) *
      (turn d y.time.ticks * turn d x.time.ticks * e) =
        (if x.time.ticks ≤ y.time.ticks then sign else -sign) * e := by
    change (if ahead x.time.ticks d ≤ ahead y.time.ticks d then sign else -sign) * _ = _
    rw [signed_eq_mul _ sign, signed_eq_mul _ sign, order_ahead h.column.lt h.row.lt]
    have hy : (turn d y.time.ticks * turn d y.time.ticks : α) = 1 := turn_mul_self d _
    have hx : (turn d x.time.ticks * turn d x.time.ticks : α) = 1 := turn_mul_self d _
    linear_combination (if x.time.ticks ≤ y.time.ticks then 1 else -1) * sign * e *
      (turn d x.time.ticks * turn d x.time.ticks * hy + hx)
  rw [pairDeposits, pairDeposits, h.later_colKey, h.later_rowKey, h.later_entry, h.colKey,
    h.rowKey, h.entry]
  simp only [ok_bind, hgap, hvalue]

theorem factor_shift (hb : 0 < beta) (hc : s.config.OnCycle beta)
    (h : s.config.Shifted d s'.config) {t : Time α} (ht : t.IsPoint beta) (improved : Bool) :
    Agree (factor s' m color (t.shift d) improved) (factor s m color t improved) := by
  cases improved with
  | true => exact felt_shift hb hc h ht
  | false => exact .of_eq rfl

variable (g : Green α) (hb : 0 < beta) (hc : s.config.OnCycle beta)
variable (hconfig : s.config.Shifted d s'.config) (hl : l.HeldBy beta D)
variable (he : Turning beta d D.element) (hD : D.Inverted) (hD' : D.ShiftedTo d D')

include hb hc hconfig hl he hD hD'

theorem columnDeposits_shift (hj : j < D.size) :
    Agree (g.columnDeposits s' m D' color sign j) (g.columnDeposits s m D color sign
      ((j + (l.bounded.map (·.annihilation.ticks)).countP (crosses d)) % D.size)) := by
  have hpair := hD'.pair hD he hl.rows hl.cols rfl
  obtain ⟨y, _, _, h⟩ := hpair ⟨j, hj⟩ ⟨j, hj⟩
  rw [columnDeposits, columnDeposits, h.later_colKey, h.colKey, ok_bind, ok_bind, hD'.size]
  refine (factor_shift hb hc hconfig h.column _).bind fun f => ?_
  apply agree_sumOver_turned (a := (l.bounded.map (·.creation.ticks)).countP (crosses d))
  intro i hi
  obtain ⟨y, x, e, h⟩ := hpair ⟨j, hj⟩ ⟨i, hi⟩
  exact .of_eq (g.pairDeposits_shift h)

theorem colorDeposits_shift :
    Agree (g.colorDeposits s' m sign (D', color)) (g.colorDeposits s m sign (D, color)) := by
  rw [colorDeposits, colorDeposits, hD'.size]
  apply agree_sumOver_turned
  intro j hj
  exact columnDeposits_shift g hb hc hconfig hl he hD hD' hj

omit hl he hD hD' in
theorem deposits_shift (hs : s.Matched beta)
    (hh : ∀ D ∈ s.determinants, Turning beta d D.element ∧ D.Inverted)
    (hd : List.Forall₂ (Determinant.ShiftedTo d) s.determinants s'.determinants) :
    Agree (g.deposits s' m sign) (g.deposits s m sign) := by
  apply Agree.sumOver_forall₂
  have hget := List.forall₂_iff_get.mp hd
  rw [List.forall₂_iff_get]
  refine ⟨by rw [List.length_zipIdx, List.length_zipIdx, hget.1], ?_⟩
  intro k hk hk'
  rw [List.length_zipIdx] at hk hk'
  simp only [List.get_eq_getElem, List.getElem_zipIdx, zero_add]
  have hD := hh _ (List.getElem_mem hk)
  exact colorDeposits_shift g hb hc hconfig (hs.held k _ (List.getElem?_eq_getElem hk)) hD.1 hD.2
    (hget.2 k hk hk')

end Green

end Accumulated

section Invariance

variable {α : Type} [ExactScalar α] {beta : α} {s s' : State α}

theorem Green.accumulate_agree (hb : 0 < beta) (hs : s.Matched beta) {d : ℕ}
    (hh : ∀ D ∈ s.determinants, Turning beta d D.element ∧ D.Inverted) (h : s.ShiftedTo d s')
    (g : Green α) (m : Model α) (sign : α) :
    Agree (g.accumulate s' m sign) (g.accumulate s m sign) := by
  have hconfig : s.config.Shifted d s'.config := by
    rw [h.config]
    exact Configuration.shifted d s.config
  have hdeposits : Agree (g.deposits s' m sign) (g.deposits s m sign) :=
    g.deposits_shift hb hs.valid.onCycle hconfig hs hh h.determinants
  intro g'
  rw [accumulate_eq_ok, accumulate_eq_ok]
  exact exists_congr fun M => and_congr_left' (hdeposits M)

/-- What a state with exact inverses adds to the bins does not depend on the origin of time: each
state `d` ticks later, of which there is one, gives the same accumulator, or both give none. If the
slopes of the model can be read, and each color has its bins, there is one, and it has collected the
elements of all pairs. -/
theorem Green.accumulate_shift_invariant (hb : 0 < beta) (hs : s.Consistent beta)
    (hh : ∀ D ∈ s.determinants, (∃ h : Hybridization α, D.element = h.element) ∧ D.Inverted)
    (d : ℕ) :
    (∃ s', s.ShiftedTo d s' ∧ s'.Consistent beta) ∧
    ∀ s', s.ShiftedTo d s' → ∀ (g : Green α) (m : Model α) (sign : α),
      Agree (g.accumulate s' m sign) (g.accumulate s m sign) ∧
      (m.Graded → m.beta = beta → s.config.colors = m.colors → g.Sized m.colors →
        ∃ g', g.accumulate s m sign = .ok g' ∧ g.accumulate s' m sign = .ok g' ∧
          g.Collects s m sign g') := by
  have hmatched := (State.consistent_iff hb).mp hs
  have hturning : ∀ D ∈ s.determinants, Turning beta d D.element ∧ D.Inverted := by
    intro D hD
    obtain ⟨⟨h, helement⟩, hinverted⟩ := hh D hD
    rw [helement]
    exact ⟨h.turning beta d, hinverted⟩
  constructor
  · obtain ⟨s', hshift, hs'⟩ := hmatched.exists_shiftedTo hturning
    exact ⟨s', hshift, (State.consistent_iff hb).mpr hs'⟩
  · intro s' hshift g m sign
    have hagree := accumulate_agree hb hmatched hturning hshift g m sign
    refine ⟨hagree, ?_⟩
    rintro hm rfl hcolors hg
    have htables : s.Tabulated := fun D hD => (hh D hD).2.hasShape
    have hsized : g.Sized s.determinants.length := (hmatched.count.trans hcolors) ▸ hg
    obtain ⟨g', hg', hcollects⟩ := accumulate_collects hsized hmatched htables
      (weighable_of_graded (fun _ => hm) ⟨hmatched, hcolors, htables⟩)
    exact ⟨g', hg', (hagree g').mpr hg', hcollects⟩

/-- The straight segment comes to wrap around the end of the axis, the wrapping one leaves it, and
the retarded kernel is measured. -/
theorem Green.accumulate_shift_invariant_touching :
    Proposal.touching.Consistent 1 ∧
    (∀ D ∈ Proposal.touching.determinants, (∃ h : Hybridization ℝ, D.element = h.element) ∧
      D.Inverted) ∧
    ∃ s', Proposal.touching.ShiftedTo (ticksPerPeriod - 8) s' ∧ s'.Consistent 1 ∧
      ∃ g, (empty 1 1 2 true).accumulate Proposal.touching LocalRatio.flatModel 1 = .ok g ∧
        (empty 1 1 2 true).accumulate s' LocalRatio.flatModel 1 = .ok g ∧
        (empty 1 1 2 true).Collects Proposal.touching LocalRatio.flatModel 1 g := by
  have hs := Proposal.touching_consistent
  have hinverted : ∀ D ∈ Proposal.touching.determinants,
      (∃ h : Hybridization ℝ, D.element = h.element) ∧ D.Inverted := fun D hD => by
    rw [List.mem_singleton.mp hD]
    exact ⟨⟨.level, rfl⟩, Proposal.meeting_exact.inverted⟩
  obtain ⟨⟨s', hshift, hs'⟩, hall⟩ :=
    accumulate_shift_invariant one_pos hs hinverted (ticksPerPeriod - 8)
  obtain ⟨-, hdefined⟩ := hall s' hshift (.empty 1 1 2 true) LocalRatio.flatModel 1
  have hg : (Green.empty 1 1 2 true : Green ℝ).Sized LocalRatio.flatModel.colors :=
    (.green (le_refl 2) true : Measure.Fresh 1 (1 : ℝ) (.green (.empty 1 1 2 true))).sized
  exact ⟨hs, hinverted, s', hshift, hs', hdefined LocalRatio.flat_graded rfl rfl hg⟩

end Invariance

end ImpuritySampler
