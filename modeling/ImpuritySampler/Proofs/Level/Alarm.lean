import ImpuritySampler.Proofs.Chain.Sign
import ImpuritySampler.Proofs.Level.Weight
import ImpuritySampler.Proofs.Move.Partner
import ImpuritySampler.Proofs.Shift.Weight

/-!
# No false alarm with one level

When a proposal is accepted, the change of the trace sign is compared with the sign of the
determinant ratio. With a single bath level the two always agree, as the trace sign of each color is
the sign of its determinant. Accepting keeps the determinants exact, so that this holds along every
chain of accepted proposals.
-/

set_option autoImplicit false

namespace ImpuritySampler

open Line

variable {α : Type} [ExactScalar α] {beta : α}

namespace Sign

variable {s : Sign} {a b : α}

theorem ofPositive_eq (h : 0 < s.toScalar * a) : ofPositive a = s := by
  cases s with
  | plus => exact if_pos (by simpa [toScalar, apply] using h)
  | minus => exact if_neg (by simpa [toScalar, apply] using h.le)

theorem ofPositive_div (ha : a ≠ 0) (hb : b ≠ 0) :
    ofPositive (b / a) = ofPositive b * ofPositive a := by
  rw [div_eq_mul_one_div, ofPositive_mul hb (one_div_ne_zero ha), ofPositive_one_div]

end Sign

section Determinants

variable {X Y : Type} {d : Determinant α X Y} {n : ℕ} {A : Matrix (Fin n) (Fin n) α}

/-- The determinant `e` is what a trial on `d` of the given ratio leaves. -/
structure Determinant.Follows (d e : Determinant α X Y) (ratio : α) : Prop where
  element : e.element = d.element
  price : ∃ (n m : ℕ) (A : Matrix (Fin n) (Fin n) α) (B : Matrix (Fin m) (Fin m) α),
    d.HasMatrix A ∧ e.HasMatrix B ∧ ratio = B.det / A.det ∧ (ratio ≠ 0 → e.Exact B)

theorem Determinant.PricedInsertion.follows {i j : Fin (n + 1)} {t : Insertion α X Y}
    {B : Matrix (Fin (n + 1)) (Fin (n + 1)) α} (h : d.PricedInsertion A i j t B)
    (hd : d.Exact A) : d.Follows (d.commitInsertion t) t.ratio :=
  ⟨rfl, n, n + 1, A, B, hd.matrix, h.matrix, h.ratio, Determinant.commitInsertion_exact hd h⟩

theorem Determinant.Exact.removal_follows {row col : ℕ} (hd : d.Exact A) (hrow : row < d.size)
    (hcol : col < d.size) :
    d.Follows (d.commitRemoval (d.removalTrial row col)) (d.removalTrial row col).ratio := by
  obtain ⟨k, rfl⟩ : ∃ k, n = k + 1 := ⟨n - 1, by have hn := hd.size; omega⟩
  have hn := hd.size
  let i : Fin (k + 1) := ⟨row, by omega⟩
  let j : Fin (k + 1) := ⟨col, by omega⟩
  exact ⟨rfl, k + 1, k, A, Border.core A i j, hd.matrix,
    Determinant.commitRemoval_hasMatrix hd.matrix i j, Determinant.removalTrial_ratio_eq hd i j,
    Determinant.commitRemoval_exact hd i j⟩

end Determinants

section Trials

variable {s trial : State α} {color : ℕ} {d : LineDeterminant α} {ratio : α}
variable {l : Line α} {n : ℕ} {A : Matrix (Fin n) (Fin n) α}

/-- The trial on the determinant `d` of a color, carried out, leaves one that holds the line `l`. -/
def State.Prepares (beta : α) (s : State α) (color : ℕ) (d : LineDeterminant α) (l : Line α)
    (ratio : α) (trial : State α) : Prop :=
  ∃ t f, s.Opens color (.ok (ratio, trial)) ratio t f ∧ l.HeldBy beta f ∧ d.Follows f ratio

theorem State.Matched.prepares (hs : s.Matched beta) (hd : s.determinants[color]? = some d)
    (hexact : d.Exact A) (hl : l.Valid beta) (h : s.Exchanges beta color l (ratio, trial)) :
    s.Prepares beta color d l ratio trial := by
  cases h with
  | pair ha hc hm h =>
    obtain ⟨t, i, j, B, hsorts, hpriced, hopened, hopens⟩ := hs.of_tryPair hd hexact h
    cases hopened
    rw [h] at hopens
    exact ⟨_, _, hopens, (hsorts.heldBy (hs.held color d hd) ha hc hl hm).2.2,
      hpriced.follows hexact⟩
  | drop ht hq hm h =>
    obtain ⟨row, hrow, hcol, hopens, hheld⟩ := hs.tryDrop_removal hd ht hq hm
    cases hopens.trial.symm.trans h
    rw [h] at hopens
    exact ⟨_, _, hopens, hheld, hexact.removal_follows hrow hcol⟩

end Trials

section Levels

variable {d f : LineDeterminant α} {l m : Line α} {ratio : α}

theorem Line.HeldBy.agree (h : l.HeldBy beta d) (h' : m.HeldBy beta f) (hl : l.Valid beta)
    (hm : m.Valid beta) (hd : d.OneLevel beta) (hf : d.Follows f ratio) :
    ratio ≠ 0 ∧ .ofPositive ratio = m.traceSign * l.traceSign := by
  obtain ⟨helement, n, k, A, B, hA, hB, rfl, -⟩ := hf
  have hposA := h.single_pos hl hd hA
  have hposB := h'.single_pos hm (by rwa [Determinant.OneLevel, helement]) hB
  have hneA := right_ne_zero_of_mul hposA.ne'
  have hneB := right_ne_zero_of_mul hposB.ne'
  exact ⟨div_ne_zero hneB hneA, by
    rw [Sign.ofPositive_div hneA hneB, Sign.ofPositive_eq hposA, Sign.ofPositive_eq hposB]⟩

/-- A consistent state with exact determinants, each of a bath with one level. -/
structure State.OneLevel (beta : α) (s : State α) : Prop where
  consistent : s.Consistent beta
  period : s.config.beta = beta
  bath : ∀ d ∈ s.determinants, d.OneLevel beta
  exact : ∀ d ∈ s.determinants, ∃ (n : ℕ) (A : Matrix (Fin n) (Fin n) α), d.Exact A

variable {s : State α} {color : ℕ} {model : Model α} {o : Offer α} {x : Draw α} {change : Change α}

theorem State.OneLevel.replace (h : s.OneLevel beta) (hb : 0 < beta) (hc : color < s.config.colors)
    (hm : m.Valid beta) (hd : s.determinants[color]? = some d) (hf : m.HeldBy beta f)
    (hfollows : d.Follows f ratio) (hratio : ratio ≠ 0) :
    (s.replace color m f).OneLevel beta := by
  have hmatched := (consistent_iff hb).mp h.consistent
  obtain ⟨helement, -, k, -, B, -, -, -, hexact⟩ := hfollows
  refine ⟨(consistent_iff hb).mpr (hmatched.replace hc hm hf), h.period, fun g hg => ?_,
    fun g hg => ?_⟩
  · rcases List.mem_or_eq_of_mem_set hg with hg | rfl
    · exact h.bath g hg
    · rw [Determinant.OneLevel, helement]
      exact h.bath d (List.mem_of_getElem? hd)
  · rcases List.mem_or_eq_of_mem_set hg with hg | rfl
    · exact h.exact g hg
    · exact ⟨k, B, hexact hratio⟩

omit [ExactScalar α] in
theorem Configuration.traceSign_setLine {c : Configuration α} (hc : color < c.colors) (m : Line α) :
    (c.setLine color m).traceSign * c.traceSign = m.traceSign * (c.lineAt color).traceSign := by
  rw [Configuration.traceSign, Configuration.traceSign, Configuration.setLine,
    foldl_set_sign (Configuration.getElem?_lines hc)]
  generalize c.lines.foldl (fun sign l => sign * l.traceSign) .plus = a
  rw [Sign.mul_comm, Sign.mul_self_cancel, Sign.mul_comm]

theorem State.OneLevel.accepts (h : s.OneLevel beta) (hb : 0 < beta) (hc : color < s.config.colors)
    (hx : x.Edits beta (s.config.lineAt color) change m)
    (hlast : ¬x.ClosesLast (s.config.lineAt color)) (ho : x.propose s model color = .ok o) :
    ∃ sign after, o.proposal = some ⟨color, change, sign⟩ ∧ after.OneLevel beta ∧
      ∀ v : Mover α, (v.hold o).accept o.state =
        .ok (sign, { v with proposal := none, accepted := v.accepted + 1 }, after) := by
  have hmatched := (consistent_iff hb).mp h.consistent
  have hv := hmatched.valid.lineAt hc
  have hm := hx.valid hv hlast
  obtain ⟨d, hd, hheld⟩ := hmatched.determinant hc
  have hmem := List.mem_of_getElem? hd
  obtain ⟨n, A, hexact⟩ := h.exact d hmem
  obtain ⟨trace, ratio, chance, trial, rfl, hexchanges⟩ :=
    hx.offered hb hmatched.valid h.period hc ho
  obtain ⟨t, f, hopens, hf, hfollows⟩ := hmatched.prepares hd hexact hm hexchanges
  obtain ⟨hratio, hsign⟩ := hheld.agree hf hv hm (h.bath d hmem) hfollows
  cases hopens.trial
  refine ⟨_, s.replace color m f, rfl, h.replace hb hc hm hd hf hfollows hratio, ?_⟩
  refine ((Proposal.offer_leads hmatched hc hopens
    (hx.apply hb hmatched.valid h.period hc)).accept rfl).agree ?_
  exact (Configuration.traceSign_setLine hc m).trans hsign.symm

end Levels

/-- With a single level there is no sign problem. On every valid line with operators, the product of
the trace sign and the determinant is a positive weight: one factor for the times of the operators,
and one for the chance to find the level as it is at the end of the axis. So on every consistent
state with exact determinants, accepting raises no alarm, whatever has been drawn, and leads to such
a state again. Only the closing of the last hole between two segments is left out, as it leaves no
valid line. -/
theorem State.one_level_signs (hb : 0 < beta) :
    (∀ (e v : α) (l : Line α) (d : LineDeterminant α), v ≠ 0 → l.Valid beta → l ≠ [] →
      (∀ s ∈ l, ¬s.Whole) → l.HeldBy beta d →
      d.element = (Hybridization.bath beta [⟨e, [v]⟩]).element →
      ∃ det, d.keyDeterminant = .ok det ∧
        l.traceSign.toScalar * det = v ^ (2 * l.length) *
          Scalar.exp (e * ((l.map (·.annihilation.value)).sum - (l.map (·.creation.value)).sum)) *
          (if l.wraps then 1 / (1 + Scalar.exp (-beta * e))
          else Scalar.exp (-beta * e) / (1 + Scalar.exp (-beta * e))) ∧
        0 < l.traceSign.toScalar * det) ∧
    ∀ (s : State α) (m : Model α) (color : ℕ) (x : Draw α) (o : Offer α) (p : Proposal α),
      s.OneLevel beta → color < s.config.colors → x.Possible s color →
      ¬x.ClosesLast (s.config.lineAt color) → x.propose s m color = .ok o → o.proposal = some p →
      ∃ after, after.OneLevel beta ∧ ∀ w : Mover α, (w.hold o).accept o.state =
        .ok (p.determinantSign, { w with proposal := none, accepted := w.accepted + 1 },
          after) := by
  constructor
  · intro e v l d hne hv hl hw hheld helement
    obtain ⟨s, hs⟩ := List.exists_mem_of_ne_nil l hl
    obtain ⟨A, hA, hdet⟩ := hheld.single_det hv (hv.tidy hs (hw s hs)) hl helement
    exact ⟨A.det, hA.keyDeterminant, hdet, hheld.single_pos hv ⟨e, v, hne, helement⟩ hA⟩
  · intro s m color x o p h hc hx hlast ho hp
    have hvalid := ((consistent_iff hb).mp h.consistent).valid
    rcases Draw.exists_edits hb hvalid h.period hc hx with hnone | ⟨change, l, hedit⟩
    · cases (hnone m).symm.trans ho
      cases hp
    · obtain ⟨sign, after, hproposal, hafter, haccept⟩ := h.accepts hb hc hedit hlast ho
      cases hproposal.symm.trans hp
      exact ⟨after, hafter, haccept⟩

/-- At energy zero two segments around the end of the axis have weight one half, and a segment put
at the end of one of them is accepted. -/
theorem State.one_level_signs_touching :
    (∃ det, Proposal.meeting.keyDeterminant = .ok det ∧
      (Proposal.touching.config.lineAt 0).traceSign.toScalar * det = 1 / 2) ∧
    Proposal.touching.OneLevel 1 ∧
    (Draw.insert (some 0) ⟨0, 1⟩ ⟨1, 1⟩).Possible Proposal.touching 0 ∧
    ∃ o p after, (Draw.insert (some 0) ⟨0, 1⟩ ⟨1, 1⟩).propose Proposal.touching
        LocalRatio.flatModel 0 = .ok o ∧ o.proposal = some p ∧ after.OneLevel 1 ∧
      ∀ w : Mover ℝ, (w.hold o).accept o.state =
        .ok (p.determinantSign, { w with proposal := none, accepted := w.accepted + 1 },
          after) := by
  obtain ⟨hline, hstate⟩ := one_level_signs (one_pos : (0 : ℝ) < 1)
  have hset := Proposal.touching_setting
  have ht := Proposal.touching_tidy
  constructor
  · have hwraps : wraps (Proposal.touching.config.lineAt 0) = true := by decide
    obtain ⟨det, hdet, hweight, -⟩ := hline 0 1 (Proposal.touching.config.lineAt 0) _ one_ne_zero
      hset.line (List.cons_ne_nil _ _) (fun s hs => ht.not_whole hs) (hset.matched.held 0 _ rfl) rfl
    refine ⟨det, hdet, ?_⟩
    rw [hweight, hwraps, if_pos rfl, zero_mul, mul_zero, Scalar.exp_zero, one_pow]
    norm_num
  · have hlevel : Proposal.touching.OneLevel 1 := by
      refine ⟨Proposal.touching_consistent, rfl, fun d hd => ?_, fun d hd => ?_⟩ <;>
        obtain rfl := List.mem_singleton.mp hd
      · exact Proposal.meeting_oneLevel
      · exact ⟨2, _, Proposal.meeting_exact⟩
    have hpossible : (Draw.insert (some 0) ⟨0, 1⟩ ⟨1, 1⟩).Possible Proposal.touching 0 :=
      ⟨Configuration.isFull_of_tidy one_pos hset.matched.valid Nat.zero_lt_one ht, Nat.zero_lt_two,
        _, Proposal.touching_window, ⟨by decide, rfl⟩, ⟨by decide, rfl⟩⟩
    have hline : Proposal.touching.config.line 0 = .ok (Proposal.touching.config.lineAt 0) := rfl
    obtain ⟨w, hw, hinserts⟩ := Window.insertion_defined one_pos rfl hline hset.line
      (show Window.Offered (Proposal.touching.config.lineAt 0) (some 0) from Nat.zero_lt_two)
    cases Proposal.touching_window.symm.trans hw
    obtain ⟨o, ho, u, -, sign, -, hp, -⟩ :
        ∃ o, Proposal.insert Proposal.touching LocalRatio.flatModel 0 _ ⟨0, 1⟩ ⟨1, 1⟩ = .ok o ∧ _ :=
      hset.insert_moves hinserts rfl rfl (by decide) (by decide) (by decide)
    have ho : (Draw.insert (some 0) ⟨0, 1⟩ ⟨1, 1⟩).propose Proposal.touching
        LocalRatio.flatModel 0 = .ok o := by
      rw [Draw.propose, hw, Outcome.ok_bind, ho]
    obtain ⟨after, hafter, haccept⟩ := hstate _ _ 0 _ o _ hlevel Nat.zero_lt_one hpossible id ho hp
    exact ⟨hlevel, hpossible, o, _, after, ho, hp, hafter, haccept⟩

end ImpuritySampler
