import ImpuritySampler.Proofs.LocalRatio.Defined
import ImpuritySampler.Proofs.LocalRatio.Ratio
import ImpuritySampler.Proofs.Move.Decision

/-!
# Closing a gap

A proposal to close the gap between two neighbours can always be made and carried out. It occupies
the gap and nothing else, with one exception: if two segments are all there is and they meet at the
far side of the gap, the merged segment has no length instead of the whole cycle.
-/

set_option autoImplicit false

namespace ImpuritySampler

open Line

variable {α : Type} {beta : α} {l : Line α} {i : ℕ} {p q : Segment α}

/-- The gap at place `i` is the only hole of a line, and it has a segment on either side. -/
def Line.LastHole (l : Line α) (p q : Segment α) : Prop :=
  l.length = 2 ∧ p.annihilation.ticks = q.creation.ticks

theorem Line.Tidy.lastHole_iff (h : Tidy l) (hp : l[i]? = some p)
    (hq : l[nextPlace i l.length]? = some q) :
    l.LastHole p q ↔ ¬(l.length = 1 ∨ p.annihilation.ticks ≠ q.creation.ticks) := by
  rw [not_or, not_not]
  refine ⟨fun ⟨hn, he⟩ => ⟨by omega, he⟩, fun ⟨hn, he⟩ => ⟨h.eq_pair hn hp hq he, he⟩⟩

theorem Line.LastHole.closed_eq (h : l.LastHole p q) (hp : l[i]? = some p)
    (hq : l[nextPlace i l.length]? = some q) (beta : α) :
    closed beta l i p q = [joined p q] := by
  have hn : l.length ≠ 1 := by rw [h.1]; decide
  have hopened : l.opened i = [] := by
    have hlength := (opened_perm hn hp hq).length_eq
    rw [h.1] at hlength
    exact List.eq_nil_of_length_eq_zero (by simpa using hlength)
  rw [closed, if_neg hn, hopened]
  rfl

theorem Line.Tidy.extends_closed (h : Tidy l) (hp : l[i]? = some p)
    (hq : l[nextPlace i l.length]? = some q) (beta : α) :
    Extends l (closed beta l i p q) q.annihilation.ticks p.creation.ticks := by
  have hpw := h.not_whole (List.mem_of_getElem? hp)
  have hqw := h.not_whole (List.mem_of_getElem? hq)
  by_cases hn : l.length = 1
  · obtain ⟨rfl, rfl, -⟩ := eq_singleton hn hp hq
    rw [closed, if_pos hn]
    refine ⟨?_, ?_⟩ <;> rw [bounded_whole (whole_isWhole beta), h.bounded] <;> rfl
  · have hjoined : ¬(Line.joined p q).Whole := fun hj => hj.not_regular
      ⟨(h.regular p (List.mem_of_getElem? hp)).1, (h.regular q (List.mem_of_getElem? hq)).2⟩
    have hold := bounded_perm (opened_perm hn hp hq)
    rw [bounded_cons hpw, bounded_cons hqw] at hold
    have hnew := bounded_perm (put_perm (l.opened i) (Line.joined p q))
    rw [bounded_cons hjoined] at hnew
    rw [closed, if_neg hn]
    have hann := hnew.symm.map (·.annihilation.ticks)
    have hcre := hnew.symm.map (·.creation.ticks)
    exact ⟨(hold.symm.map _).trans ((List.Perm.swap ..).trans (.cons _ hann)),
      (hold.symm.map _).trans (.cons _ hcre)⟩

section Closing

variable [Scalar α]

/-- Ratio of the chances to close a gap of a line of `n` segments and to cut it again, where the
merged segment has a given length. -/
def closingChance (n : ℕ) (length : α) : α :=
  if n = 1 then 1 / (length * length)
  else ((2 : ℕ) : α) * (n : α) / (((n - 1 : ℕ) : α) * length * length)

def closedLength (beta : α) (n : ℕ) (p q : Segment α) : α :=
  if n = 1 then beta else Time.scale (Time.gap p.annihilation.ticks q.creation.ticks) beta

/-- The state `after` is `s` with the gap between `p` and `q` occupied, and `length` is that of the
segment which covers it. -/
structure GapClosed (s after : State α) (color : ℕ) (p q : Segment α) (length : α) : Prop where
  consistent : after.Consistent s.config.beta
  ticks : after.config.ticks color = s.config.ticks color ∪ (between p q).ticks
  others : ∀ k ≠ color, after.config.lineAt k = s.config.lineAt k
  whole : (s.config.lineAt color).length = 1 → length = s.config.beta
  sum : (s.config.lineAt color).length ≠ 1 → ∃ a b c, p.length = .ok a ∧
    (between p q).length = .ok b ∧ q.length = .ok c ∧ length = a.value + b.value + c.value

namespace Proposal

variable {m : Model α} {s : State α} {color : ℕ} {o : Offer α}

theorem regroup_eq_ok [Time.Resolved beta] (hl : s.config.line color = .ok l)
    (hv : l.Valid beta) (ht : Tidy l) (hp : l[i]? = some p) (hq : l[nextPlace i l.length]? = some q)
    (hbeta : s.config.beta = beta) :
    regroup s m color i = .ok o ↔ ∃ trace ratio trial,
      LocalRatio.regroup s.config m color i = .ok trace ∧
      s.tryDrop color (nextPlace i l.length) p.creation = .ok (ratio, trial) ∧
      o = offer trial color (.regroup i) trace ratio
        (closingChance l.length (closedLength beta l.length p q)) := by
  have hpw := (hv.onCycle p (List.mem_of_getElem? hp)).points
    (ht.not_whole (List.mem_of_getElem? hp))
  have hqw := (hv.onCycle q (List.mem_of_getElem? hq)).points
    (ht.not_whole (List.mem_of_getElem? hq))
  have hform : regroup s m color i = (do
      let trace ← LocalRatio.regroup s.config m color i
      let y ← s.tryDrop color (nextPlace i l.length) p.creation
      pure (offer y.2 color (.regroup i) trace y.1
        (closingChance l.length (closedLength beta l.length p q)))) := by
    rw [regroup, hl, Outcome.ok_bind]
    simp only [next_eq (List.getElem?_eq_some_iff.mp hp).1, Outcome.nth_eq_ok.mpr hp,
      Outcome.nth_eq_ok.mpr hq, Outcome.ok_bind]
    by_cases hn : l.length = 1
    · simp only [hn, if_true, hbeta, closingChance, closedLength, Outcome.pure_eq, Outcome.ok_bind]
    · simp only [if_neg hn, Time.sub_eq hpw.1 hqw.2, Outcome.ok_bind, Outcome.pure_eq,
        closingChance, closedLength, Time.value]
  rw [hform]
  refine Outcome.bind_pair_eq_ok ?_
  exact fun _ _ _ => rfl

theorem regroup_offer [Time.Resolved m.beta] (hm : m.Regular) (hs : s.Matched m.beta)
    (hbeta : s.config.beta = m.beta) (hn : s.config.colors = m.colors)
    (hc : color < s.config.colors) (ht : (s.config.lineAt color).Tidy)
    (hp : (s.config.lineAt color)[i]? = some p)
    (hq : (s.config.lineAt color)[nextPlace i (s.config.lineAt color).length]? = some q) :
    ∃ trial trace ratio d,
      regroup s m color i = .ok (offer trial color (.regroup i) trace ratio
        (closingChance (s.config.lineAt color).length
          (closedLength m.beta (s.config.lineAt color).length p q))) ∧
      (offer trial color (.regroup i) trace ratio
        (closingChance (s.config.lineAt color).length
          (closedLength m.beta (s.config.lineAt color).length p q))).Leads s
        (s.replace color (Line.closed m.beta (s.config.lineAt color) i p q) d) ∧
      (Line.closed m.beta (s.config.lineAt color) i p q).HeldBy m.beta d := by
  obtain ⟨d₀, hd₀, -⟩ := hs.determinant hc
  obtain ⟨trace, htrace⟩ := LocalRatio.regroup_defined hm hs.valid hbeta hn hc ht hp hq
  obtain ⟨ratio, t, d, htrial, hheld, -⟩ := hs.tryDrop (c := p.creation) hd₀ ht hq
    (ht.extends_closed hp hq m.beta)
  refine ⟨s.setDeterminant color t, trace, ratio, d, ?_, offer_leads hs hc htrial ?_, hheld⟩
  · exact (regroup_eq_ok (Configuration.line_eq hc) (hs.valid.lineAt hc) ht hp hq hbeta).mpr
      ⟨trace, ratio, _, htrace, htrial.trial, rfl⟩
  · rw [Change.apply, Configuration.regroup_eq hm.beta hbeta hc hp hq, Outcome.ok_bind,
      Outcome.pure_eq]

end Proposal

end Closing

variable [ExactScalar α]

/-- Where two neighbours do not meet at their far ends, the lengths of all parts add up. -/
theorem Line.Valid.joined_length (h : l.Valid beta) (ht : Tidy l) (hn : l.length ≠ 1)
    (hp : l[i]? = some p) (hq : l[nextPlace i l.length]? = some q)
    (hne : p.annihilation.ticks ≠ q.creation.ticks) : ∃ a b c, p.length = .ok a ∧
      (between p q).length = .ok b ∧ q.length = .ok c ∧
      closedLength beta l.length p q = a.value + b.value + c.value := by
  have hpc := h.onCycle p (List.mem_of_getElem? hp)
  have hqc := h.onCycle q (List.mem_of_getElem? hq)
  have hpw := hpc.points (ht.not_whole (List.mem_of_getElem? hp))
  have hqw := hqc.points (ht.not_whole (List.mem_of_getElem? hq))
  have hgap := Segment.onCycle_of_points hpw.2 hqw.1
  obtain ⟨-, hi⟩ := ht.close hp hq (opened_sublist l i) (opened_perm hn hp hq) hne
  refine ⟨_, _, _, hpc.length, hgap.length, hqc.length, ?_⟩
  rw [closedLength, if_neg hn, hi.gap_eq, Time.value, Time.value, Time.value,
    Segment.card_ticks hpc.placed, Segment.card_ticks hgap.placed,
    Segment.card_ticks hqc.placed, ← Time.scale_add, ← Time.scale_add]

namespace Proposal

variable {params : Params α} {m : Model α} {s : State α} {color : ℕ}

/-- Closing any gap of a line with ends, touching segments included, leads to a consistent state
in which the gap is occupied and nothing else has changed, at a price for the length of the two
segments and the gap. The exception is the last hole between two segments: the line that is left
holds one segment without length, and so does not pass the check, and the length of the cycle is
taken to be zero. -/
theorem regroup_closes_gap (hparams : Model.ofParams params = .ok m)
    (hk : ∀ r, params.retarded = some r → r.kernel.Square) (hs : s.Consistent params.beta)
    (hbeta : s.config.beta = params.beta) (hn : s.config.colors = params.colors)
    (hc : color < params.colors) (hfull : s.config.isFull color = .ok false)
    (hp : (s.config.lineAt color)[i]? = some p)
    (hq : (s.config.lineAt color)[nextPlace i (s.config.lineAt color).length]? = some q) :
    ∃ trial trace ratio length after,
      regroup s m color i = .ok (offer trial color (.regroup i) trace ratio
        (closingChance (s.config.lineAt color).length length)) ∧
      (offer trial color (.regroup i) trace ratio
        (closingChance (s.config.lineAt color).length length)).Leads s after ∧
      (¬(s.config.lineAt color).LastHole p q → GapClosed s after color p q length) ∧
      ((s.config.lineAt color).LastHole p q →
        after.config.lineAt color = [⟨p.annihilation, q.creation⟩] ∧
        after.config.ticks color = ∅ ∧ length = 0 ∧ ¬after.Consistent params.beta) := by
  have hm := Model.regular_of_ofParams hparams fun r hr => (hk r hr).numbered
  obtain ⟨-, rfl⟩ := Model.of_ofParams hparams
  have hcc : color < s.config.colors := hn ▸ hc
  have hmatched := (State.consistent_iff hm.beta).mp hs
  have ht := Configuration.tidy_of_isFull hm.beta hmatched.valid hcc hfull
  have hl := hmatched.valid.lineAt hcc
  obtain ⟨trial, trace, ratio, d, hoffer, hleads, hheld⟩ :=
    regroup_offer hm hmatched hbeta hn hcc ht hp hq
  have hline : (s.replace color (Line.closed params.beta (s.config.lineAt color) i p q)
      d).config.lineAt color = Line.closed params.beta (s.config.lineAt color) i p q :=
    Configuration.line_setLine hcc _
  refine ⟨trial, trace, ratio, _, _, hoffer, hleads, fun hlast => ?_, fun hlast => ?_⟩
  · rw [ht.lastHole_iff hp hq, not_not] at hlast
    obtain ⟨hvalid, hticks⟩ := hl.closed ht hp hq hlast
    refine ⟨?_, ?_, fun k hk => ?_, fun hone => ?_, fun hone => ?_⟩
    · rw [hbeta]
      exact (State.consistent_iff hm.beta).mpr (hmatched.replace hcc hvalid hheld)
    · rw [Configuration.ticks, hline]
      exact hticks
    · exact (Configuration.lineAt_setLine hcc k).trans (if_neg hk)
    · rw [closedLength, if_pos hone, hbeta]
    · exact hl.joined_length ht hone hp hq (hlast.resolve_left hone)
  · have hclosed := hlast.closed_eq hp hq params.beta
    have hempty : (joined p q).ticks = ∅ := by
      refine Finset.eq_empty_of_forall_notMem fun t hmem => ?_
      rw [joined, Segment.mem_mk, hlast.2, Time.gap_self] at hmem
      exact Nat.not_lt_zero _ hmem.2
    refine ⟨hline.trans hclosed, ?_, ?_, fun hcons => ?_⟩
    · rw [Configuration.ticks, hline, hclosed, ticks_singleton, hempty]
    · have hone : (s.config.lineAt color).length ≠ 1 := by rw [hlast.1]; decide
      rw [closedLength, if_neg hone, hlast.2, Time.gap_self, Time.scale_zero]
    · have hvalid := ((State.consistent_iff hm.beta).mp hcons).valid.lineAt
        (k := color) (lt_of_lt_of_eq hcc Configuration.colors_setLine.symm)
      rw [hline, hclosed] at hvalid
      exact hvalid.positive (List.mem_singleton_self _) hlast.2

/-- The determinant of two segments that meet at tick ten, one of them around the end of the axis,
with one level at energy zero. -/
noncomputable def meeting : LineDeterminant ℝ where
  element := Hybridization.level.element
  rowKeys := [⟨⟨10, 1⟩, 0⟩, ⟨⟨5, 1⟩, 0⟩]
  colKeys := [⟨⟨10, 1⟩, 0⟩, ⟨⟨3, 1⟩, 0⟩]
  inverse := Grid.ofFn 2 2 fun i j => if i < j then 1 else -1
  value := 1 / (2 : ℕ)
  trial := .idle

noncomputable def touching : State ℝ where
  config := ⟨1, [[⟨⟨10, 1⟩, ⟨5, 1⟩⟩, ⟨⟨3, 1⟩, ⟨10, 1⟩⟩]]⟩
  determinants := [meeting]

theorem touching_tidy : (touching.config.lineAt 0).Tidy :=
  (touching_two_valid 1).tidy List.mem_cons_self (by decide)

theorem touching_consistent : touching.Consistent 1 := by
  refine (State.consistent_iff one_pos).mpr ⟨fun l hl => ?_, rfl, fun k d hd => ?_⟩
  · rw [List.mem_singleton.mp hl]
    exact touching_two_valid 1
  · obtain rfl : k = 0 := by simpa [touching] using (List.getElem?_eq_some_iff.mp hd).1
    cases hd
    have hpoint : ∀ n < 11, (⟨n, 1⟩ : Time ℝ).IsPoint 1 := fun n hn =>
      ⟨rfl, lt_trans hn (by decide)⟩
    have hbounded : (touching.config.lineAt 0).bounded =
        [⟨⟨10, 1⟩, ⟨5, 1⟩⟩, ⟨⟨3, 1⟩, ⟨10, 1⟩⟩] := touching_tidy.bounded
    refine ⟨rfl, ⟨by simp [Falling, meeting], ?_, ?_⟩, ⟨by simp [Falling, meeting], ?_, ?_⟩⟩
    · rw [hbounded]
      exact .swap ..
    · simpa [meeting] using ⟨hpoint 10 (by decide), hpoint 5 (by decide)⟩
    · rw [hbounded]
      exact .refl _
    · simpa [meeting] using ⟨hpoint 10 (by decide), hpoint 3 (by decide)⟩

theorem meeting_exact : meeting.Exact !![-(1 / 2 : ℝ), -(1 / 2); 1 / 2, -(1 / 2)] := by
  have hpoint : ∀ n < 11, (⟨n, 1⟩ : Time ℝ).IsPoint 1 := fun n hn => ⟨rfl, lt_trans hn (by decide)⟩
  have helement : ∀ m < 11, ∀ n < 11, meeting.element ⟨⟨m, 1⟩, 0⟩ ⟨⟨n, 1⟩, 0⟩ =
      .ok (if n ≤ m then -(1 / 2) else 1 / 2) := fun m hm n hn =>
    Hybridization.level_element ⟨hpoint m hm, rfl⟩ ⟨hpoint n hn, rfl⟩
  have hinverse : meeting.inverse.toMatrix 2 = !![-1, 1; -1, -1] := by
    ext i j
    rw [Grid.toMatrix_apply, meeting, Grid.entry_ofFn _ i.isLt j.isLt]
    fin_cases i <;> fin_cases j <;> simp
  refine ⟨Determinant.hasMatrix_iff.mpr ⟨rfl, rfl, fun i j => ?_⟩, ⟨rfl, rfl⟩, ?_, ?_, ?_⟩
  · refine ⟨meeting.rowKeys.get i, meeting.colKeys.get j, List.getElem?_eq_getElem i.isLt,
      List.getElem?_eq_getElem j.isLt, ?_⟩
    fin_cases i <;> fin_cases j <;> exact helement _ (by decide) _ (by decide)
  · rw [hinverse, Matrix.mul_fin_two, Matrix.one_fin_two]
    norm_num
  · rw [hinverse, Matrix.mul_fin_two, Matrix.one_fin_two]
    norm_num
  · rw [Matrix.det_fin_two_of, meeting]
    norm_num

/-- The gap in front of the wrapping segment has no length and is closed; the other one is the last
hole. -/
theorem regroup_closes_gap_touching :
    Model.ofParams LocalRatio.flat = .ok LocalRatio.flatModel ∧ touching.Consistent 1 ∧
    (∃ trial trace ratio length after,
      regroup touching LocalRatio.flatModel 0 1 =
        .ok (offer trial 0 (.regroup 1) trace ratio (closingChance 2 length)) ∧
      (offer trial 0 (.regroup 1) trace ratio (closingChance 2 length)).Leads touching after ∧
      GapClosed touching after 0 ⟨⟨3, 1⟩, ⟨10, 1⟩⟩ ⟨⟨10, 1⟩, ⟨5, 1⟩⟩ length) ∧
    ∃ trial trace ratio length after,
      regroup touching LocalRatio.flatModel 0 0 =
        .ok (offer trial 0 (.regroup 0) trace ratio (closingChance 2 length)) ∧
      (offer trial 0 (.regroup 0) trace ratio (closingChance 2 length)).Leads touching after ∧
      after.config.lineAt 0 = [⟨⟨10, 1⟩, ⟨10, 1⟩⟩] ∧ after.config.ticks 0 = ∅ ∧ length = 0 ∧
        ¬after.Consistent 1 := by
  have hmatched := (State.consistent_iff one_pos).mp touching_consistent
  have hfull : touching.config.isFull 0 = .ok false :=
    Configuration.isFull_of_tidy one_pos hmatched.valid Nat.zero_lt_one touching_tidy
  have hgap := fun i {p q : Segment ℝ} => regroup_closes_gap (i := i) (p := p) (q := q)
    LocalRatio.ofParams_flat LocalRatio.flat_square touching_consistent rfl rfl
    (Nat.zero_lt_one : 0 < LocalRatio.flat.colors) hfull
  obtain ⟨trial, trace, ratio, length, after, hoffer, hleads, hclosed, -⟩ :=
    hgap 1 (p := ⟨⟨3, 1⟩, ⟨10, 1⟩⟩) (q := ⟨⟨10, 1⟩, ⟨5, 1⟩⟩) rfl rfl
  obtain ⟨trial', trace', ratio', length', after', hoffer', hleads', -, hlast⟩ :=
    hgap 0 (p := ⟨⟨10, 1⟩, ⟨5, 1⟩⟩) (q := ⟨⟨3, 1⟩, ⟨10, 1⟩⟩) rfl rfl
  exact ⟨LocalRatio.ofParams_flat, touching_consistent,
    ⟨trial, trace, ratio, length, after, hoffer, hleads, hclosed fun h => absurd h.2 (by decide)⟩,
    trial', trace', ratio', length', after', hoffer', hleads', hlast ⟨rfl, rfl⟩⟩

end Proposal

end ImpuritySampler
