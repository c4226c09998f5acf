import ImpuritySampler.Proofs.Level.Weight
import ImpuritySampler.Proofs.LocalRatio.Undo
import ImpuritySampler.Proofs.Move.Form
import ImpuritySampler.Proofs.Move.Preserve
import ImpuritySampler.Proofs.State.Undo

/-!
# Undoing a proposal

After an insertion has been carried out, the removal of the new segment has the reciprocal weight
and leads back to the state before, and so do a split and the closing of its hole. Each of the
three factors of the weight is inverted on its own.
-/

set_option autoImplicit false

namespace ImpuritySampler

open Line

variable {α : Type} [ExactScalar α] {beta : α} {l : Line α} {s after : State α} {color : ℕ}

/-- The offer `back` undoes the offer `o`, which leads from the state `s` to the state `after`:
their weights are reciprocal, its trial takes out the row and the column that the other one has
put in, and accepting it gives the state `s` again. -/
structure Offer.UndoneBy (o back : Offer α) (s after : State α) (color : ℕ) (sign : Sign) :
    Prop where
  weight : back.weight * o.weight = 1
  places : ∃ (d e : LineDeterminant α) (t : Insertion α (Key α) (Key α)) (r : Removal α),
    o.state.determinant color = .ok d ∧ d.trial = .insertion t ∧
    back.state.determinant color = .ok e ∧ e.trial = .removal r ∧ r.row = t.row ∧ r.col = t.col
  accepts : back.Accepts after s sign

theorem Sign.ofPositive_one_div (r : α) :
    (Sign.ofPositive (1 / r) : Sign) = Sign.ofPositive r := by
  by_cases h : 0 < r
  · rw [Sign.ofPositive, Sign.ofPositive, if_pos h, if_pos (one_div_pos.mpr h)]
  · rw [Sign.ofPositive, Sign.ofPositive, if_neg h, if_neg (mt one_div_pos.mp h)]

variable {a c : Time α} {d : LineDeterminant α} {t : Insertion α (Key α) (Key α)} {r : Removal α}
variable {x : Outcome α (α × State α)} {change reverse : Change α}
variable {trace trace' chance chance' ratio : α} {n : ℕ} {A : Matrix (Fin n) (Fin n) α}

/-- Two changes of one line that invert each other, each with its trial and its factors. -/
theorem State.Matched.undone (hs : s.Matched beta) (hd : s.determinants[color]? = some d)
    (hafter : (s.replace color l (d.commitInsertion t)).Matched beta)
    (hback : (s.replace color l (d.commitInsertion t)).Opens color x (1 / t.ratio)
      { d.commitInsertion t with trial := .removal r } d)
    (hrow : r.row = t.row) (hcol : r.col = t.col) (hratio : t.ratio ≠ 0)
    (htrace : trace' * trace = 1) (hchance : chance' * chance = 1)
    (hreverse : reverse.apply color (s.replace color l (d.commitInsertion t)).config =
      .ok s.config) :
    (Proposal.offer (s.setDeterminant color { d with trial := .insertion t }) color change trace
      t.ratio chance).UndoneBy
      (Proposal.offer ((s.replace color l (d.commitInsertion t)).setDeterminant color
        { d.commitInsertion t with trial := .removal r }) color reverse trace' (1 / t.ratio)
        chance')
      s (s.replace color l (d.commitInsertion t)) color (.ofPositive t.ratio) := by
  have hlt := (List.getElem?_eq_some_iff.mp hd).1
  have hc : color < s.config.colors := hs.count ▸ hlt
  have hcafter : color < (s.replace color l (d.commitInsertion t)).config.colors :=
    lt_of_lt_of_eq hc Configuration.colors_setLine.symm
  constructor
  · show trace' * (1 / t.ratio) * chance' * (trace * t.ratio * chance) = 1
    calc trace' * (1 / t.ratio) * chance' * (trace * t.ratio * chance)
        = trace' * trace * (chance' * chance) * (1 / t.ratio * t.ratio) := by ring
      _ = 1 := by rw [htrace, hchance, one_div_mul_cancel hratio, mul_one, mul_one]
  · refine ⟨_, _, t, r, Outcome.nth_eq_ok.mpr (List.getElem?_set_self hlt), rfl,
      Outcome.nth_eq_ok.mpr (List.getElem?_set_self ?_), rfl, hrow, hcol⟩
    rwa [hafter.count]
  · have hback' : (s.replace color l (d.commitInsertion t)).replace color
        (s.config.lineAt color) d = s := by
      rw [State.replace_replace, State.replace_self hd hc]
    have hconfig : (s.replace color l (d.commitInsertion t)).config.setLine color
        (s.config.lineAt color) = s.config := congrArg State.config hback'
    rw [← Sign.ofPositive_one_div t.ratio]
    exact Offer.Leads.accept ((congrArg (Offer.Leads _ _) hback').mp
      (Proposal.offer_leads hafter hcafter hback (hreverse.trans (by rw [hconfig])))) rfl

/-- A change of one line that adds the operators `a` and `c`, with a trial of nonzero ratio. It
can be accepted, and it is undone by any change that gives the line back and takes `c` out
together with the segment that ends at `a`. -/
theorem State.Matched.pair_undone {trial : State α} (hs : s.Matched beta)
    (hd : s.determinants[color]? = some d) (hexact : d.Exact A) (ha : a.IsPoint beta)
    (hc : c.IsPoint beta) (hv : l.Valid beta) (ht : Tidy l)
    (hl : l.Extends (s.config.lineAt color) a.ticks c.ticks)
    (htrial : s.tryPair color a c = .ok (ratio, trial))
    (hratio : ∀ e, trial.determinant color = .ok e → e.pendingRatio? ≠ some 0)
    (hchange : change.apply color s.config = .ok (s.config.setLine color l)) :
    ∃ after, after.config = s.config.setLine color l ∧
      (Proposal.offer trial color change trace ratio chance).Accepts s after (.ofPositive ratio) ∧
      ∀ j q, l[j]? = some q → q.annihilation.ticks = a.ticks →
        ∃ back, after.tryDrop color j c = .ok (1 / ratio, back) ∧ back.config = after.config ∧
          ∀ reverse trace' chance', trace' * trace = 1 → chance' * chance = 1 →
            reverse.apply color after.config = .ok s.config →
            (Proposal.offer trial color change trace ratio chance).UndoneBy
              (Proposal.offer back color reverse trace' (1 / ratio) chance') s after color
              (.ofPositive ratio) := by
  have hlt := (List.getElem?_eq_some_iff.mp hd).1
  have hcolor : color < s.config.colors := hs.count ▸ hlt
  obtain ⟨t, i, j, B, hsorts, hpriced, hopened, hopens⟩ := hs.of_tryPair hd hexact htrial
  cases hopened
  have hreversible := hpriced.reversible hexact
    (Determinant.isIdle_trial (hs.held color d hd).idle)
  have hnonzero : t.ratio ≠ 0 := fun h => hratio { d with trial := .insertion t }
    (Outcome.nth_eq_ok.mpr (List.getElem?_set_self hlt)) (congrArg some h)
  obtain ⟨-, -, hheld⟩ := hsorts.heldBy (hs.held color d hd) ha hc hv hl
  refine ⟨s.replace color l (d.commitInsertion t), rfl,
    (Proposal.offer_leads hs hcolor hopens hchange).accept rfl, fun j q hj hq => ?_⟩
  obtain ⟨r, hrow, hcol, hback⟩ := hs.tryDrop_inserted hcolor hd hsorts hreversible ha hc hv ht hl
    hnonzero hj hq
  exact ⟨_, hback.trial, rfl, fun reverse trace' chance' htrace hchance hreverse =>
    hs.undone hd (hs.replace hcolor hv hheld) hback hrow hcol hnonzero htrace hchance hreverse⟩

/-- With a single level no trial on an exact determinant has the ratio zero. -/
theorem State.Matched.tryPair_ne_zero {trial : State α} {e : LineDeterminant α}
    (hs : s.Matched beta) (hd : s.determinants[color]? = some d) (hexact : d.Exact A)
    (hlevel : d.OneLevel beta) (ha : a.IsPoint beta) (hc : c.IsPoint beta) (hv : l.Valid beta)
    (hl : l.Extends (s.config.lineAt color) a.ticks c.ticks)
    (htrial : s.tryPair color a c = .ok (ratio, trial)) (he : trial.determinant color = .ok e) :
    e.pendingRatio? ≠ some 0 := by
  obtain ⟨t, i, j, B, hsorts, hpriced, hopened, -⟩ := hs.of_tryPair hd hexact htrial
  cases hopened
  obtain ⟨-, -, hheld⟩ := hsorts.heldBy (hs.held color d hd) ha hc hv hl
  cases (List.getElem?_set_self (List.getElem?_eq_some_iff.mp hd).1).symm.trans
    (Outcome.nth_eq_ok.mp he)
  have hpos := hheld.single_pos hv hlevel hpriced.matrix
  have hratio : t.ratio ≠ 0 := by
    rw [hpriced.ratio]
    exact div_ne_zero (right_ne_zero_of_mul hpos.ne') hexact.det_ne_zero
  exact fun h => hratio (Option.some.inj h)

namespace Proposal

variable {m : Model α} {o : Offer α} {d₁ d₂ : Time α}

/-- After any insertion whose trial has a nonzero ratio, the removal of the new segment undoes it,
whatever the model. -/
theorem insert_undone {index : Option ℕ} {w : Window α} (hb : 0 < beta) (hs : s.Consistent beta)
    (hbeta : s.config.beta = beta) (hd : s.determinant color = .ok d) (hexact : d.Exact A)
    (hindex : Window.Offered (s.config.lineAt color) index)
    (hw : Window.insertion s color index = .ok w) (hp₁ : d₁.period = beta)
    (hp₂ : d₂.period = beta) (h₁ : d₁.ticks < w.length.ticks) (h₂ : d₂.ticks < w.length.ticks)
    (hne : d₁.ticks ≠ d₂.ticks) (ho : insert s m color w d₁ d₂ = .ok o)
    (hratio : ∀ e, o.state.determinant color = .ok e → e.pendingRatio? ≠ some 0) :
    ∃ u sign after, o.proposal = some ⟨color, .insert u, sign⟩ ∧ o.Accepts s after sign ∧
      u ∈ after.config.lineAt color ∧ ∀ i, (after.config.lineAt color)[i]? = some u →
        ∃ back, remove after m color i = .ok back ∧ o.UndoneBy back s after color sign := by
  have hmatched := (State.consistent_iff hb).mp hs
  have hd := Outcome.nth_eq_ok.mp hd
  have hc : color < s.config.colors := hmatched.count ▸ (List.getElem?_eq_some_iff.mp hd).1
  have hv := hmatched.valid.lineAt hc
  have hline := Configuration.line_eq hc
  obtain ⟨w', hw', hinserts⟩ := Window.insertion_defined hb hbeta hline hv hindex
  cases hw'.symm.trans hw
  have hfits := hinserts.fits_spanned h₁ h₂ hne
  obtain ⟨u, hu⟩ : ∃ u, w.spanned (0 < (s.config.lineAt color).length) d₁.ticks d₂.ticks = u :=
    ⟨_, rfl⟩
  rw [hu] at hfits
  have hput := put_place (s.config.lineAt color) u
  have htidy := hfits.tidy_put hv
  obtain ⟨trace, ratio, trial, htrace, htrial, rfl⟩ :=
    (insert_eq_ok hline hinserts hp₁ hp₂ h₁ h₂ hne hu).mp ho
  have hchange : (Change.insert u).apply color s.config =
      .ok (s.config.setLine color ((s.config.lineAt color).put u)) := by
    rw [Change.apply, Configuration.insert_eq hc, Outcome.ok_bind, Outcome.pure_eq]
  obtain ⟨after, hafter, haccepts, hundone⟩ := hmatched.pair_undone hd hexact hfits.annihilation
    hfits.creation (hfits.valid_put hv) htidy (extends_of_perm hfits.not_whole (put_perm _ u))
    htrial hratio hchange
  have hlineAfter : after.config.lineAt color = (s.config.lineAt color).put u := by
    rw [hafter, Configuration.line_setLine hc]
  have hcafter : color < after.config.colors := by rwa [hafter, Configuration.colors_setLine]
  refine ⟨u, _, after, rfl, haccepts, hlineAfter ▸ List.mem_of_getElem? hput, fun i hi => ?_⟩
  rw [hlineAfter] at hi
  obtain rfl := htidy.index_unique hi hput rfl
  obtain ⟨back, hdrop, hback, hundone⟩ := hundone _ u hput rfl
  obtain ⟨trace', htrace', htraces⟩ :=
    LocalRatio.remove_of_insert hc hput (eraseIdx_put _ u) htrace
  have hlength := Window.removalLength_put hb hbeta (by rw [hback, hafter]; exact hbeta) hline hv
    hindex hw h₁ h₂ hne hu (by rw [hback, Configuration.line_eq hcafter, hlineAfter]) hput
  have hpositive : w.length.value ≠ 0 := by
    rw [Time.value, hinserts.length, ne_eq, Time.scale_eq_zero hb]
    exact (Nat.zero_lt_of_lt h₁).ne'
  refine ⟨_, (remove_eq_ok (by rw [Configuration.line_eq hcafter, hlineAfter]) hput).mpr
    ⟨trace', 1 / ratio, back, w.length, by rwa [hafter], hdrop, hlength, rfl⟩,
    hundone _ _ _ htraces ?_ ?_⟩
  · rw [length_put]
    exact removal_insertion_chance _ hpositive
  · rw [Change.apply, Configuration.remove_eq hcafter (by rw [hlineAfter, hput]), hlineAfter,
      eraseIdx_put, hafter, Configuration.setLine_setLine, Configuration.setLine_lineAt hc,
      Outcome.ok_bind, Outcome.pure_eq]

theorem meeting_oneLevel : meeting.OneLevel 1 := ⟨0, 1, one_ne_zero, rfl⟩

theorem insert_undone_touching :
    touching.Consistent 1 ∧ touching.determinant 0 = .ok meeting ∧
    meeting.Exact !![-(1 / 2 : ℝ), -(1 / 2); 1 / 2, -(1 / 2)] ∧
    Window.insertion touching 0 (some 0) = .ok ⟨⟨5, 1⟩, ⟨2, 1⟩⟩ ∧
    ∃ o, insert touching LocalRatio.flatModel 0 ⟨⟨5, 1⟩, ⟨2, 1⟩⟩ ⟨0, 1⟩ ⟨1, 1⟩ = .ok o ∧
      (∀ e, o.state.determinant 0 = .ok e → e.pendingRatio? ≠ some 0) ∧
      ∃ u sign after, o.proposal = some ⟨0, .insert u, sign⟩ ∧
        o.Accepts touching after sign ∧ u ∈ after.config.lineAt 0 ∧
        ∀ i, (after.config.lineAt 0)[i]? = some u →
          ∃ back, remove after LocalRatio.flatModel 0 i = .ok back ∧
            o.UndoneBy back touching after 0 sign := by
  have hset := touching_setting
  have hline : touching.config.line 0 = .ok (touching.config.lineAt 0) := rfl
  have hindex : Window.Offered (touching.config.lineAt 0) (some 0) := Nat.zero_lt_two
  obtain ⟨w, hw, hinserts⟩ := Window.insertion_defined one_pos rfl hline hset.line hindex
  cases touching_window.symm.trans hw
  have h₁ : 0 < 2 := by decide
  have h₂ : 1 < 2 := by decide
  have hne : 0 ≠ 1 := by decide
  obtain ⟨o, ho⟩ : ∃ o, insert touching LocalRatio.flatModel 0 ⟨⟨5, 1⟩, ⟨2, 1⟩⟩ ⟨0, 1⟩ ⟨1, 1⟩ =
      .ok o := (hset.insert_moves hinserts rfl rfl h₁ h₂ hne).imp fun _ h => h.1
  have hfits := hinserts.fits_spanned h₁ h₂ hne
  obtain ⟨trace, ratio, trial, -, htrial, rfl⟩ :=
    (insert_eq_ok hline hinserts rfl rfl h₁ h₂ hne rfl).mp ho
  have hratio : ∀ e, trial.determinant 0 = .ok e → e.pendingRatio? ≠ some 0 := fun e =>
    hset.matched.tryPair_ne_zero rfl meeting_exact meeting_oneLevel hfits.annihilation
      hfits.creation (hfits.valid_put hset.line)
      (extends_of_perm hfits.not_whole (put_perm _ _)) htrial
  exact ⟨touching_consistent, rfl, meeting_exact, touching_window, _, ho, hratio,
    insert_undone one_pos touching_consistent rfl rfl meeting_exact hindex touching_window rfl rfl
      h₁ h₂ hne ho hratio⟩

/-- After any split that is not degenerate and whose trial has a nonzero ratio, closing the hole at
the piece that starts at its end undoes it, whatever the model. -/
theorem split_undone {w : Window α} {i : ℕ} (hb : 0 < beta) (hs : s.Consistent beta)
    (hbeta : s.config.beta = beta) (hd : s.determinant color = .ok d) (hexact : d.Exact A)
    (hw : Window.split s color i = .ok w) (hp₁ : d₁.period = beta) (hp₂ : d₂.period = beta)
    (h₁ : d₁.ticks < w.length.ticks) (h₂ : d₂.ticks < w.length.ticks)
    (ho : split s m color i d₁ d₂ = .ok o) (hproposed : o.proposal.isSome)
    (hratio : ∀ e, o.state.determinant color = .ok e → e.pendingRatio? ≠ some 0) :
    ∃ a c sign after, o.proposal = some ⟨color, .split i a c, sign⟩ ∧ o.Accepts s after sign ∧
      (∃ q ∈ after.config.lineAt color, q.creation = c) ∧
      ∀ j q, (after.config.lineAt color)[j]? = some q → q.creation.ticks = c.ticks →
        ∃ back, regroup after m color j = .ok back ∧ o.UndoneBy back s after color sign := by
  have hmatched := (State.consistent_iff hb).mp hs
  have hd := Outcome.nth_eq_ok.mp hd
  have hc : color < s.config.colors := hmatched.count ▸ (List.getElem?_eq_some_iff.mp hd).1
  have hv := hmatched.valid.lineAt hc
  have hline := Configuration.line_eq hc
  obtain ⟨u, hu, hcycle, rfl⟩ : ∃ u, (s.config.lineAt color)[i]? = some u ∧ u.OnCycle beta ∧
      w = ⟨u.annihilation, ⟨u.ticks.card, beta⟩⟩ := Window.of_split hv hline hw
  dsimp only at h₁ h₂
  have hfull := Configuration.isFull_eq hb hmatched.valid hc hu
  have hsplits : Splits u d₁.ticks d₂.ticks := by
    by_contra hd
    rw [split_degenerate hline hfull hd] at ho
    cases ho
    cases hproposed
  obtain ⟨⟨c, a⟩, hac⟩ : ∃ h, Window.spanned ⟨u.annihilation, ⟨u.ticks.card, beta⟩⟩ (¬u.Whole)
      d₁.ticks d₂.ticks = h := ⟨_, rfl⟩
  obtain ⟨hhole, ha, hcp⟩ := hcycle.hole_spanned h₁ h₂ hsplits.1 hsplits.2 hac
  have hvalid := hv.holed hu ha hcp hhole
  have htidy := hv.tidy_holed hu hhole
  obtain ⟨trace, ratio, trial, htrace, htrial, rfl⟩ :=
    (split_eq_ok hline hu hcycle hfull hp₁ hp₂ h₁ h₂ hsplits.1 hsplits.2 hac).mp ho
  have hchange : (Change.split i a c).apply color s.config =
      .ok (s.config.setLine color ((s.config.lineAt color).holed i u a c)) :=
    Configuration.split_eq hb hmatched.valid hc hu
  obtain ⟨after, hafter, haccepts, hundone⟩ := hmatched.pair_undone hd hexact ha hcp hvalid htidy
    (hv.holed_extends hu ha hcp) htrial hratio hchange
  have hlineAfter : after.config.lineAt color = (s.config.lineAt color).holed i u a c := by
    rw [hafter, Configuration.line_setLine hc]
  have hcafter : color < after.config.colors := by rwa [hafter, Configuration.colors_setLine]
  refine ⟨a, c, _, after, rfl, haccepts, ?_, fun j q hj hq => ?_⟩
  · obtain ⟨k, p, -, hp, -, -, -, hcreation, -⟩ := hv.closed_holed hu ha hcp hhole
    exact ⟨p, hlineAfter ▸ List.mem_of_getElem? hp, hcreation⟩
  rw [hlineAfter] at hj
  obtain ⟨r, hr, rfl, rfl, hmerged, hclosed⟩ := hv.piece_holed hu ha hcp hhole hj hq
  obtain ⟨back, hdrop, hback, hundone⟩ := hundone _ r hr rfl
  obtain ⟨trace', htrace', htraces⟩ := LocalRatio.regroup_of_split hb hbeta hc hj hr hclosed htrace
  refine ⟨_, (regroup_eq_ok (by rw [Configuration.line_eq hcafter, hlineAfter]) hvalid htidy hj hr
    (by rw [hafter]; exact hbeta)).mpr ⟨trace', 1 / ratio, back, by rwa [hafter], hdrop, rfl⟩,
    hundone _ _ _ htraces (closing_holed_chance hb hv hu hmerged) ?_⟩
  rw [Change.apply, hafter, Configuration.regroup_setLine hb hbeta hc hj hr, hclosed,
    Configuration.setLine_lineAt hc, Outcome.ok_bind, Outcome.pure_eq]

theorem split_undone_touching :
    touching.Consistent 1 ∧ touching.determinant 0 = .ok meeting ∧
    meeting.Exact !![-(1 / 2 : ℝ), -(1 / 2); 1 / 2, -(1 / 2)] ∧
    ∃ w, Window.split touching 0 1 = .ok w ∧ 1 < w.length.ticks ∧ 5 < w.length.ticks ∧
      ∃ o, split touching LocalRatio.flatModel 0 1 ⟨1, 1⟩ ⟨5, 1⟩ = .ok o ∧ o.proposal.isSome ∧
        (∀ e, o.state.determinant 0 = .ok e → e.pendingRatio? ≠ some 0) ∧
        ∃ a c sign after, o.proposal = some ⟨0, .split 1 a c, sign⟩ ∧
          o.Accepts touching after sign ∧ (∃ q ∈ after.config.lineAt 0, q.creation = c) ∧
          ∀ j q, (after.config.lineAt 0)[j]? = some q → q.creation.ticks = c.ticks →
            ∃ back, regroup after LocalRatio.flatModel 0 j = .ok back ∧
              o.UndoneBy back touching after 0 sign := by
  have hset := touching_setting
  have hline : touching.config.line 0 = .ok (touching.config.lineAt 0) := rfl
  obtain ⟨u, hu⟩ : ∃ u : Segment ℝ, ⟨⟨3, 1⟩, ⟨10, 1⟩⟩ = u := ⟨_, rfl⟩
  have hget : (touching.config.lineAt 0)[1]? = some u := congrArg some hu
  have hcycle := hset.line.onCycle u (List.mem_of_getElem? hget)
  have hcard : u.ticks.card = Time.gap 3 10 := by
    rw [Segment.card_ticks hcycle.placed, ← hu]
  have h₁ : 1 < u.ticks.card := hcard ▸ by decide
  have h₂ : 5 < u.ticks.card := hcard ▸ by decide
  have hsplits : Splits u 1 5 := ⟨by decide, fun _ => ⟨by decide, by decide⟩⟩
  obtain ⟨⟨c, a⟩, hac⟩ : ∃ h, Window.spanned ⟨u.annihilation, ⟨u.ticks.card,
      LocalRatio.flat.beta⟩⟩ (¬u.Whole) (⟨1, 1⟩ : Time ℝ).ticks (⟨5, 1⟩ : Time ℝ).ticks = h :=
    ⟨_, rfl⟩
  obtain ⟨hhole, ha, hc⟩ := hcycle.hole_spanned h₁ h₂ hsplits.1 hsplits.2 hac
  obtain ⟨o, ho⟩ : ∃ o, split touching LocalRatio.flatModel 0 1 ⟨1, 1⟩ ⟨5, 1⟩ = .ok o :=
    (hset.split_moves hget rfl rfl h₁ h₂ hsplits).imp fun _ h => h.1
  obtain ⟨trace, ratio, trial, -, htrial, rfl⟩ := (split_eq_ok hline hget hcycle (hset.isFull hget)
    rfl rfl h₁ h₂ hsplits.1 hsplits.2 hac).mp ho
  have hratio : ∀ e, trial.determinant 0 = .ok e → e.pendingRatio? ≠ some 0 := fun e =>
    hset.matched.tryPair_ne_zero rfl meeting_exact meeting_oneLevel ha hc
      (hset.line.holed hget ha hc hhole) (hset.line.holed_extends hget ha hc) htrial
  obtain ⟨w, hw, hlength⟩ : ∃ w, Window.split touching 0 1 = .ok w ∧
      w.length.ticks = u.ticks.card := by
    refine ⟨_, Window.split_eq hline hget hcycle, ?_⟩
    dsimp only
  rw [← hlength] at h₁ h₂
  exact ⟨touching_consistent, rfl, meeting_exact, w, hw, h₁, h₂, _, ho, rfl, hratio,
    split_undone one_pos touching_consistent rfl rfl meeting_exact hw rfl rfl h₁ h₂ ho rfl hratio⟩

end Proposal

end ImpuritySampler
