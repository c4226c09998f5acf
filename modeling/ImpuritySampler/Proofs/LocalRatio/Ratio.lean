import ImpuritySampler.Proofs.Configuration.Edit
import ImpuritySampler.Proofs.Hybridization
import ImpuritySampler.Proofs.LocalRatio.Formula

/-!
# Ratios are ratios of one weight

The sums that the four moves evaluate, each with its own signs and its own segment left out, are
differences of the logarithm of one weight.
-/

set_option autoImplicit false

namespace ImpuritySampler

variable {α : Type} [ExactScalar α]

structure Model.Physical (m : Model α) : Prop where
  regular : m.Regular
  kernel : m.SymmetricKernel
  interaction : ∀ k < m.colors, ∀ d < m.colors,
    m.interaction.entry k d = m.interaction.entry d k

theorem Model.physical_of_ofParams {p : Params α} {m : Model α} (h : Model.ofParams p = .ok m)
    (hk : ∀ r, p.retarded = some r → r.kernel.Square) (hs : m.SymmetricKernel) : m.Physical := by
  refine ⟨Model.regular_of_ofParams h fun r hr => (hk r hr).numbered, hs, fun k hk d hd => ?_⟩
  obtain ⟨hsound, rfl⟩ := Model.of_ofParams h
  exact (Grid.entry_ofFn p.coupling hk hd).trans
    ((hsound.coupling_comm hk hd).trans (Grid.entry_ofFn p.coupling hd hk).symm)

namespace LocalRatio

variable {m : Model α} {c : Configuration α} {color i : ℕ} {l : Line α} {s : Segment α}
variable {a h : Time α}

omit [ExactScalar α] in
theorem ticks_setLine (hc : color < c.colors) (l : Line α) (k : ℕ) :
    (c.setLine color l).ticks k = if k = color then Line.ticks l else c.ticks k := by
  rw [Configuration.ticks, Configuration.lineAt_setLine hc]
  split_ifs <;> rfl

theorem gain_setLine (hc : color < c.colors) (l : Line α) (u : Finset ℕ) :
    m.gain (c.setLine color l).ticks color u = m.gain c.ticks color u := by
  have hothers : (otherColors m.colors color).map (fun k =>
        m.interaction.entry color k *
          Time.scale (u ∩ (c.setLine color l).ticks k).card m.beta) =
      (otherColors m.colors color).map fun k =>
        m.interaction.entry color k * Time.scale (u ∩ c.ticks k).card m.beta :=
    List.map_congr_left fun k hk => by
      rw [ticks_setLine hc, if_neg (mem_otherColors.mp hk).1]
  rw [Model.gain, hothers, Model.gain]

theorem occupationLog_setLine (hm : m.Physical) (hn : c.colors = m.colors) (hc : color < c.colors)
    {u : Finset ℕ} (hd : Disjoint (c.ticks color) u) (hl : Line.ticks l = c.ticks color ∪ u) :
    m.occupationLog (c.setLine color l).ticks =
      m.occupationLog c.ticks + m.gain c.ticks color u :=
  Model.occupationLog_grow (hn ▸ hc) hm.interaction hd fun k => by rw [ticks_setLine hc, hl]

theorem splitLog_eq (hm : m.Physical) (hv : c.Valid m.beta) (hn : c.colors = m.colors)
    (hc : color < c.colors) (ha : a.IsPoint m.beta) (hh : h.IsPoint m.beta)
    (hd : Disjoint (Line.ticks l) (Segment.mk h a).ticks)
    (hl : c.ticks color = Line.ticks l ∪ (Segment.mk h a).ticks)
    (hends : (l.ends color).Perm
      (⟨h.ticks, color, .plus⟩::⟨a.ticks, color, .minus⟩::(c.lineAt color).ends color)) :
    splitLog c m color a h = .ok (m.weightLog (c.setLine color l) - m.weightLog c) := by
  have hcm : color < m.colors := hn ▸ hc
  have hself : (c.setLine color l).setLine color (c.lineAt color) = c := by
    rw [Configuration.setLine_setLine, Configuration.setLine_lineAt hc]
  have hcolors : (c.setLine color l).colors = c.colors := Configuration.colors_setLine
  have hticks : (c.setLine color l).ticks color = Line.ticks l := by
    rw [ticks_setLine hc, if_pos rfl]
  -- the configuration before the cut grows from the one after it
  have hgrow := occupationLog_setLine (c := c.setLine color l) hm (hcolors.trans hn)
    (by rwa [hcolors]) (by rwa [hticks]) (by rw [hticks]; exact hl)
  rw [hself, gain_setLine hc] at hgrow
  have hall : (c.setLine color l).ends.Perm
      ([⟨h.ticks, color, .plus⟩, ⟨a.ticks, color, .minus⟩] ++ c.ends) :=
    Configuration.ends_setLine hc hends
  have hpairs := Model.pairSum_ends hm.regular.beta hm.kernel hv hn ⟨hh.lt, hcm⟩ ⟨ha.lt, hcm⟩ hall
  rw [splitLog, density_eq hm.regular (readable_of_valid hv color) hn hcm
      (Segment.onCycle_of_points hh ha), Outcome.ok_bind,
    retarded_eq hm.regular hv.onCycle hn hcm ha hh, Outcome.ok_bind, Outcome.pure_eq,
    Model.weightLog, Model.weightLog, hpairs, hgrow]
  congr 1
  ring

theorem insertLog_eq (hm : m.Physical) (hv : c.Valid m.beta) (hn : c.colors = m.colors)
    (hc : color < c.colors) (hs : s.OnCycle m.beta) (hw : ¬s.Whole)
    (hd : Disjoint (c.ticks color) s.ticks) (hl : l.Perm (s::c.lineAt color)) :
    insertLog c m color s none = .ok (m.weightLog (c.setLine color l) - m.weightLog c) := by
  have hcm : color < m.colors := hn ▸ hc
  obtain ⟨ha, hh⟩ := hs.points hw
  have hticks : Line.ticks l = c.ticks color ∪ s.ticks := by
    rw [Line.ticks_perm hl, Line.ticks_cons, Finset.union_comm]
    rfl
  have hall : (c.setLine color l).ends.Perm ([⟨s.creation.ticks, color, .plus⟩,
      ⟨s.annihilation.ticks, color, .minus⟩] ++ c.ends) := by
    refine Configuration.ends_setLine hc ?_
    rw [List.cons_append, List.singleton_append, ← Line.ends_cons hw]
    exact Line.ends_perm hl color
  have hpairs := Model.pairSum_ends hm.regular.beta hm.kernel hv hn ⟨hh.lt, hcm⟩ ⟨ha.lt, hcm⟩ hall
  rw [insertLog, density_eq hm.regular (readable_of_valid hv color) hn hcm hs, Outcome.ok_bind,
    retarded_eq hm.regular hv.onCycle hn hcm ha hh, Outcome.ok_bind, Outcome.pure_eq,
    Model.weightLog, Model.weightLog, hpairs, occupationLog_setLine hm hn hc hd hticks]
  congr 1
  ring

theorem insertLog_instantaneous (hm : m.Physical) (hv : c.Valid m.beta) (hn : c.colors = m.colors)
    (hc : color < c.colors) (hs : s.OnCycle m.beta) (hr : m.retarded = none)
    (hd : Disjoint (c.ticks color) s.ticks) (hl : l.Perm (s::c.lineAt color)) :
    insertLog c m color s none = .ok (m.weightLog (c.setLine color l) - m.weightLog c) := by
  have hcm : color < m.colors := hn ▸ hc
  have hticks : Line.ticks l = c.ticks color ∪ s.ticks := by
    rw [Line.ticks_perm hl, Line.ticks_cons, Finset.union_comm]
    rfl
  have hzero : ∀ ends : List Operator, pairSum m.exchange ends = 0 :=
    pairSum_zero (Model.exchange_none hr)
  have hretarded : retarded c m color s.annihilation s.creation none = .ok 0 := by
    simp only [retarded, hr, Outcome.pure_eq]
  rw [insertLog, density_eq hm.regular (readable_of_valid hv color) hn hcm hs, Outcome.ok_bind,
    hretarded, Outcome.ok_bind, Outcome.pure_eq, Model.weightLog, Model.weightLog, hzero, hzero,
    occupationLog_setLine hm hn hc hd hticks]
  congr 1
  ring

theorem insertLog_skip (hm : m.Physical) (hv : c.Valid m.beta) (hn : c.colors = m.colors)
    (hc : color < c.colors) (hs : (c.lineAt color)[i]? = some s) (hw : ¬s.Whole) :
    insertLog c m color s (some i) =
      .ok (m.weightLog c - m.weightLog (c.setLine color ((c.lineAt color).eraseIdx i))) := by
  have hl := hv.lineAt hc
  have hsl := List.mem_of_getElem? hs
  have hperm := Line.perm_eraseIdx hs
  have hcolors : (c.setLine color ((c.lineAt color).eraseIdx i)).colors = c.colors :=
    Configuration.colors_setLine
  have hline : (c.setLine color ((c.lineAt color).eraseIdx i)).lineAt color =
      (c.lineAt color).eraseIdx i := by
    rw [Configuration.lineAt_setLine hc, if_pos rfl]
  have hvalid := hv.setLine (hl.sublist (List.eraseIdx_sublist _ i)) color
  have h := insertLog_eq (l := c.lineAt color) hm hvalid (hcolors.trans hn) (by rwa [hcolors])
    (hl.onCycle s hsl) hw
    (by rw [Configuration.ticks, hline]; exact (hl.tidy hsl hw).disjoint_of_perm hperm)
    (by rw [hline]; exact hperm.symm)
  rw [Configuration.setLine_setLine, Configuration.setLine_lineAt hc] at h
  rw [← h, insertLog, insertLog, retarded_skip hc,
    density_eq hm.regular (readable_of_valid hv color) hn (hn ▸ hc) (hl.onCycle s hsl),
    density_eq hm.regular (readable_of_valid hvalid color) (hcolors.trans hn) (hn ▸ hc)
      (hl.onCycle s hsl), gain_setLine hc]

/-- Closing a gap that is not all that separates the line from the whole cycle twice. -/
theorem regroup_eq {p q : Segment α} (hm : m.Physical) (hv : c.Valid m.beta)
    (hbeta : c.beta = m.beta) (hn : c.colors = m.colors) (hc : color < c.colors)
    (ht : (c.lineAt color).Tidy) (hp : (c.lineAt color)[i]? = some p)
    (hq : (c.lineAt color)[Line.nextPlace i (c.lineAt color).length]? = some q)
    (hne : (c.lineAt color).length = 1 ∨ p.annihilation.ticks ≠ q.creation.ticks) :
    regroup c m color i = .ok (Scalar.exp
      (m.weightLog (c.setLine color (Line.closed m.beta (c.lineAt color) i p q)) -
        m.weightLog c)) := by
  have hl := hv.lineAt hc
  obtain ⟨hvalid, hticks⟩ := hl.closed ht hp hq hne
  have hpw := (hl.onCycle p (List.mem_of_getElem? hp)).points
    (ht.not_whole (List.mem_of_getElem? hp))
  have hqw := (hl.onCycle q (List.mem_of_getElem? hq)).points
    (ht.not_whole (List.mem_of_getElem? hq))
  have hcolors : (c.setLine color (Line.closed m.beta (c.lineAt color) i p q)).colors = c.colors :=
    Configuration.colors_setLine
  have hline : (c.setLine color (Line.closed m.beta (c.lineAt color) i p q)).lineAt color =
      Line.closed m.beta (c.lineAt color) i p q := by
    rw [Configuration.lineAt_setLine hc, if_pos rfl]
  -- the configuration with the open gap is the closed one with the hole cut again
  have hsplit := splitLog_eq (l := c.lineAt color) hm (hv.setLine hvalid color)
    (hcolors.trans hn) (by rwa [hcolors]) hqw.1 hpw.2
    (Line.disjoint_ticks fun s hs => ht.gap_free hp hq s hs)
    (by rw [Configuration.ticks, hline]; exact hticks)
    (by rw [hline]; exact Line.ends_closed hl ht hp hq color)
  rw [Configuration.setLine_setLine, Configuration.setLine_lineAt hc] at hsplit
  rw [regroup, Configuration.line_eq hc, Outcome.ok_bind,
    Line.next_eq (List.getElem?_eq_some_iff.mp hp).1, Outcome.ok_bind, Outcome.nth_eq_ok.mpr hq,
    Outcome.ok_bind, Outcome.nth_eq_ok.mpr hp, Outcome.ok_bind,
    Configuration.regroup_eq hm.regular.beta hbeta hc hp hq, Outcome.ok_bind]
  simp only [hsplit, Outcome.ok_bind, Outcome.pure_eq, neg_sub]

theorem regroup_undo {j : ℕ} {merged : Segment α} (hm : m.Physical) (hv : c.Valid m.beta)
    (hbeta : c.beta = m.beta) (hn : c.colors = m.colors) (hc : color < c.colors)
    (hs : (c.lineAt color)[i]? = some s) (ha : a.IsPoint m.beta) (hh : h.IsPoint m.beta)
    (hhole : Line.Hole s a h)
    (hj : (c.setLine color ((c.lineAt color).holed i s a h)).regroup color j = .ok (merged, c)) :
    regroup (c.setLine color ((c.lineAt color).holed i s a h)) m color j =
      .ok (Scalar.exp (m.weightLog c -
        m.weightLog (c.setLine color ((c.lineAt color).holed i s a h)))) := by
  have hl := hv.lineAt hc
  have hcolors : (c.setLine color ((c.lineAt color).holed i s a h)).colors = c.colors :=
    Configuration.colors_setLine
  have hline := Configuration.line_setLine hc ((c.lineAt color).holed i s a h)
  obtain ⟨p, q, hp, hq⟩ := Configuration.of_regroup (by rwa [hcolors]) hj
  have hback := hj
  rw [hline] at hp hq
  rw [Configuration.regroup_setLine hm.regular.beta hbeta hc hp hq] at hback
  obtain ⟨-, hback⟩ := Prod.mk.inj (Except.ok.inj hback)
  -- a segment without length cannot be on the line that comes back
  have hne : ((c.lineAt color).holed i s a h).length = 1 ∨
      p.annihilation.ticks ≠ q.creation.ticks := by
    by_contra hcon
    obtain ⟨hlen, he⟩ := not_or.mp hcon
    have hmem : Line.joined p q ∈ c.lineAt color := by
      rw [← hback, Configuration.line_setLine hc, Line.closed, if_neg hlen]
      exact (Line.put_perm _ _).mem_iff.mpr List.mem_cons_self
    exact hl.positive hmem (not_not.mp he)
  have hratio := regroup_eq (c := c.setLine color ((c.lineAt color).holed i s a h)) (i := j)
    (p := p) (q := q) hm (hv.setLine (hl.holed hs ha hh hhole) color) hbeta (hcolors.trans hn)
    (by rwa [hcolors]) (by rw [hline]; exact hl.tidy_holed hs hhole) (by rw [hline, hp])
    (by rw [hline, hq]) (by rw [hline]; exact hne)
  rwa [hline, Configuration.setLine_setLine, hback] at hratio

/-- The ratio for inserting, removing, splitting and undoing a split is the exponential of the
change of one weight. A segment that occupies the whole cycle can be inserted without a retarded
interaction; with one, its two ends would interact. -/
theorem ratios_eq_weight {p : Params α} {m : Model α} {c : Configuration α} {color : ℕ}
    (hp : Model.ofParams p = .ok m) (hk : ∀ r, p.retarded = some r → r.kernel.Square)
    (hs : m.SymmetricKernel) (hv : c.Valid p.beta) (hbeta : c.beta = p.beta)
    (hn : c.colors = p.colors) (hc : color < p.colors) :
    (∀ s : Segment α, s.OnCycle p.beta → Disjoint (c.ticks color) s.ticks →
      (s.Whole → p.retarded = none) →
      ∃ place after, c.insert color s = .ok (place, after) ∧
        insert c m color s = .ok (Scalar.exp (m.weightLog after - m.weightLog c))) ∧
    (∀ i s, (c.lineAt color)[i]? = some s → ¬s.Whole →
      ∃ after, c.remove color i = .ok (s, after) ∧
        remove c m color i = .ok (Scalar.exp (m.weightLog after - m.weightLog c))) ∧
    (∀ i s a h, (c.lineAt color)[i]? = some s → a.IsPoint p.beta → h.IsPoint p.beta →
      Line.Hole s a h →
      ∃ after, c.split color i a h = .ok after ∧
        split c m color a h = .ok (Scalar.exp (m.weightLog after - m.weightLog c)) ∧
        (∃ j, after.regroup color j = .ok (s, c)) ∧
        ∀ j merged, after.regroup color j = .ok (merged, c) →
          regroup after m color j = .ok (Scalar.exp (m.weightLog c - m.weightLog after))) := by
  have hm := Model.physical_of_ofParams hp hk hs
  obtain ⟨-, rfl⟩ := Model.of_ofParams hp
  have hcc : color < c.colors := hn ▸ hc
  have hl := hv.lineAt hcc
  refine ⟨fun s hcycle hd hw => ?_, fun i s hs hw => ?_, fun i s a h hs ha hh hhole => ?_⟩
  · refine ⟨_, _, Configuration.insert_eq hcc s, ?_⟩
    rw [insert, Outcome.bind_eq_ok]
    refine ⟨_, ?_, rfl⟩
    have hperm := Line.put_perm (c.lineAt color) s
    by_cases hwhole : s.Whole
    · exact insertLog_instantaneous hm hv hn hcc hcycle (hw hwhole) hd hperm
    · exact insertLog_eq hm hv hn hcc hcycle hwhole hd hperm
  · refine ⟨_, Configuration.remove_eq hcc hs, ?_⟩
    rw [remove, Configuration.line_eq hcc, Outcome.ok_bind, Outcome.nth_eq_ok.mpr hs,
      Outcome.ok_bind, insertLog_skip hm hv hn hcc hs hw, Outcome.ok_bind, neg_sub, Outcome.pure_eq]
  · have hsplit := Configuration.split_eq (a := a) (h := h) hm.regular.beta hv hcc hs
    have hafter := hl.holed hs ha hh hhole
    refine ⟨_, hsplit, ?_, ?_, ?_⟩
    · rw [split, splitLog_eq hm hv hn hcc ha hh ?_ ?_ (Line.ends_holed hl hs ha hh color),
        Outcome.ok_bind, Outcome.pure_eq]
      · rw [hl.ticks_holed hs hhole]
        exact Finset.sdiff_disjoint
      · rw [hl.ticks_holed hs hhole, Finset.sdiff_union_of_subset (Line.hole_subset hs hhole)]
        rfl
    · exact Configuration.regroup_split hm.regular.beta hv hbeta hcc hs ha hh hhole
    · exact fun j merged hj => regroup_undo hm hv hbeta hn hcc hs ha hh hhole hj

noncomputable def flat : Params ℝ :=
  { Params.ofModel 1 [1] [[0]] [.level] with
    retarded := some ⟨.constant 1 1 fun _ _ => 1, .constant 1 1 fun _ _ => 1⟩ }

theorem flat_problem : flat.problem? = none := by
  have hkernel : ∀ name, flat.kernelProblem? name (.constant 1 1 fun _ _ => 1) = none := by
    intro name
    rw [Params.kernelProblem?, Option.orElse_eq_none, Params.problemWhen_eq_none,
      Params.problemWhen_eq_none]
    exact ⟨ne_true_of_eq_false (Params.differentBeta_self one_pos), not_not.mpr rfl⟩
  have hline : Params.lineProblem? (1 : ℝ) 0 .level = none := by
    rw [Params.lineProblem?.eq_def, Option.orElse_eq_none, Option.orElse_eq_none,
      Params.problemWhen_eq_none, Params.problemWhen_eq_none]
    exact ⟨ne_true_of_eq_false (Params.differentBeta_self one_pos), not_not.mpr rfl, rfl⟩
  refine Params.single_problem hline ?_
  rw [Params.kernelsProblem?, Option.orElse_eq_none]
  exact ⟨(Option.orElse_eq_none _ _).mpr ⟨hkernel _, hkernel _⟩, rfl⟩

noncomputable def flatModel : Model ℝ :=
  ⟨flat.beta, flat.mu, Grid.ofFn flat.colors flat.colors flat.coupling, flat.retarded,
    flat.spinSlope⟩

theorem ofParams_flat : Model.ofParams flat = .ok flatModel := by
  rw [Model.ofParams, flat_problem]
  rfl

theorem flat_square : ∀ r, flat.retarded = some r → r.kernel.Square := by
  intro r hr
  cases hr
  exact MeshFunction.constant_square _ _ _

theorem flat_kernels : ∀ r, flat.retarded = some r →
    r.kernel.Square ∧ Scalar.Same r.kernel.beta r.kernel.beta := fun r hr =>
  (flat_square r hr).numbered

theorem flat_tables : ∀ f, .tabulated f ∈ flat.hybridization →
    f.Square ∧ Scalar.Same f.beta f.beta := by
  intro f hf
  cases List.mem_singleton.mp hf

theorem flat_value {r : Retarded ℝ} (hr : flatModel.retarded = some r) {tau : ℝ} {a b : ℕ}
    (h0 : 0 ≤ tau) (h1 : tau ≤ 1) (ha : a < 1) (hb : b < 1) : r.kernel.value tau a b = .ok 1 := by
  cases hr
  exact MeshFunction.constant_value _ h0 h1 ha hb

theorem flat_symmetric : flatModel.SymmetricKernel := by
  refine ⟨fun r hr a ha b hb tau h0 h1 => ?_, fun r hr a ha b hb tau h0 h1 => ?_⟩
  · rw [flat_value hr h0 h1.le ha hb, flat_value hr h0 h1.le hb ha]
  · rw [flat_value hr (sub_nonneg.mpr h1.le) (sub_le_self _ h0.le) ha hb,
      flat_value hr h0.le h1.le ha hb]

def nine : Configuration ℝ := ⟨1, [[⟨⟨10, 1⟩, ⟨1, 1⟩⟩]]⟩

theorem nine_valid : nine.Valid 1 := by
  intro l hl
  rw [List.mem_singleton.mp hl]
  exact Line.singleton_valid ⟨rfl, rfl, .inl (by decide)⟩ (by decide)

theorem ratios_eq_weight_nine :
    Model.ofParams flat = .ok flatModel ∧ flatModel.SymmetricKernel ∧ nine.Valid 1 ∧
    (∃ place after, nine.insert 0 ⟨⟨14, 1⟩, ⟨12, 1⟩⟩ = .ok (place, after) ∧
      insert nine flatModel 0 ⟨⟨14, 1⟩, ⟨12, 1⟩⟩ =
        .ok (Scalar.exp (flatModel.weightLog after - flatModel.weightLog nine))) ∧
    (∃ after, nine.remove 0 0 = .ok (⟨⟨10, 1⟩, ⟨1, 1⟩⟩, after) ∧
      remove nine flatModel 0 0 =
        .ok (Scalar.exp (flatModel.weightLog after - flatModel.weightLog nine))) ∧
    ∃ after, nine.split 0 0 ⟨3, 1⟩ ⟨5, 1⟩ = .ok after ∧
      split nine flatModel 0 ⟨3, 1⟩ ⟨5, 1⟩ =
        .ok (Scalar.exp (flatModel.weightLog after - flatModel.weightLog nine)) ∧
      (∃ j, after.regroup 0 j = .ok (⟨⟨10, 1⟩, ⟨1, 1⟩⟩, nine)) ∧
      ∀ j merged, after.regroup 0 j = .ok (merged, nine) →
        regroup after flatModel 0 j =
          .ok (Scalar.exp (flatModel.weightLog nine - flatModel.weightLog after)) := by
  obtain ⟨hinsert, hremove, hsplit⟩ := ratios_eq_weight ofParams_flat flat_square flat_symmetric
    nine_valid rfl rfl (Nat.zero_lt_one : 0 < flat.colors)
  refine ⟨ofParams_flat, flat_symmetric, nine_valid, hinsert _ ⟨rfl, rfl, .inl (by decide)⟩ ?_ ?_,
    hremove 0 _ rfl (by decide),
    hsplit 0 ⟨⟨10, 1⟩, ⟨1, 1⟩⟩ ⟨3, 1⟩ ⟨5, 1⟩ rfl ⟨rfl, by decide⟩ ⟨rfl, by decide⟩ ?_⟩
  · rw [Finset.disjoint_left]
    intro t ht ht'
    obtain ⟨s, hs, ht⟩ := Line.mem_ticks.mp ht
    rw [List.mem_singleton.mp hs, Segment.mem_ticks (.inl (by decide))] at ht
    rw [Segment.mem_ticks (.inl (by decide))] at ht'
    dsimp only at ht ht'
    omega
  · exact fun hw => absurd hw (by decide)
  · rw [Line.Hole, if_neg (by decide)]
    exact ⟨by decide, by decide, by decide, by decide, by decide, by decide⟩

def bare : Configuration ℝ := ⟨1, [[]]⟩

theorem bare_valid : bare.Valid 1 := by
  intro l hl
  rw [List.mem_singleton.mp hl]
  exact Line.nil_valid

/-- The ends of the whole cycle are charged for each other, at the distance of one period. -/
theorem retarded_whole : retarded bare flatModel 0 (Line.whole (1 : ℝ)).annihilation
    (Line.whole (1 : ℝ)).creation none = .ok (0 - 1) := by
  obtain ⟨r, hr⟩ : ∃ r, flatModel.retarded = some r := ⟨_, rfl⟩
  have hpair : Line.pairCoupling [] (Line.whole (1 : ℝ)).annihilation
      (Line.whole (1 : ℝ)).creation r.kernel 0 0 = .ok (0 + -0) := rfl
  have hlength : (Line.whole (1 : ℝ)).annihilation.sub (Line.whole (1 : ℝ)).creation =
      .ok ⟨ticksPerPeriod, 1⟩ :=
    Time.sub_eq_ok (Scalar.same_iff.mpr rfl) (Nat.zero_le _)
  have hself : r.kernel.value (Time.value ⟨ticksPerPeriod, (1 : ℝ)⟩) 0 0 = .ok 1 := by
    rw [Time.value, Time.scale_final]
    exact flat_value hr zero_le_one le_rfl Nat.zero_lt_one Nat.zero_lt_one
  simp only [retarded, hr]
  rw [show bare.lines.zipIdx = [([], 0)] from rfl]
  simp only [List.foldlM_cons, List.foldlM_nil, hpair, Outcome.ok_bind, Outcome.pure_eq, hlength,
    hself, neg_zero, add_zero]

/-- With a kernel, filling an empty line is charged for the interaction of two operators that the
full line does not have. -/
theorem insert_whole_ne_weight :
    Model.ofParams flat = .ok flatModel ∧ (∀ r, flat.retarded = some r → r.kernel.Square) ∧
    flatModel.SymmetricKernel ∧ bare.Valid 1 ∧ (Line.whole (1 : ℝ)).OnCycle 1 ∧
    Disjoint (bare.ticks 0) (Line.whole (1 : ℝ)).ticks ∧
    ∃ place after, bare.insert 0 (Line.whole 1) = .ok (place, after) ∧
      insert bare flatModel 0 (Line.whole 1) =
        .ok (Scalar.exp (flatModel.weightLog after - flatModel.weightLog bare - 1)) ∧
      insert bare flatModel 0 (Line.whole 1) ≠
        .ok (Scalar.exp (flatModel.weightLog after - flatModel.weightLog bare)) := by
  have hempty : Disjoint (bare.ticks 0) (Line.whole (1 : ℝ)).ticks := Finset.disjoint_empty_left _
  have hcolor : 0 < bare.colors := Nat.zero_lt_one
  have hm := Model.physical_of_ofParams ofParams_flat flat_square flat_symmetric
  have hinsert := Configuration.insert_eq hcolor (Line.whole (1 : ℝ))
  have hticks : Line.ticks ((bare.lineAt 0).put (Line.whole 1)) =
      bare.ticks 0 ∪ (Line.whole (1 : ℝ)).ticks := by
    rw [Line.ticks_perm (Line.put_perm _ _), Line.ticks_cons, Finset.union_comm]
    rfl
  have hends : (bare.setLine 0 ((bare.lineAt 0).put (Line.whole 1))).ends = [] := rfl
  have hvalue : insertLog bare flatModel 0 (Line.whole 1) none = .ok (flatModel.weightLog
      (bare.setLine 0 ((bare.lineAt 0).put (Line.whole 1))) - flatModel.weightLog bare - 1) := by
    rw [insertLog, density_eq hm.regular (readable_of_valid bare_valid 0) rfl Nat.zero_lt_one
        (Line.whole_onCycle 1), Outcome.ok_bind, retarded_whole, Outcome.ok_bind, Outcome.pure_eq,
      Model.weightLog, Model.weightLog, hends, show bare.ends = [] from rfl,
      occupationLog_setLine hm rfl hcolor hempty hticks]
    congr 1
    ring
  have hratio : insert bare flatModel 0 (Line.whole 1) = .ok (Scalar.exp (flatModel.weightLog
      (bare.setLine 0 ((bare.lineAt 0).put (Line.whole 1))) - flatModel.weightLog bare - 1)) := by
    rw [insert, hvalue]
    rfl
  refine ⟨ofParams_flat, flat_square, flat_symmetric, bare_valid, Line.whole_onCycle 1, hempty,
    _, _, hinsert, hratio, fun h => ?_⟩
  have hexp := Real.exp_injective (Except.ok.inj (hratio.symm.trans h))
  linarith

end LocalRatio
end ImpuritySampler
