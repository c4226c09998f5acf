import ImpuritySampler.Proofs.Binary64.Tolerance
import ImpuritySampler.Proofs.Hybridization
import ImpuritySampler.Proofs.LocalRatio.Defined
import ImpuritySampler.Proofs.Move.Form

/-!
# Insertion, removal and split

On a consistent state each of the three proposals can be made, and carrying it out leads to a
consistent state in which the color has gained the new segment, or lost the old one or the hole. The
arithmetic may round, as binary floating point does, if its tolerances fit together. Tables of
hybridizations have to be interpolable like kernels, and the periods of both have to be numbers: the
rules of parameters let a table with a single point pass, and one for an undefined period, and
neither has values.
-/

set_option autoImplicit false

namespace ImpuritySampler

open Line

variable {α : Type} {beta : α} {l : Line α} {i : ℕ} {u : Segment α} {a c : Time α}

theorem Line.Valid.holed_extends (hv : l.Valid beta) (hu : l[i]? = some u) (ha : a.IsPoint beta)
    (hc : c.IsPoint beta) : Extends (Line.holed l i u a c) l a.ticks c.ticks := by
  by_cases hw : u.Whole
  · obtain ⟨rfl, hl⟩ := holed_whole (a := a) (c := c) hv hu hw
    have hpiece : ¬(Segment.mk a c).Whole := fun hp => hp.not_regular ⟨ha.lt, hc.lt⟩
    rw [hl]
    refine ⟨?_, ?_⟩ <;> rw [bounded_whole hw, bounded_cons hpiece] <;> rfl
  · obtain ⟨hua, huc⟩ := (hv.onCycle u (List.mem_of_getElem? hu)).points hw
    have hleft : ¬(Segment.mk a u.creation).Whole := fun hp => hp.not_regular ⟨ha.lt, huc.lt⟩
    have hright : ¬(Segment.mk u.annihilation c).Whole := fun hp =>
      hp.not_regular ⟨hua.lt, hc.lt⟩
    have hold := bounded_perm (perm_eraseIdx hu)
    rw [bounded_cons hw] at hold
    have hnew := bounded_perm (cut_perm (l.eraseIdx i) u a c)
    rw [bounded_cons hleft, bounded_cons hright] at hnew
    have hann := hold.map (·.annihilation.ticks)
    have hcre := hold.map (·.creation.ticks)
    rw [Line.holed, if_neg hw]
    exact ⟨(hnew.map _).trans (.cons _ hann),
      (hnew.map _).trans ((List.Perm.swap ..).trans (.cons _ hcre))⟩

variable [Scalar α]

/-- The offer proposes a change of the state `s`. Accepting it leads to a consistent state in which
one color occupies the ticks `u` and the others are unchanged. -/
def Offer.Moves (p : Params α) (s : State α) (o : Offer α) (color : ℕ) (change : Change α)
    (u : Finset ℕ) : Prop :=
  ∃ sign after, o.proposal = some ⟨color, change, sign⟩ ∧ o.Accepts s after sign ∧
    s.Moved p.beta after color u ∧ after.OfParams p

/-- A consistent state of sound parameters, their model, and a color to change. -/
structure Setting (p : Params α) (m : Model α) (s : State α) (color : ℕ) : Prop where
  regular : m.Regular
  beta : m.beta = p.beta
  colors : m.colors = p.colors
  count : p.hybridization.length = p.colors
  readable : ∀ h ∈ p.hybridization, h.Readable p.beta
  run : s.OfParams p
  matched : s.Matched p.beta
  color : color < p.colors

/-- Two distances from the end of a segment that bound a hole: they differ, and unless the segment
is the whole cycle the hole does not touch the end. -/
def Line.Splits (u : Segment α) (d₁ d₂ : ℕ) : Prop :=
  d₁ ≠ d₂ ∧ (¬u.Whole → d₁ ≠ 0 ∧ d₂ ≠ 0)

namespace Setting

variable {p : Params α} {m : Model α} {s : State α} {color : ℕ}

theorem of_ofParams [Scalar.Tolerant α] [Time.Resolved p.beta] (hp : Model.ofParams p = .ok m)
    (hk : ∀ r, p.retarded = some r → r.kernel.Square ∧ Scalar.Same r.kernel.beta r.kernel.beta)
    (hh : ∀ f, .tabulated f ∈ p.hybridization → f.Square ∧ Scalar.Same f.beta f.beta)
    (hs : s.Consistent p.beta) (hof : s.OfParams p) (hc : color < p.colors) :
    Setting p m s color := by
  have hm := Model.regular_of_ofParams hp hk
  obtain ⟨hsound, rfl⟩ := Model.of_ofParams hp
  exact ⟨hm, rfl, rfl, hsound.hybridizations, fun h => hsound.readable hh, hof,
    (State.consistent_iff hsound.beta).mp hs, hc⟩

theorem pos (h : Setting p m s color) : 0 < p.beta := h.beta ▸ h.regular.beta

theorem lt (h : Setting p m s color) : color < s.config.colors := h.run.colors ▸ h.color

theorem line (h : Setting p m s color) : (s.config.lineAt color).Valid p.beta :=
  h.matched.valid.lineAt h.lt

theorem isFull (h : Setting p m s color) (hu : (s.config.lineAt color)[i]? = some u) :
    s.config.isFull color = .ok (decide u.Whole) :=
  Configuration.isFull_eq h.pos h.matched.valid h.lt hu

theorem split_degenerate (h : Setting p m s color) (hu : (s.config.lineAt color)[i]? = some u)
    {d₁ d₂ : Time α} (hd : ¬Splits u d₁.ticks d₂.ticks) :
    Proposal.split s m color i d₁ d₂ = .ok (Proposal.degenerate s) :=
  Proposal.split_degenerate (Configuration.line_eq h.lt) (h.isFull hu) hd

variable [Time.Resolved p.beta]

theorem resolved (h : Setting p m s color) : Time.Resolved m.beta := h.beta.symm ▸ inferInstance

theorem determinant (h : Setting p m s color) : ∃ d, s.determinants[color]? = some d ∧
    ∀ a c : Time α, a.IsPoint p.beta → c.IsPoint p.beta → State.Reads d a c := by
  obtain ⟨d, hd, hheld⟩ := h.matched.determinant h.lt
  obtain ⟨b, hb⟩ : ∃ b, p.hybridization[color]? = some b :=
    ⟨_, List.getElem?_eq_getElem (h.count ▸ h.color)⟩
  have hread := h.readable b (List.mem_of_getElem? hb)
  have helement := h.run.elements color d b hd hb
  refine ⟨d, hd, fun a c ha hc => ⟨fun k hk => ?_, fun k hk => ?_, ?_⟩⟩ <;> rw [helement]
  · exact hread.element (hheld.rows.points k hk) ⟨ha, rfl⟩
  · exact hread.element ⟨hc, rfl⟩ (hheld.cols.points k hk)
  · exact hread.element ⟨hc, rfl⟩ ⟨ha, rfl⟩

theorem moves (h : Setting p m s color) {d t e : LineDeterminant α} {x : Outcome α (α × State α)}
    {change : Change α} {trace ratio chance : α} (hd : s.determinants[color]? = some d)
    (ht : s.Opens color x ratio t e) (hl : l.Valid p.beta) (he : l.HeldBy p.beta e)
    (helement : e.element = d.element)
    (hchange : change.apply color s.config = .ok (s.config.setLine color l)) :
    (Proposal.offer (s.setDeterminant color t) color change trace ratio chance).Moves p s color
      change (Line.ticks l) :=
  ⟨_, _, rfl, (Proposal.offer_leads h.matched h.lt ht hchange).accept rfl,
    h.matched.moved h.pos h.lt hl he, h.run.replace hd helement⟩

theorem insert_moves (h : Setting p m s color) {w : Window α} {d₁ d₂ : Time α}
    (hw : w.Inserts p.beta (s.config.lineAt color)) (hp₁ : d₁.period = p.beta)
    (hp₂ : d₂.period = p.beta) (h₁ : d₁.ticks < w.length.ticks) (h₂ : d₂.ticks < w.length.ticks)
    (hne : d₁.ticks ≠ d₂.ticks) : ∃ o, Proposal.insert s m color w d₁ d₂ = .ok o ∧
      ∃ u, Fits p.beta (s.config.lineAt color) u ∧
        o.Moves p s color (.insert u) (s.config.ticks color ∪ u.ticks) := by
  have hn : s.config.colors = m.colors := h.run.colors.trans h.colors.symm
  have hresolved := h.resolved
  have hfits := hw.fits_spanned h₁ h₂ hne
  obtain ⟨u, hu⟩ : ∃ u, w.spanned (0 < (s.config.lineAt color).length) d₁.ticks d₂.ticks = u :=
    ⟨_, rfl⟩
  rw [hu] at hfits
  have hperm := put_perm (s.config.lineAt color) u
  have hticks : Line.ticks ((s.config.lineAt color).put u) = s.config.ticks color ∪ u.ticks := by
    rw [ticks_perm hperm, ticks_cons, Finset.union_comm]
    rfl
  obtain ⟨d, hd, hread⟩ := h.determinant
  obtain ⟨trace, htrace⟩ := LocalRatio.insert_defined h.regular (h.beta ▸ h.matched.valid) hn h.lt
    (h.beta ▸ hfits.onCycle) hfits.not_whole
  obtain ⟨ratio, t, e, htrial, hheld, helement⟩ := h.matched.tryPair hd
    (hread _ _ hfits.annihilation hfits.creation) hfits.annihilation hfits.creation
    (hfits.valid_put h.line) (extends_of_perm hfits.not_whole hperm)
  have hoffer := (Proposal.insert_eq_ok (Configuration.line_eq h.lt) hw hp₁ hp₂ h₁ h₂ hne hu).mpr
    ⟨trace, ratio, _, htrace, htrial.trial, rfl⟩
  refine ⟨_, hoffer, u, hfits,
    hticks ▸ h.moves hd htrial (hfits.valid_put h.line) hheld helement ?_⟩
  rw [Change.apply, Configuration.insert_eq h.lt, Outcome.ok_bind, Outcome.pure_eq]

theorem remove_moves (h : Setting p m s color) (hu : (s.config.lineAt color)[i]? = some u)
    (hw : ¬u.Whole) : ∃ o, Proposal.remove s m color i = .ok o ∧
      o.Moves p s color (.remove i) (s.config.ticks color \ u.ticks) := by
  have hn : s.config.colors = m.colors := h.run.colors.trans h.colors.symm
  have hresolved := h.resolved
  have ht := h.line.tidy (List.mem_of_getElem? hu) hw
  have hperm := perm_eraseIdx hu
  have hvalid := h.line.sublist (List.eraseIdx_sublist (s.config.lineAt color) i)
  have hticks : Line.ticks ((s.config.lineAt color).eraseIdx i) =
      s.config.ticks color \ u.ticks := by
    rw [Configuration.ticks, ← ticks_perm hperm, ticks_cons, Finset.union_sdiff_left,
      Finset.sdiff_eq_self_of_disjoint (ht.disjoint_of_perm hperm)]
  obtain ⟨d, hd, -⟩ := h.determinant
  obtain ⟨trace, htrace⟩ := LocalRatio.remove_defined h.regular (h.beta ▸ h.matched.valid) hn h.lt
    hu hw
  obtain ⟨ratio, t, e, htrial, hheld, helement⟩ := h.matched.tryDrop (c := u.creation) hd ht hu
    (extends_of_perm hw hperm.symm)
  obtain ⟨length, hlength⟩ : ∃ length,
      Window.removalLength (s.setDeterminant color t) color i = .ok length :=
    Window.removalLength_defined h.pos h.run.beta (Configuration.line_eq h.lt) h.line ht
      (List.getElem?_eq_some_iff.mp hu).1
  have hoffer := (Proposal.remove_eq_ok (Configuration.line_eq h.lt) hu).mpr
    ⟨trace, ratio, _, length, htrace, htrial.trial, hlength, rfl⟩
  refine ⟨_, hoffer, hticks ▸ h.moves hd htrial hvalid hheld helement ?_⟩
  rw [Change.apply, Configuration.remove_eq h.lt hu, Outcome.ok_bind, Outcome.pure_eq]

theorem split_moves (h : Setting p m s color) (hu : (s.config.lineAt color)[i]? = some u)
    {d₁ d₂ : Time α} (hp₁ : d₁.period = p.beta) (hp₂ : d₂.period = p.beta)
    (h₁ : d₁.ticks < u.ticks.card) (h₂ : d₂.ticks < u.ticks.card)
    (hd : Splits u d₁.ticks d₂.ticks) : ∃ o, Proposal.split s m color i d₁ d₂ = .ok o ∧
      ∃ a c, Hole u a c ∧ (Segment.mk c a).ticks ⊆ s.config.ticks color ∧
        o.Moves p s color (.split i a c) (s.config.ticks color \ (Segment.mk c a).ticks) := by
  have hn : s.config.colors = m.colors := h.run.colors.trans h.colors.symm
  have hresolved := h.resolved
  have hcycle := h.line.onCycle u (List.mem_of_getElem? hu)
  obtain ⟨hne, hends⟩ := hd
  obtain ⟨⟨c, a⟩, hac⟩ : ∃ v, Window.spanned ⟨u.annihilation, ⟨u.ticks.card, p.beta⟩⟩ (¬u.Whole)
      d₁.ticks d₂.ticks = v := ⟨_, rfl⟩
  obtain ⟨hhole, ha, hc⟩ := hcycle.hole_spanned h₁ h₂ hne hends hac
  have hvalid := h.line.holed hu ha hc hhole
  have hticks : Line.ticks ((s.config.lineAt color).holed i u a c) =
      s.config.ticks color \ (Segment.mk c a).ticks := h.line.ticks_holed hu hhole
  obtain ⟨d, hd, hread⟩ := h.determinant
  obtain ⟨trace, htrace⟩ := LocalRatio.split_defined h.regular (h.beta ▸ h.matched.valid) hn h.lt
    (h.beta ▸ ha) (h.beta ▸ hc)
  obtain ⟨ratio, t, e, htrial, hheld, helement⟩ := h.matched.tryPair hd (hread a c ha hc) ha hc
    hvalid (h.line.holed_extends hu ha hc)
  have hoffer := (Proposal.split_eq_ok (Configuration.line_eq h.lt) hu hcycle (h.isFull hu) hp₁ hp₂
    h₁ h₂ hne hends hac).mpr ⟨trace, ratio, _, htrace, htrial.trial, rfl⟩
  refine ⟨_, hoffer, a, c, hhole, hole_subset hu hhole,
    hticks ▸ h.moves hd htrial hvalid hheld helement ?_⟩
  rw [Change.apply, Configuration.split_eq h.pos h.matched.valid h.lt hu]

end Setting

/-- On every consistent state of valid parameters whose tables are square and for periods that are
numbers, every proposal of the three moves can be made. Unless it is degenerate, accepting it leads
to a consistent state, if the signs agree, in which the color has gained a segment that was apart
from it, or lost the segment at a place, or a hole in it. -/
theorem Proposal.insert_remove_split_preserve [Scalar.Tolerant α] {p : Params α}
    [Time.Resolved p.beta] {m : Model α} {s : State α} {color : ℕ} (hp : Model.ofParams p = .ok m)
    (hk : ∀ r, p.retarded = some r → r.kernel.Square ∧ Scalar.Same r.kernel.beta r.kernel.beta)
    (hh : ∀ f, .tabulated f ∈ p.hybridization → f.Square ∧ Scalar.Same f.beta f.beta)
    (hs : s.Consistent p.beta) (hrun : s.OfParams p) (hc : color < p.colors) :
    (∀ index, Window.Offered (s.config.lineAt color) index →
      ∃ w, Window.insertion s color index = .ok w ∧
        ∀ d₁ d₂ : Time α, d₁.period = p.beta → d₂.period = p.beta →
          d₁.ticks < w.length.ticks → d₂.ticks < w.length.ticks →
          (d₁.ticks = d₂.ticks → insert s m color w d₁ d₂ = .ok (degenerate s)) ∧
          (d₁.ticks ≠ d₂.ticks → ∃ o u, insert s m color w d₁ d₂ = .ok o ∧
            Disjoint (s.config.ticks color) u.ticks ∧
            o.Moves p s color (.insert u) (s.config.ticks color ∪ u.ticks))) ∧
    (s.config.isFull color = .ok false → ∀ i u, (s.config.lineAt color)[i]? = some u →
      ∃ o, remove s m color i = .ok o ∧
        o.Moves p s color (.remove i) (s.config.ticks color \ u.ticks)) ∧
    ∀ i u, (s.config.lineAt color)[i]? = some u →
      ∃ w, Window.split s color i = .ok w ∧ u.length = .ok w.length ∧
        ∀ d₁ d₂ : Time α, d₁.period = p.beta → d₂.period = p.beta →
          d₁.ticks < w.length.ticks → d₂.ticks < w.length.ticks →
          (¬Splits u d₁.ticks d₂.ticks → split s m color i d₁ d₂ = .ok (degenerate s)) ∧
          (Splits u d₁.ticks d₂.ticks → ∃ o a c, split s m color i d₁ d₂ = .ok o ∧
            (Segment.mk c a).ticks ⊆ s.config.ticks color ∧
            o.Moves p s color (.split i a c)
              (s.config.ticks color \ (Segment.mk c a).ticks)) := by
  have h := Setting.of_ofParams hp hk hh hs hrun hc
  refine ⟨fun index hindex => ?_, fun hfull i u hu => ?_, fun i u hu => ?_⟩
  · obtain ⟨w, hw, hinserts⟩ :=
      Window.insertion_defined h.pos h.run.beta (Configuration.line_eq h.lt) h.line hindex
    refine ⟨w, hw, fun d₁ d₂ hp₁ hp₂ h₁ h₂ => ⟨fun he => ?_, fun hne => ?_⟩⟩
    · rw [insert, if_pos he, Outcome.pure_eq]
    · obtain ⟨o, ho, u, hfits, hmoves⟩ := h.insert_moves hinserts hp₁ hp₂ h₁ h₂ hne
      exact ⟨o, u, ho, hfits.apart, hmoves⟩
  · have ht := Configuration.tidy_of_isFull h.pos h.matched.valid h.lt hfull
    exact h.remove_moves hu (ht.not_whole (List.mem_of_getElem? hu))
  · have hcycle := h.line.onCycle u (List.mem_of_getElem? hu)
    refine ⟨_, Window.split_eq (Configuration.line_eq h.lt) hu hcycle, hcycle.length,
      fun d₁ d₂ hp₁ hp₂ h₁ h₂ => ⟨h.split_degenerate hu, fun hd => ?_⟩⟩
    dsimp only at h₁ h₂
    obtain ⟨o, ho, a, c, -, hsubset, hmoves⟩ := h.split_moves hu hp₁ hp₂ h₁ h₂ hd
    exact ⟨o, a, c, ho, hsubset, hmoves⟩

theorem Determinant.tryInsert_empty {X Y : Type} {element : X → Y → Outcome α α} {x : X} {y : Y}
    {e : Fault α} (h : element x y = .error e) : (empty element).tryInsert 0 0 x y = .error e := by
  simp [tryInsert, requireIdle, isIdle, empty, size, Outcome.require, h]

namespace Proposal

theorem touching_run : touching.OfParams LocalRatio.flat := .single rfl rfl rfl rfl rfl

theorem touching_setting : Setting LocalRatio.flat LocalRatio.flatModel touching 0 :=
  .of_ofParams LocalRatio.ofParams_flat LocalRatio.flat_kernels LocalRatio.flat_tables
    touching_consistent touching_run Nat.zero_lt_one

theorem touching_window : Window.insertion touching 0 (some 0) = .ok ⟨⟨5, 1⟩, ⟨2, 1⟩⟩ := by
  have hsub : (⟨5, 1⟩ : Time ℝ).sub ⟨3, 1⟩ = .ok ⟨2, 1⟩ :=
    Time.sub_eq_ok (Scalar.same_iff.mpr rfl) (by decide)
  exact congrArg (fun x => x >>= fun length => (.ok ⟨⟨5, 1⟩, length⟩ : Outcome ℝ (Window ℝ))) hsub

/-- A segment put at the end of the straight one, the wrapping one taken out, and a hole around the
end of the axis. -/
theorem insert_remove_split_touching :
    Model.ofParams LocalRatio.flat = .ok LocalRatio.flatModel ∧ touching.Consistent 1 ∧
    touching.OfParams LocalRatio.flat ∧
    (∃ o u, insert touching LocalRatio.flatModel 0 ⟨⟨5, 1⟩, ⟨2, 1⟩⟩ ⟨0, 1⟩ ⟨1, 1⟩ = .ok o ∧
      Disjoint (touching.config.ticks 0) u.ticks ∧ o.Moves LocalRatio.flat touching 0 (.insert u)
        (touching.config.ticks 0 ∪ u.ticks)) ∧
    (∃ o, remove touching LocalRatio.flatModel 0 1 = .ok o ∧ o.Moves LocalRatio.flat touching 0
      (.remove 1) (touching.config.ticks 0 \ (Segment.mk (⟨3, 1⟩ : Time ℝ) ⟨10, 1⟩).ticks)) ∧
    ∃ o a c, split touching LocalRatio.flatModel 0 1 ⟨1, 1⟩ ⟨5, 1⟩ = .ok o ∧
      (Segment.mk c a).ticks ⊆ touching.config.ticks 0 ∧ o.Moves LocalRatio.flat touching 0
        (.split 1 a c) (touching.config.ticks 0 \ (Segment.mk c a).ticks) := by
  have hmatched := (State.consistent_iff one_pos).mp touching_consistent
  have hlength : (Segment.mk (⟨3, 1⟩ : Time ℝ) ⟨10, 1⟩).length = .ok ⟨Time.gap 3 10, 1⟩ :=
    Time.sub_eq_ok (Scalar.same_iff.mpr rfl) (by decide)
  obtain ⟨hinsert, hremove, hsplit⟩ := insert_remove_split_preserve LocalRatio.ofParams_flat
    LocalRatio.flat_kernels LocalRatio.flat_tables touching_consistent
    touching_run (Nat.zero_lt_one : 0 < LocalRatio.flat.colors)
  obtain ⟨w, hw, hinsert⟩ := hinsert (some 0) Nat.zero_lt_two
  obtain ⟨v, -, hv, hsplit⟩ := hsplit 1 ⟨⟨3, 1⟩, ⟨10, 1⟩⟩ rfl
  cases touching_window.symm.trans hw
  have hv := Except.ok.inj (hlength.symm.trans hv)
  refine ⟨LocalRatio.ofParams_flat, touching_consistent, touching_run,
    (hinsert ⟨0, 1⟩ ⟨1, 1⟩ rfl rfl (by decide) (by decide)).2 (by decide),
    hremove (Configuration.isFull_of_tidy one_pos hmatched.valid Nat.zero_lt_one touching_tidy) 1
      ⟨⟨3, 1⟩, ⟨10, 1⟩⟩ rfl,
    (hsplit ⟨1, 1⟩ ⟨5, 1⟩ rfl rfl ?_ ?_).2 ⟨by decide, fun _ => by decide⟩⟩
  · rw [← hv]
    decide
  · rw [← hv]
    decide

section Refused

variable {p : Params α} {m : Model α} [Time.Resolved m.beta] {h : Hybridization α} {e : Fault α}

def vacant (beta : α) (h : Hybridization α) : State α :=
  ⟨⟨beta, [[]]⟩, [Determinant.empty h.element]⟩

theorem vacant_window (hb : 0 < beta) (h : Hybridization α) :
    Window.insertion (vacant beta h) 0 none =
      .ok ⟨⟨ticksPerPeriod, beta⟩, ⟨ticksPerPeriod, beta⟩⟩ := by
  have hcolor : 0 < (vacant beta h).config.colors := Nat.zero_lt_one
  have hfinal : Time.final beta = .ok ⟨ticksPerPeriod, beta⟩ := by
    rw [Time.final, Time.requirePeriod, Outcome.require_true hb]
    rfl
  rw [Window.insertion, Configuration.line_eq hcolor, Outcome.ok_bind]
  simp only [show (vacant beta h).config.beta = beta from rfl, hfinal, Outcome.ok_bind,
    Outcome.pure_eq]

/-- The first insertion fails as the element of its operators does. -/
theorem insert_vacant (hm : m.Regular) (hcolors : m.colors = 1) {n₁ n₂ : ℕ} (hlt : n₁ < n₂)
    (hn : n₂ < ticksPerPeriod)
    (he : h.element ⟨⟨Time.behind ticksPerPeriod n₂, m.beta⟩, 0⟩
      ⟨⟨Time.behind ticksPerPeriod n₁, m.beta⟩, 0⟩ = .error e) :
    insert (vacant m.beta h) m 0 ⟨⟨ticksPerPeriod, m.beta⟩, ⟨ticksPerPeriod, m.beta⟩⟩
      ⟨n₁, m.beta⟩ ⟨n₂, m.beta⟩ = .error e := by
  have hvalid : (vacant m.beta h).config.Valid m.beta := fun l hl => by
    rw [List.mem_singleton.mp hl]
    exact nil_valid
  have hcolor : 0 < (vacant m.beta h).config.colors := Nat.zero_lt_one
  have hget : (vacant m.beta h).determinant 0 = .ok (Determinant.empty h.element) := rfl
  have hbefore : ∀ n < ticksPerPeriod,
      Window.before ⟨⟨ticksPerPeriod, m.beta⟩, ⟨ticksPerPeriod, m.beta⟩⟩ ⟨n, m.beta⟩ =
        .ok ⟨Time.behind ticksPerPeriod n, m.beta⟩ := fun n hn => Window.before_eq rfl rfl hn
  have hpoint : ∀ n, (⟨Time.behind ticksPerPeriod n, m.beta⟩ : Time α).IsPoint m.beta := fun n =>
    ⟨rfl, Time.behind_lt _ _⟩
  have hcycle := Segment.onCycle_of_points (hpoint n₁) (hpoint n₂)
  obtain ⟨trace, htrace⟩ := LocalRatio.insert_defined hm hvalid hcolors.symm hcolor hcycle
    fun hw => hw.not_regular ⟨(hpoint n₁).lt, (hpoint n₂).lt⟩
  have hpair : (vacant m.beta h).tryPair 0 ⟨Time.behind ticksPerPeriod n₁, m.beta⟩
      ⟨Time.behind ticksPerPeriod n₂, m.beta⟩ = .error e := by
    rw [State.tryPair_empty hget (hpoint n₁) (hpoint n₂), Determinant.tryInsert_empty he,
      Outcome.error_bind]
  rw [insert, if_neg hlt.ne, Configuration.line_eq hcolor, Outcome.ok_bind]
  simp only [show ((vacant m.beta h).config.lineAt 0).length = 0 from rfl, Nat.lt_irrefl,
    false_and, if_false, hbefore n₁ (hlt.trans hn), hbefore n₂ hn, Outcome.ok_bind, htrace, hpair,
    Outcome.error_bind]

end Refused

noncomputable def point : MeshFunction ℝ := ⟨1, Stack.ofFn 1 1 1 fun _ _ _ => -1⟩

noncomputable def thin : Params ℝ := Params.ofModel 1 [1] [[0]] [.tabulated point]

noncomputable def thinModel : Model ℝ :=
  ⟨thin.beta, thin.mu, Grid.ofFn thin.colors thin.colors thin.coupling, thin.retarded,
    thin.spinSlope⟩

theorem ofParams_thin : Model.ofParams thin = .ok thinModel := by
  have hline : Params.lineProblem? (1 : ℝ) 0 (.tabulated point) = none := by
    rw [Params.lineProblem?.eq_def, Option.orElse_eq_none, Option.orElse_eq_none,
      Params.problemWhen_eq_none, Params.problemWhen_eq_none]
    exact ⟨ne_true_of_eq_false (Params.differentBeta_self one_pos), not_not.mpr rfl, rfl⟩
  have hproblem : thin.problem? = none := Params.single_problem (r := none) hline rfl
  rw [Model.ofParams, hproblem]
  rfl

theorem point_element {x y : Key ℝ} (hx : x.time.IsPoint 1) (hy : y.time.IsPoint 1) :
    (Hybridization.tabulated point).element x y = .error .overflow := by
  have hlt := Time.gap_lt hx.lt y.time.ticks
  have hlow := Time.scale_nonneg (one_pos : (0 : ℝ) < 1) (Time.gap x.time.ticks y.time.ticks)
  have hhigh := Time.scale_le (one_pos : (0 : ℝ) < 1) hlt
  have hrange : -Scalar.tolerance ≤ Time.scale (Time.gap x.time.ticks y.time.ticks) (1 : ℝ) ∧
      Time.scale (Time.gap x.time.ticks y.time.ticks) 1 ≤ point.beta * (1 + Scalar.tolerance) := by
    rw [Scalar.tolerance_eq, show point.beta = 1 from rfl]
    constructor <;> linarith
  rw [Hybridization.element, Time.sub_eq hx hy, Outcome.ok_bind, Hybridization.value, Time.value,
    MeshFunction.value, Outcome.require_true hrange]
  rfl

/-- A table with a single point obeys the rules of parameters, but no segment can be proposed. -/
theorem insert_thin_overflow :
    Model.ofParams thin = .ok thinModel ∧ (∀ r, thin.retarded = some r → r.kernel.Square) ∧
    (vacant 1 (.tabulated point)).Consistent 1 ∧ (vacant 1 (.tabulated point)).OfParams thin ∧
    Window.insertion (vacant 1 (.tabulated point)) 0 none =
      .ok ⟨⟨ticksPerPeriod, 1⟩, ⟨ticksPerPeriod, 1⟩⟩ ∧
    insert (vacant 1 (.tabulated point)) thinModel 0 ⟨⟨ticksPerPeriod, 1⟩, ⟨ticksPerPeriod, 1⟩⟩
      ⟨0, 1⟩ ⟨5, 1⟩ = .error .overflow := by
  have hkernel : ∀ r, thin.retarded = some r → r.kernel.Square := fun r hr => by cases hr
  have hm := Model.regular_of_ofParams ofParams_thin fun r hr => (hkernel r hr).numbered
  exact ⟨ofParams_thin, hkernel, State.consistent_empty one_pos nil_valid rfl 1,
    .single rfl rfl rfl rfl rfl, vacant_window one_pos _,
    insert_vacant hm rfl (by decide) (by decide)
      (point_element ⟨rfl, Time.behind_lt _ _⟩ ⟨rfl, Time.behind_lt _ _⟩)⟩

def undefinedTable : MeshFunction Float := MeshFunction.constant (0 / 0) 1 fun _ _ => -1

def undefinedParams : Params Float := Params.ofModel 1 [0] [[0]] [.tabulated undefinedTable]

def undefinedModel : Model Float := ⟨1, [0], Grid.ofFn 1 1 undefinedParams.coupling, none, none⟩

theorem undefined_element {x y : Key Float} (hx : x.time.IsPoint 1) (hy : y.time.IsPoint 1) :
    (Hybridization.tabulated undefinedTable).element x y =
      .error (.outsideMesh (Time.scale (Time.gap x.time.ticks y.time.ticks) 1)) := by
  have hbeta : Binary64.IsUndefined undefinedTable.beta := rfl
  rw [Hybridization.element, Time.sub_eq hx hy, Outcome.ok_bind, Hybridization.value,
    hbeta.value]
  rfl

theorem ofParams_undefined : Model.ofParams undefinedParams = .ok undefinedModel := by
  have hnone : undefinedParams.problem? = none := Option.isNone_iff_eq_none.mp (by decide +kernel)
  rw [Model.ofParams, hnone]
  rfl

/-- In binary floating point a table whose period is undefined obeys the rules of parameters, as it
differs from no period, but no segment can be proposed. -/
theorem insert_undefined_outside :
    Model.ofParams undefinedParams = .ok undefinedModel ∧
    (∀ r, undefinedParams.retarded = some r → r.kernel.Square) ∧
    (∀ f, .tabulated f ∈ undefinedParams.hybridization → f.Square) ∧
    Time.Resolved (1 : Float) ∧ (vacant 1 (.tabulated undefinedTable)).Consistent 1 ∧
    (vacant 1 (.tabulated undefinedTable)).OfParams undefinedParams ∧
    Window.insertion (vacant 1 (.tabulated undefinedTable)) 0 none =
      .ok ⟨⟨ticksPerPeriod, 1⟩, ⟨ticksPerPeriod, 1⟩⟩ ∧
    ∃ tau, insert (vacant 1 (.tabulated undefinedTable)) undefinedModel 0
      ⟨⟨ticksPerPeriod, 1⟩, ⟨ticksPerPeriod, 1⟩⟩ ⟨0, 1⟩ ⟨5, 1⟩ = .error (.outsideMesh tau) := by
  have hkernel : ∀ r, undefinedParams.retarded = some r → r.kernel.Square := fun r hr => by cases hr
  have hpos : (0 : Float) < 1 := by decide +kernel
  have hm := Model.regular_of_ofParams ofParams_undefined fun r hr => by cases hr
  have hresolved : Time.Resolved undefinedModel.beta := inferInstanceAs (Time.Resolved (1 : Float))
  refine ⟨ofParams_undefined, hkernel, fun f hf => ?_, hresolved,
    State.consistent_empty hpos nil_valid rfl 1, .single rfl rfl rfl rfl rfl, vacant_window hpos _,
    _, insert_vacant hm rfl (by decide) (by decide)
      (undefined_element ⟨rfl, Time.behind_lt _ _⟩ ⟨rfl, Time.behind_lt _ _⟩)⟩
  cases List.mem_singleton.mp hf
  exact MeshFunction.constant_square _ 1 _

end Proposal

end ImpuritySampler
