import ImpuritySampler.Proofs.Move.Draw
import ImpuritySampler.Proofs.Move.Preserve

/-!
# What a draw edits

A draw is degenerate or edits its line in one of four ways. Which edit it is depends on the line
alone; whether the price of the edit can be read is up to the model.
-/

set_option autoImplicit false

namespace ImpuritySampler

open Line

variable {α : Type} {beta : α} {l m : Line α} {x : Draw α} {change : Change α}

/-- The window next to a place, and the whole cycle on an empty line. -/
inductive Window.On (beta : α) (l : Line α) : Option ℕ → Window α → Prop
  | cycle (h : l = []) : On beta l none ⟨⟨ticksPerPeriod, beta⟩, ⟨ticksPerPeriod, beta⟩⟩
  | gap {i : ℕ} {p q : Segment α} (hp : l[i]? = some p) (hq : l[nextPlace i l.length]? = some q) :
    On beta l (some i)
      ⟨p.creation, ⟨Time.gap p.creation.ticks q.annihilation.ticks, p.creation.period⟩⟩

/-- The draw edits the line `l` to the line `m` by the given change. -/
inductive Draw.Edits (beta : α) (l : Line α) : Draw α → Change α → Line α → Prop
  | insert {index : Option ℕ} {w : Window α} {d₁ d₂ : Time α} {u : Segment α}
    (hw : w.On beta l index) (h₁ : w.Admits d₁) (h₂ : w.Admits d₂) (hne : d₁.ticks ≠ d₂.ticks)
    (hu : w.spanned (0 < l.length) d₁.ticks d₂.ticks = u) (hfits : Fits beta l u) (ht : Tidy l) :
    Edits beta l (.insert index d₁ d₂) (.insert u) (l.put u)
  | remove {i : ℕ} {u : Segment α} (hu : l[i]? = some u) (ht : Tidy l) :
    Edits beta l (.remove i) (.remove i) (l.eraseIdx i)
  | split {i : ℕ} {d₁ d₂ a c : Time α} {u : Segment α} (hu : l[i]? = some u)
    (h₁ : Window.Admits ⟨u.annihilation, ⟨u.ticks.card, beta⟩⟩ d₁)
    (h₂ : Window.Admits ⟨u.annihilation, ⟨u.ticks.card, beta⟩⟩ d₂) (hd : Splits u d₁.ticks d₂.ticks)
    (hac : Window.spanned ⟨u.annihilation, ⟨u.ticks.card, beta⟩⟩ (¬u.Whole) d₁.ticks d₂.ticks =
      ⟨c, a⟩) :
    Edits beta l (.split i d₁ d₂) (.split i a c) (l.holed i u a c)
  | regroup {i : ℕ} {p q : Segment α} (hp : l[i]? = some p)
    (hq : l[nextPlace i l.length]? = some q) (ht : Tidy l) :
    Edits beta l (.regroup i) (.regroup i) (closed beta l i p q)

theorem Window.On.offered {index : Option ℕ} {w : Window α} (h : w.On beta l index) :
    Offered l index := by
  cases h with
  | cycle h => exact h
  | gap hp _ => exact (List.getElem?_eq_some_iff.mp hp).1

variable [Scalar α] {s : State α} {color : ℕ} {model : Model α} {o : Offer α}

theorem Window.insertion_eq_ok [Time.Resolved beta] {index : Option ℕ} {w : Window α}
    (hb : 0 < beta) (hbeta : s.config.beta = beta) (hl : s.config.line color = .ok l)
    (hv : l.Valid beta) (hi : Offered l index) :
    insertion s color index = .ok w ↔ w.On beta l index := by
  cases index with
  | none =>
    rw [insertion_none hb hbeta hl]
    constructor
    · rintro h
      cases h
      exact .cycle hi
    · rintro ⟨-⟩
      rfl
  | some i =>
    have hi : i < l.length := hi
    have hp := List.getElem?_eq_getElem hi
    have hq := List.getElem?_eq_getElem (nextPlace_lt hi)
    rw [insertion_some hl hv hp hq]
    constructor
    · rintro h
      cases h
      exact .gap hp hq
    · intro h
      cases h with
      | gap hp' hq' =>
        cases hp.symm.trans hp'
        cases hq.symm.trans hq'
        rfl

/-- A pair of operators is put in, or taken out by the row of its creation and the column of its
annihilation, so that the operators of a color come to be those of the line `m`. -/
inductive State.Exchanges (beta : α) (s : State α) (color : ℕ) (m : Line α) (r : α × State α) : Prop
  | pair {a c : Time α} (ha : a.IsPoint beta) (hc : c.IsPoint beta)
    (hm : m.Extends (s.config.lineAt color) a.ticks c.ticks) (h : s.tryPair color a c = .ok r) :
    Exchanges beta s color m r
  | drop {j : ℕ} {q : Segment α} {c : Time α} (ht : (s.config.lineAt color).Tidy)
    (hq : (s.config.lineAt color)[j]? = some q)
    (hm : (s.config.lineAt color).Extends m q.annihilation.ticks c.ticks)
    (h : s.tryDrop color j c = .ok r) : Exchanges beta s color m r

namespace Draw

-- the number of ticks of a segment is not to be computed where it is compared
attribute [local irreducible] Segment.ticks

section Read

variable [Time.Resolved beta] (hb : 0 < beta) (hs : s.config.Valid beta)
  (hbeta : s.config.beta = beta) (hc : color < s.config.colors)

include hb hs hbeta hc

theorem exists_edits (hx : x.Possible s color) :
    (∀ model, x.propose s model color = .ok (Proposal.degenerate s)) ∨
      ∃ change m, x.Edits beta (s.config.lineAt color) change m := by
  have hv := hs.lineAt hc
  have hline := Configuration.line_eq hc
  cases x with
  | insert index d₁ d₂ =>
    obtain ⟨hfull, hindex, w, hw, h₁, h₂⟩ := hx
    by_cases hne : d₁.ticks = d₂.ticks
    · left
      intro model
      rw [propose, hw, Outcome.ok_bind, Proposal.insert, if_pos hne, Outcome.pure_eq]
    · right
      obtain ⟨w', hw', hinserts⟩ := Window.insertion_defined hb hbeta hline hv hindex
      cases hw'.symm.trans hw
      exact ⟨_, _, .insert ((Window.insertion_eq_ok hb hbeta hline hv hindex).mp hw) h₁ h₂ hne rfl
        (hinserts.fits_spanned h₁.1 h₂.1 hne) (Configuration.tidy_of_isFull hb hs hc hfull)⟩
  | remove i =>
    obtain ⟨hfull, hi⟩ := hx
    exact .inr ⟨_, _, .remove (List.getElem?_eq_getElem hi)
      (Configuration.tidy_of_isFull hb hs hc hfull)⟩
  | split i d₁ d₂ =>
    obtain ⟨-, w, hw, h₁, h₂⟩ := hx
    obtain ⟨u, hu, -, rfl⟩ := Window.of_split hv hline hw
    by_cases hd : Splits u d₁.ticks d₂.ticks
    · exact .inr ⟨_, _, .split hu h₁ h₂ hd rfl⟩
    · exact .inl fun model => Proposal.split_degenerate hline
        (Configuration.isFull_eq hb hs hc hu) hd
  | regroup i =>
    obtain ⟨hfull, hi⟩ := hx
    exact .inr ⟨_, _, .regroup (List.getElem?_eq_getElem hi)
      (List.getElem?_eq_getElem (nextPlace_lt hi))
      (Configuration.tidy_of_isFull hb hs hc hfull)⟩

variable (hx : x.Edits beta (s.config.lineAt color) change m)

include hx

theorem Edits.possible : x.Possible s color := by
  have hv := hs.lineAt hc
  have hline := Configuration.line_eq hc
  cases hx with
  | insert hw h₁ h₂ _ _ _ ht =>
    exact ⟨Configuration.isFull_of_tidy hb hs hc ht, hw.offered, _,
      (Window.insertion_eq_ok hb hbeta hline hv hw.offered).mpr hw, h₁, h₂⟩
  | remove hu ht =>
    exact ⟨Configuration.isFull_of_tidy hb hs hc ht, (List.getElem?_eq_some_iff.mp hu).1⟩
  | split hu h₁ h₂ _ _ =>
    exact ⟨(List.getElem?_eq_some_iff.mp hu).1, _,
      Window.split_eq hline hu (hv.onCycle _ (List.mem_of_getElem? hu)), h₁, h₂⟩
  | regroup hp _ ht =>
    exact ⟨Configuration.isFull_of_tidy hb hs hc ht, (List.getElem?_eq_some_iff.mp hp).1⟩

omit [Time.Resolved beta] in
theorem Edits.apply : change.apply color s.config = .ok (s.config.setLine color m) := by
  cases hx with
  | insert => rw [Change.apply, Configuration.insert_eq hc, Outcome.ok_bind, Outcome.pure_eq]
  | remove hu => rw [Change.apply, Configuration.remove_eq hc hu, Outcome.ok_bind, Outcome.pure_eq]
  | split hu => rw [Change.apply, Configuration.split_eq hb hs hc hu]
  | regroup hp hq =>
    rw [Change.apply, Configuration.regroup_eq hb hbeta hc hp hq, Outcome.ok_bind, Outcome.pure_eq]

/-- The offer for a draw that edits the line holds the change, and a trial that exchanges its
operators. -/
theorem Edits.offered (ho : x.propose s model color = .ok o) :
    ∃ trace ratio chance trial, o = Proposal.offer trial color change trace ratio chance ∧
      s.Exchanges beta color m (ratio, trial) := by
  have hv := hs.lineAt hc
  have hline := Configuration.line_eq hc
  cases hx with
  | insert hw h₁ h₂ hne hu hfits ht =>
    obtain ⟨w', hw', hinserts⟩ := Window.insertion_defined hb hbeta hline hv hw.offered
    have hw := (Window.insertion_eq_ok hb hbeta hline hv hw.offered).mpr hw
    cases hw'.symm.trans hw
    rw [propose, hw, Outcome.ok_bind] at ho
    obtain ⟨trace, ratio, trial, -, htrial, rfl⟩ := (Proposal.insert_eq_ok hline hinserts
      (h₁.2.trans hinserts.length) (h₂.2.trans hinserts.length) h₁.1 h₂.1 hne hu).mp ho
    exact ⟨_, _, _, _, rfl, .pair hfits.annihilation hfits.creation
      (extends_of_perm hfits.not_whole (put_perm _ _)) htrial⟩
  | remove hu ht =>
    obtain ⟨trace, ratio, trial, length, -, htrial, -, rfl⟩ :=
      (Proposal.remove_eq_ok hline hu).mp ho
    exact ⟨_, _, _, _, rfl, .drop ht hu
      (extends_of_perm (ht.not_whole (List.mem_of_getElem? hu)) (perm_eraseIdx hu).symm) htrial⟩
  | split hu h₁ h₂ hd hac =>
    have hcycle := hv.onCycle _ (List.mem_of_getElem? hu)
    obtain ⟨-, ha, hcp⟩ := hcycle.hole_spanned h₁.1 h₂.1 hd.1 hd.2 hac
    obtain ⟨trace, ratio, trial, -, htrial, rfl⟩ := (Proposal.split_eq_ok hline hu hcycle
      (Configuration.isFull_eq hb hs hc hu) h₁.2 h₂.2 h₁.1 h₂.1 hd.1 hd.2 hac).mp ho
    exact ⟨_, _, _, _, rfl, .pair ha hcp (hv.holed_extends hu ha hcp) htrial⟩
  | regroup hp hq ht =>
    obtain ⟨trace, ratio, trial, -, htrial, rfl⟩ :=
      (Proposal.regroup_eq_ok hline hv ht hp hq hbeta).mp ho
    exact ⟨_, _, _, _, rfl, .drop ht hq (ht.extends_closed hp hq beta) htrial⟩

theorem Edits.proposal (ho : x.propose s model color = .ok o) :
    ∃ sign, o.proposal = some ⟨color, change, sign⟩ := by
  obtain ⟨trace, ratio, chance, trial, rfl, -⟩ := hx.offered hb hs hbeta hc ho
  exact ⟨_, rfl⟩

end Read

theorem Edits.made {p : Params α} [Time.Resolved p.beta] (h : Setting p model s color)
    (hx : x.Edits p.beta (s.config.lineAt color) change m) :
    ∃ o, x.propose s model color = .ok o := by
  have hv := h.line
  have hline := Configuration.line_eq h.lt
  have hresolved := h.resolved
  cases hx with
  | insert hw h₁ h₂ hne hu hfits ht =>
    obtain ⟨w', hw', hinserts⟩ := Window.insertion_defined h.pos h.run.beta hline hv hw.offered
    have hw := (Window.insertion_eq_ok h.pos h.run.beta hline hv hw.offered).mpr hw
    cases hw'.symm.trans hw
    obtain ⟨o, ho, -⟩ := h.insert_moves hinserts (h₁.2.trans hinserts.length)
      (h₂.2.trans hinserts.length) h₁.1 h₂.1 hne
    exact ⟨o, by rw [propose, hw, Outcome.ok_bind, ho]⟩
  | remove hu ht =>
    obtain ⟨o, ho, -⟩ := h.remove_moves hu (ht.not_whole (List.mem_of_getElem? hu))
    exact ⟨o, ho⟩
  | split hu h₁ h₂ hd _ =>
    obtain ⟨o, ho, -⟩ := h.split_moves hu h₁.2 h₂.2 h₁.1 h₂.1 hd
    exact ⟨o, ho⟩
  | regroup hp hq ht =>
    obtain ⟨trial, trace, ratio, d, ho, -⟩ := Proposal.regroup_offer h.regular
      (h.beta ▸ h.matched) (h.run.beta.trans h.beta.symm) (h.run.colors.trans h.colors.symm) h.lt
      ht hp hq
    exact ⟨_, ho⟩

end Draw

end ImpuritySampler
