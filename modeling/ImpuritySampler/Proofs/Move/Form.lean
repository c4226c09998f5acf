import ImpuritySampler.Proofs.Line.Neighbours
import ImpuritySampler.Proofs.Move.Regroup

/-!
# The three factors of a price

A proposal whose times are known multiplies three ratios: the one of the local weights, the one that
the trial of the determinant returns, and the one of the chances to propose the change and its
reverse. The last one depends on the number of segments and on one length alone, and the factors for
a change and its reverse are reciprocal if both find the same length.
-/

set_option autoImplicit false

namespace ImpuritySampler

open Line

variable {α : Type}

/-- The segment between two points of a window, put in order unless the order is free. -/
def Window.spanned (w : Window α) (inOrder : Prop) [Decidable inOrder] (d₁ d₂ : ℕ) : Segment α :=
  if inOrder ∧ d₂ < d₁ then w.segment d₂ d₁ else w.segment d₁ d₂

theorem Window.spanned_comm (w : Window α) {inOrder : Prop} [Decidable inOrder] (h : inOrder)
    (d₁ d₂ : ℕ) : w.spanned inOrder d₁ d₂ = w.spanned inOrder d₂ d₁ := by
  rcases lt_trichotomy d₁ d₂ with hlt | rfl | hlt
  · rw [spanned, spanned, if_neg fun hc => absurd hc.2 (lt_asymm hlt), if_pos ⟨h, hlt⟩]
  · rfl
  · rw [spanned, spanned, if_pos ⟨h, hlt⟩, if_neg fun hc => absurd hc.2 (lt_asymm hlt)]

theorem Window.spanned_eq (w : Window α) (inOrder : Prop) [Decidable inOrder] {d₁ d₂ : ℕ}
    (hne : d₁ ≠ d₂) : ∃ near far, w.spanned inOrder d₁ d₂ = w.segment near far ∧
      (inOrder → near < far) ∧ ((near = d₁ ∧ far = d₂) ∨ (near = d₂ ∧ far = d₁)) := by
  by_cases h : inOrder ∧ d₂ < d₁
  · exact ⟨d₂, d₁, by rw [spanned, if_pos h], fun _ => h.2, .inr ⟨rfl, rfl⟩⟩
  · refine ⟨d₁, d₂, by rw [spanned, if_neg h], fun ho => ?_, .inl ⟨rfl, rfl⟩⟩
    exact lt_of_le_of_ne (not_lt.mp fun hlt => h ⟨ho, hlt⟩) hne

theorem Window.Inserts.fits_spanned [Scalar α] {beta : α} {l : Line α} {w : Window α}
    {d₁ d₂ : ℕ} (h : w.Inserts beta l) (h₁ : d₁ < w.length.ticks) (h₂ : d₂ < w.length.ticks)
    (hne : d₁ ≠ d₂) : Fits beta l (w.spanned (0 < l.length) d₁ d₂) := by
  obtain ⟨near, far, heq, horder, ⟨rfl, rfl⟩ | ⟨rfl, rfl⟩⟩ :=
    w.spanned_eq (0 < l.length) hne
  · rw [heq]
    exact h.fits _ h₁ _ h₂ hne horder
  · rw [heq]
    exact h.fits _ h₂ _ h₁ hne.symm horder

section Factors

variable [Scalar α]

section Put

variable {beta : α} [Time.Resolved beta] {s after : State α} {color i j : ℕ} {l : Line α}
variable {w : Window α} {u : Segment α} {d₁ d₂ : ℕ}

theorem Window.neighbours_put (hl : s.config.line color = .ok l) (hv : l.Valid beta)
    (hi : i < l.length) (hw : insertion s color (some i) = .ok w) (h₁ : d₁ < w.length.ticks)
    (h₂ : d₂ < w.length.ticks) (hne : d₁ ≠ d₂) (hu : w.spanned (0 < l.length) d₁ d₂ = u) :
    ∃ p q, l[i]? = some p ∧ Tidy l ∧ p.creation.sub q.annihilation = .ok w.length ∧
      ∀ j, (l.put u)[j]? = some u → (l.put u)[nextPlace j (l.put u).length]? = some q ∧
        (l.put u)[previousPlace j (l.put u).length]? = some p := by
  obtain ⟨p, hp⟩ : ∃ p, l[i]? = some p := ⟨_, List.getElem?_eq_getElem hi⟩
  obtain ⟨q, hq⟩ : ∃ q, l[nextPlace i l.length]? = some q :=
    ⟨_, List.getElem?_eq_getElem (nextPlace_lt hi)⟩
  have hpl := List.mem_of_getElem? hp
  have hql := List.mem_of_getElem? hq
  cases (insertion_some hl hv hp hq).symm.trans hw
  have ht : Tidy l := hv.tidy_of_room hpl hql (Nat.zero_lt_of_lt h₁)
  obtain ⟨near, far, heq, horder, hnear⟩ := spanned_eq _ (0 < l.length) hne
  have hfar : far < Time.gap p.creation.ticks q.annihilation.ticks := by
    rcases hnear with ⟨-, rfl⟩ | ⟨-, rfl⟩
    · exact h₂
    · exact h₁
  exact ⟨p, q, hp, ht, hv.gap_sub hpl hql, fun j hj =>
    ht.put_neighbours hp hq (horder (Nat.zero_lt_of_lt hi)) hfar (hu.symm.trans heq) hj⟩

/-- The window that a removal looks up is the one in which the segment was put. -/
theorem Window.removalLength_put {index : Option ℕ} (hb : 0 < beta)
    (hbeta : s.config.beta = beta) (hafter : after.config.beta = beta)
    (hl : s.config.line color = .ok l) (hv : l.Valid beta) (hindex : Offered l index)
    (hw : insertion s color index = .ok w) (h₁ : d₁ < w.length.ticks) (h₂ : d₂ < w.length.ticks)
    (hne : d₁ ≠ d₂) (hu : w.spanned (0 < l.length) d₁ d₂ = u)
    (hput : after.config.line color = .ok (l.put u)) (hj : (l.put u)[j]? = some u) :
    removalLength after color j = .ok w.length := by
  rw [removalLength, hput, Outcome.ok_bind]
  cases index with
  | none =>
    obtain rfl : l = [] := hindex
    cases (insertion_none hb hbeta hl).symm.trans hw
    rw [length_put, List.length_nil, if_pos rfl, Time.final, Time.requirePeriod, hafter,
      Outcome.require_true hb]
    rfl
  | some i =>
    have hi : i < l.length := hindex
    obtain ⟨p, q, -, -, hsub, hplaces⟩ := neighbours_put hl hv hi hw h₁ h₂ hne hu
    obtain ⟨hnext, hprevious⟩ := hplaces j hj
    have hjl : j < (l.put u).length := (List.getElem?_eq_some_iff.mp hj).1
    have hn : (l.put u).length ≠ 1 := by
      rw [length_put]
      omega
    rw [if_neg hn, previous_eq hjl, Outcome.ok_bind, Outcome.nth_eq_ok.mpr hprevious,
      Outcome.ok_bind, next_eq hjl, Outcome.ok_bind, Outcome.nth_eq_ok.mpr hnext, Outcome.ok_bind,
      hsub]

end Put

omit [Scalar α] in
theorem Segment.OnCycle.hole_spanned {beta : α} {u : Segment α} {d₁ d₂ : ℕ} {a c : Time α}
    (h : u.OnCycle beta) (h₁ : d₁ < u.ticks.card) (h₂ : d₂ < u.ticks.card) (hne : d₁ ≠ d₂)
    (hends : ¬u.Whole → d₁ ≠ 0 ∧ d₂ ≠ 0)
    (hac : Window.spanned ⟨u.annihilation, ⟨u.ticks.card, beta⟩⟩ (¬u.Whole) d₁ d₂ = ⟨c, a⟩) :
    Hole u a c ∧ a.IsPoint beta ∧ c.IsPoint beta := by
  obtain ⟨near, far, heq, horder, hcases⟩ :=
    Window.spanned_eq ⟨u.annihilation, ⟨u.ticks.card, beta⟩⟩ (¬u.Whole) hne
  have hnear : near < u.ticks.card ∧ far < u.ticks.card ∧ near ≠ far ∧ (¬u.Whole → 0 < near) := by
    rcases hcases with ⟨rfl, rfl⟩ | ⟨rfl, rfl⟩
    · exact ⟨h₁, h₂, hne, fun hw => Nat.pos_of_ne_zero (hends hw).1⟩
    · exact ⟨h₂, h₁, hne.symm, fun hw => Nat.pos_of_ne_zero (hends hw).2⟩
  obtain ⟨rfl, rfl⟩ := Segment.mk.inj (hac.symm.trans heq)
  have hhole := h.hole_behind hnear.1 hnear.2.1 hnear.2.2.1 fun hw =>
    ⟨hnear.2.2.2 hw, horder hw⟩
  dsimp only
  rw [h.annihilation]
  exact ⟨hhole, ⟨rfl, Time.behind_lt _ _⟩, ⟨rfl, Time.behind_lt _ _⟩⟩

section Chances

/-- Ratio of the chances to propose a segment on a line of `n` segments, in a window of a given
length, and to propose its removal. -/
def insertionChance (n : ℕ) (length : α) : α :=
  ((max n 1 : ℕ) : α) * length * length / (if n = 0 then 1 else ((2 : ℕ) : α)) / ((n : α) + 1)

def removalChance (n : ℕ) (length : α) : α :=
  (n : α) / (((max (n - 1) 1 : ℕ) : α) * length * length / (if n = 1 then 1 else ((2 : ℕ) : α)))

def splitChance (full : Bool) (n : ℕ) (length : α) : α :=
  if full then length * length
  else (n : α) * length * length / ((2 : ℕ) : α) / ((n : α) + 1)

end Chances

namespace Proposal

variable {beta : α} {m : Model α} {s : State α} {color i : ℕ} {l : Line α} {u p q : Segment α}
variable {d₁ d₂ : Time α} {o : Offer α}

theorem insert_eq_ok [Time.Resolved beta] {w : Window α} (hl : s.config.line color = .ok l)
    (hw : w.Inserts beta l) (hp₁ : d₁.period = beta) (hp₂ : d₂.period = beta)
    (h₁ : d₁.ticks < w.length.ticks) (h₂ : d₂.ticks < w.length.ticks)
    (hne : d₁.ticks ≠ d₂.ticks) (hu : w.spanned (0 < l.length) d₁.ticks d₂.ticks = u) :
    insert s m color w d₁ d₂ = .ok o ↔ ∃ trace ratio trial,
      LocalRatio.insert s.config m color u = .ok trace ∧
      s.tryPair color u.annihilation u.creation = .ok (ratio, trial) ∧
      o = offer trial color (.insert u) trace ratio
        (insertionChance l.length w.length.value) := by
  have hle := hw.le
  have hbefore : ∀ {d : Time α}, d.period = beta → d.ticks < w.length.ticks →
      w.before d = .ok ⟨Time.behind w.left.ticks d.ticks, w.left.period⟩ := fun hp h =>
    Window.before_eq hw.left hp (by omega)
  have hann : w.before (if 0 < l.length ∧ d₂.ticks < d₁.ticks then d₂ else d₁) =
      .ok u.annihilation := by
    subst hu
    rw [Window.spanned]
    split_ifs
    · exact hbefore hp₂ h₂
    · exact hbefore hp₁ h₁
  have hcre : w.before (if 0 < l.length ∧ d₂.ticks < d₁.ticks then d₁ else d₂) =
      .ok u.creation := by
    subst hu
    rw [Window.spanned]
    split_ifs
    · exact hbefore hp₁ h₁
    · exact hbefore hp₂ h₂
  rw [insert, if_neg hne, hl, Outcome.ok_bind]
  simp only [hann, hcre, Outcome.ok_bind]
  refine Outcome.bind_pair_eq_ok ?_
  exact fun _ _ _ => rfl

theorem remove_eq_ok (hl : s.config.line color = .ok l) (hu : l[i]? = some u) :
    remove s m color i = .ok o ↔ ∃ trace ratio trial length,
      LocalRatio.remove s.config m color i = .ok trace ∧
      s.tryDrop color i u.creation = .ok (ratio, trial) ∧
      Window.removalLength trial color i = .ok length ∧
      o = offer trial color (.remove i) trace ratio (removalChance l.length length.value) := by
  rw [remove, hl, Outcome.ok_bind]
  simp only [Outcome.nth_eq_ok.mpr hu, Outcome.ok_bind]
  simp only [Outcome.bind_eq_ok, Outcome.pure_eq, Except.ok.injEq, Prod.exists]
  constructor
  · rintro ⟨trace, htrace, ratio, trial, htrial, length, hlength, rfl⟩
    exact ⟨trace, ratio, trial, length, htrace, htrial, hlength, rfl⟩
  · rintro ⟨trace, ratio, trial, length, htrace, htrial, hlength, rfl⟩
    exact ⟨trace, htrace, ratio, trial, htrial, length, hlength, rfl⟩

theorem split_degenerate (hl : s.config.line color = .ok l)
    (hfull : s.config.isFull color = .ok (decide u.Whole))
    (hd : ¬(d₁.ticks ≠ d₂.ticks ∧ (¬u.Whole → d₁.ticks ≠ 0 ∧ d₂.ticks ≠ 0))) :
    split s m color i d₁ d₂ = .ok (degenerate s) := by
  by_cases hne : d₁.ticks = d₂.ticks
  · rw [split, if_pos hne, Outcome.pure_eq]
  · have hstart : decide u.Whole = false ∧
        (if decide u.Whole = false ∧ d₂.ticks < d₁.ticks then d₂ else d₁).ticks = 0 := by
      grind
    rw [split, if_neg hne, hfull, Outcome.ok_bind, hl, Outcome.ok_bind, if_pos hstart,
      Outcome.pure_eq]

theorem split_eq_ok [Time.Resolved beta] {a c : Time α} (hl : s.config.line color = .ok l)
    (hu : l[i]? = some u) (hcycle : u.OnCycle beta)
    (hfull : s.config.isFull color = .ok (decide u.Whole))
    (hp₁ : d₁.period = beta) (hp₂ : d₂.period = beta)
    (h₁ : d₁.ticks < u.ticks.card) (h₂ : d₂.ticks < u.ticks.card)
    (hne : d₁.ticks ≠ d₂.ticks) (hends : ¬u.Whole → d₁.ticks ≠ 0 ∧ d₂.ticks ≠ 0)
    (hac : Window.spanned ⟨u.annihilation, ⟨u.ticks.card, beta⟩⟩ (¬u.Whole) d₁.ticks d₂.ticks =
      ⟨c, a⟩) :
    split s m color i d₁ d₂ = .ok o ↔ ∃ trace ratio trial,
      LocalRatio.split s.config m color a c = .ok trace ∧
      s.tryPair color a c = .ok (ratio, trial) ∧
      o = offer trial color (.split i a c) trace ratio
        (splitChance (decide u.Whole) l.length (Time.scale u.ticks.card beta)) := by
  have hcre : Window.before ⟨u.annihilation, ⟨u.ticks.card, beta⟩⟩
      (if decide u.Whole = false ∧ d₂.ticks < d₁.ticks then d₂ else d₁) = .ok c := by
    rw [show c = (Segment.mk c a).annihilation from rfl, ← hac, Window.spanned]
    simp only [decide_eq_false_iff_not]
    split_ifs
    · rw [Window.before_inside hcycle hp₂ h₂, Window.segment, hcycle.annihilation]
    · rw [Window.before_inside hcycle hp₁ h₁, Window.segment, hcycle.annihilation]
  have hann : Window.before ⟨u.annihilation, ⟨u.ticks.card, beta⟩⟩
      (if decide u.Whole = false ∧ d₂.ticks < d₁.ticks then d₁ else d₂) = .ok a := by
    rw [show a = (Segment.mk c a).creation from rfl, ← hac, Window.spanned]
    simp only [decide_eq_false_iff_not]
    split_ifs
    · rw [Window.before_inside hcycle hp₁ h₁, Window.segment, hcycle.annihilation]
    · rw [Window.before_inside hcycle hp₂ h₂, Window.segment, hcycle.annihilation]
  have hstart : ¬(decide u.Whole = false ∧
      (if decide u.Whole = false ∧ d₂.ticks < d₁.ticks then d₂ else d₁).ticks = 0) := by
    rintro ⟨hw, hzero⟩
    have hpos := hends (of_decide_eq_false hw)
    split_ifs at hzero <;> omega
  rw [split, if_neg hne, hfull, Outcome.ok_bind, hl, Outcome.ok_bind, if_neg hstart,
    Window.split_eq hl hu hcycle, Outcome.ok_bind, hcre, Outcome.ok_bind, hann, Outcome.ok_bind]
  simp only [splitChance, Time.value]
  refine Outcome.bind_pair_eq_ok ?_
  exact fun _ _ _ => rfl

end Proposal

end Factors

section Reciprocal

variable [ExactScalar α] {length : α}

theorem removal_insertion_chance (n : ℕ) (h : length ≠ 0) :
    removalChance (n + 1) length * insertionChance n length = 1 := by
  have hsucc : ((n : α) + 1) ≠ 0 := Nat.cast_add_one_ne_zero n
  rcases Nat.eq_zero_or_pos n with rfl | hn
  · simp [removalChance, insertionChance]
    field_simp
  · have hcast : (n : α) ≠ 0 := Nat.cast_ne_zero.mpr hn.ne'
    rw [removalChance, insertionChance, Nat.add_sub_cancel, max_eq_left hn, if_neg (by omega),
      if_neg (by omega), Nat.cast_succ]
    field_simp

theorem closing_split_chance {n : ℕ} (hn : 0 < n) (h : length ≠ 0) :
    closingChance (n + 1) length * splitChance false n length = 1 := by
  have hcast : (n : α) ≠ 0 := Nat.cast_ne_zero.mpr hn.ne'
  have hsucc : ((n : α) + 1) ≠ 0 := Nat.cast_add_one_ne_zero n
  have htwo : ((2 : ℕ) : α) ≠ 0 := Nat.cast_ne_zero.mpr two_ne_zero
  rw [closingChance, splitChance, if_neg (by omega), if_neg (by decide), Nat.add_sub_cancel]
  field_simp
  exact Nat.cast_succ n

theorem closing_split_chance_full (n : ℕ) (h : length ≠ 0) :
    closingChance 1 length * splitChance true n length = 1 := by
  rw [closingChance, splitChance, if_pos rfl, if_pos rfl]
  field_simp

variable {beta : α} {l : Line α} {i : ℕ} {u p q : Segment α} {a c : Time α}

theorem closedLength_holed (hv : l.Valid beta) (hu : l[i]? = some u)
    (hmerged : (if (l.holed i u a c).length = 1 then whole beta else joined p q) = u) :
    closedLength beta (l.holed i u a c).length p q = Time.scale u.ticks.card beta := by
  by_cases hw : u.Whole
  · rw [(holed_whole hv hu hw).2, List.length_singleton, closedLength, if_pos rfl,
      Segment.ticks_whole hw, Finset.card_range, Time.scale_final]
  · have hn : 0 < l.length := List.length_pos_of_mem (List.mem_of_getElem? hu)
    rw [length_holed hu hw] at hmerged ⊢
    rw [if_neg (by omega)] at hmerged
    rw [closedLength, if_neg (by omega),
      Segment.card_ticks (hv.onCycle u (List.mem_of_getElem? hu)).placed, ← hmerged]
    rfl

theorem closing_holed_chance (hb : 0 < beta) (hv : l.Valid beta) (hu : l[i]? = some u)
    (hmerged : (if (l.holed i u a c).length = 1 then whole beta else joined p q) = u) :
    closingChance (l.holed i u a c).length (closedLength beta (l.holed i u a c).length p q) *
      splitChance (decide u.Whole) l.length (Time.scale u.ticks.card beta) = 1 := by
  have hul := List.mem_of_getElem? hu
  have hpositive : Time.scale u.ticks.card beta ≠ 0 := by
    rw [ne_eq, Time.scale_eq_zero hb, Segment.card_ticks (hv.onCycle u hul).placed]
    exact (Time.gap_pos (hv.onCycle u hul).placed.bounds.2 (hv.positive hul)).ne'
  rw [closedLength_holed hv hu hmerged]
  by_cases hw : u.Whole
  · rw [(holed_whole hv hu hw).2, List.length_singleton, decide_eq_true hw]
    exact closing_split_chance_full _ hpositive
  · rw [length_holed hu hw, decide_eq_false hw]
    exact closing_split_chance (List.length_pos_of_mem hul) hpositive

end Reciprocal

end ImpuritySampler
