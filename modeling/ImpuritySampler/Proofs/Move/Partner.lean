import ImpuritySampler.Proofs.Line.Refill
import ImpuritySampler.Proofs.Move.Chance
import ImpuritySampler.Proofs.Move.Edit

/-!
# Moves and their partners

Insertion and removal draw back what the other one does, and so do cutting and closing a hole. The
windows are half-open, so there are two exceptions. A segment is not put in where it would touch the
next one, so that no insertion follows the removal of such a segment. A hole has a length, so that
no cut follows the closing of a gap without one.
-/

set_option autoImplicit false

namespace ImpuritySampler

open Line

-- the number of ticks of a segment is not to be computed where it is compared
attribute [local irreducible] Segment.ticks

variable {α : Type} {beta : α} {l m : Line α} {i : ℕ} {u p q : Segment α} {x : Draw α}
variable {change : Change α}

namespace Draw

/-- The draw takes out a segment that touches the next one, or closes a gap without a length. -/
def Sticks (x : Draw α) (l : Line α) : Prop :=
  match x with
  | remove i | regroup i => l.Touches i
  | _ => False

def ClosesLast (x : Draw α) (l : Line α) : Prop :=
  match x with
  | regroup i => ∃ p q, l[i]? = some p ∧ l[nextPlace i l.length]? = some q ∧ l.LastHole p q
  | _ => False

end Draw

theorem Window.spanned_of_lt (w : Window α) {inOrder : Prop} [Decidable inOrder] {d₁ d₂ : ℕ}
    (h : inOrder → d₁ < d₂) : w.spanned inOrder d₁ d₂ = w.segment d₁ d₂ :=
  if_neg fun hc => absurd (h hc.1) (lt_asymm hc.2)

theorem Window.segment_final {a c : Time α} (ha : a.IsPoint beta) (hc : c.IsPoint beta)
    (length : Time α) :
    Window.segment ⟨⟨ticksPerPeriod, beta⟩, length⟩ ((ticksPerPeriod - a.ticks) % ticksPerPeriod)
      ((ticksPerPeriod - c.ticks) % ticksPerPeriod) = ⟨a, c⟩ := by
  obtain ⟨a, _⟩ := a
  obtain ⟨c, _⟩ := c
  obtain ⟨rfl, ha⟩ := ha
  obtain ⟨rfl, hc⟩ := hc
  rw [segment, Time.behind_final_gap ha, Time.behind_final_gap hc]

theorem Window.segment_gap {a c left : Time α} (hl : left.IsPoint beta) (ha : a.IsPoint beta)
    (hc : c.IsPoint beta) (length : Time α) :
    Window.segment ⟨left, length⟩ (Time.gap left.ticks a.ticks) (Time.gap left.ticks c.ticks) =
      ⟨a, c⟩ := by
  obtain ⟨a, _⟩ := a
  obtain ⟨c, _⟩ := c
  obtain ⟨rfl, ha⟩ := ha
  obtain ⟨rfl, hc⟩ := hc
  rw [segment, Time.behind_gap hl.lt ha, Time.behind_gap hl.lt hc, hl.period]

section Partner

variable (hv : l.Valid beta) (ht : Tidy l)

include hv ht

/-- A segment that does not touch the next one is drawn again after its removal. -/
theorem Line.Valid.refill (hu : l[i]? = some u) (hfree : ¬l.Touches i) :
    ∃ index d₁ d₂, Draw.Edits beta (l.eraseIdx i) (.insert index d₁ d₂) (.insert u) l := by
  have hul := List.mem_of_getElem? hu
  have hi := (List.getElem?_eq_some_iff.mp hu).1
  obtain ⟨hua, huc⟩ := (hv.onCycle u hul).points (ht.not_whole hul)
  have hpositive := ht.positive u hul
  have hfits : Fits beta (l.eraseIdx i) u :=
    ⟨hua, huc, hpositive, ht.disjoint_of_perm (perm_eraseIdx hu)⟩
  suffices h : ∃ index w d₁ d₂, Window.On beta (l.eraseIdx i) index w ∧ w.Admits ⟨d₁, beta⟩ ∧
      w.Admits ⟨d₂, beta⟩ ∧ d₁ ≠ d₂ ∧ w.spanned (0 < (l.eraseIdx i).length) d₁ d₂ = u by
    obtain ⟨index, w, d₁, d₂, hw, h₁, h₂, hne, hspan⟩ := h
    have hedit := Draw.Edits.insert hw h₁ h₂ hne hspan hfits (ht.eraseIdx i)
    rw [ht.put_eraseIdx hu] at hedit
    exact ⟨index, _, _, hedit⟩
  by_cases hn : l.length = 1
  · have hnil : l.eraseIdx i = [] := by
      refine List.eq_nil_of_length_eq_zero ?_
      rw [List.length_eraseIdx_of_lt hi, hn]
    have hempty : ¬0 < (l.eraseIdx i).length := by rw [hnil]; exact lt_irrefl 0
    have hspan := Window.segment_final hua huc ⟨ticksPerPeriod, beta⟩
    refine ⟨none, _, (ticksPerPeriod - u.annihilation.ticks) % ticksPerPeriod,
      (ticksPerPeriod - u.creation.ticks) % ticksPerPeriod, .cycle hnil,
      ⟨Nat.mod_lt _ ticksPerPeriod_pos, rfl⟩, ⟨Nat.mod_lt _ ticksPerPeriod_pos, rfl⟩,
      fun he => hpositive ?_, ?_⟩
    · rw [← Time.behind_final_gap hua.lt, he, Time.behind_final_gap huc.lt]
    · rw [Window.spanned_of_lt _ fun h => absurd h hempty, hspan]
  · obtain ⟨p, hp⟩ : ∃ p, l[previousPlace i l.length]? = some p :=
      ⟨_, List.getElem?_eq_getElem (previousPlace_lt hi)⟩
    obtain ⟨q, hq⟩ : ∃ q, l[nextPlace i l.length]? = some q :=
      ⟨_, List.getElem?_eq_getElem (nextPlace_lt hi)⟩
    have hpl := List.mem_of_getElem? hp
    have hpc := ((hv.onCycle p hpl).points (ht.not_whole hpl)).2
    obtain ⟨k, hpk, hqk⟩ := ht.next_eraseIdx hn hu hp hq
    obtain ⟨h₁, h₂⟩ := ht.gaps_lt hn hu hp hq fun he => hfree ⟨u, q, hu, hq, he⟩
    refine ⟨some k, _, Time.gap p.creation.ticks u.annihilation.ticks,
      Time.gap p.creation.ticks u.creation.ticks, .gap hpk hqk, ⟨h₁.trans h₂, hpc.period.symm⟩,
      ⟨h₂, hpc.period.symm⟩, h₁.ne, ?_⟩
    rw [Window.spanned_of_lt _ fun _ => h₁]
    exact Window.segment_gap hpc hua huc _

/-- A gap with a length is drawn again after it has been closed, unless it has been the last hole
between two segments. -/
theorem Line.Valid.reopen (hp : l[i]? = some p) (hq : l[nextPlace i l.length]? = some q)
    (hfar : l.length = 1 ∨ p.annihilation.ticks ≠ q.creation.ticks)
    (hnear : p.creation.ticks ≠ q.annihilation.ticks) :
    ∃ k d₁ d₂, Draw.Edits beta (Line.closed beta l i p q) (.split k d₁ d₂)
      (.split k q.annihilation p.creation) l := by
  have hpl := List.mem_of_getElem? hp
  have hql := List.mem_of_getElem? hq
  obtain ⟨hpa, hpc⟩ := (hv.onCycle p hpl).points (ht.not_whole hpl)
  obtain ⟨hqa, hqc⟩ := (hv.onCycle q hql).points (ht.not_whole hql)
  obtain ⟨k, hk⟩ := exists_place_closed beta l i p q
  obtain ⟨v, hvw⟩ : ∃ v, v = if l.length = 1 then whole beta else joined p q := ⟨_, rfl⟩
  rw [← hvw] at hk
  have hback := ht.holed_closed hp hq hk hvw
  suffices h : ∃ d₁ d₂, d₁ < v.ticks.card ∧ d₂ < v.ticks.card ∧ Splits v d₁ d₂ ∧
      Window.spanned ⟨v.annihilation, ⟨v.ticks.card, beta⟩⟩ (¬v.Whole) d₁ d₂ =
        ⟨p.creation, q.annihilation⟩ by
    obtain ⟨d₁, d₂, h₁, h₂, hd, hspan⟩ := h
    have hedit : Draw.Edits beta (Line.closed beta l i p q) (.split k ⟨d₁, beta⟩ ⟨d₂, beta⟩) _ _ :=
      .split hk ⟨h₁, rfl⟩ ⟨h₂, rfl⟩ hd hspan
    rw [hback] at hedit
    exact ⟨k, _, _, hedit⟩
  by_cases hn : l.length = 1
  · rw [if_pos hn] at hvw
    have hwhole : v.Whole := hvw ▸ whole_isWhole beta
    have hcard : v.ticks.card = ticksPerPeriod := by
      rw [Segment.ticks_whole hwhole, Finset.card_range]
    have hspan := Window.segment_final hpc hqa ⟨ticksPerPeriod, beta⟩
    refine ⟨(ticksPerPeriod - p.creation.ticks) % ticksPerPeriod,
      (ticksPerPeriod - q.annihilation.ticks) % ticksPerPeriod, ?_, ?_,
      ⟨fun he => hnear ?_, fun h => absurd hwhole h⟩, ?_⟩
    · rw [hcard]
      exact Nat.mod_lt _ ticksPerPeriod_pos
    · rw [hcard]
      exact Nat.mod_lt _ ticksPerPeriod_pos
    · rw [← Time.behind_final_gap hpc.lt, he, Time.behind_final_gap hqa.lt]
    · rw [Window.spanned_of_lt _ fun h => absurd hwhole h, hcard, hvw]
      exact hspan
  · rw [if_neg hn] at hvw
    subst hvw
    obtain ⟨h₀, h₁, h₂⟩ := ht.gaps_closed hn hp hq (hfar.resolve_left hn) hnear
    have hcard : (joined p q).ticks.card = Time.gap p.annihilation.ticks q.creation.ticks :=
      Segment.card_ticks (.inl ⟨hpa.lt, hqc.lt⟩)
    refine ⟨Time.gap p.annihilation.ticks p.creation.ticks,
      Time.gap p.annihilation.ticks q.annihilation.ticks, hcard ▸ h₁.trans h₂,
      hcard ▸ h₂, ⟨h₁.ne, fun _ => ⟨h₀.ne', (h₀.trans h₁).ne'⟩⟩, ?_⟩
    rw [Window.spanned_of_lt _ fun _ => h₁]
    exact Window.segment_gap hpa hpc hqa _

end Partner

namespace Draw

theorem Edits.valid (hv : l.Valid beta) (h : Edits beta l x change m) (hlast : ¬x.ClosesLast l) :
    m.Valid beta := by
  cases h with
  | insert _ _ _ _ _ hfits _ => exact hfits.valid_put hv
  | remove => exact hv.sublist (List.eraseIdx_sublist _ _)
  | split hu h₁ h₂ hd hac =>
    obtain ⟨hhole, ha, hc⟩ := (hv.onCycle _ (List.mem_of_getElem? hu)).hole_spanned h₁.1 h₂.1 hd.1
      hd.2 hac
    exact hv.holed hu ha hc hhole
  | regroup hp hq ht =>
    refine (hv.closed ht hp hq ?_).1
    by_contra hfar
    exact hlast ⟨_, _, hp, hq, (ht.lastHole_iff hp hq).mpr hfar⟩

/-- What a draw edits, a draw of the partner edits back. -/
theorem Edits.partner (hv : l.Valid beta) (h : Edits beta l x change m) (hlast : ¬x.ClosesLast l)
    (hfree : ¬x.Sticks l) : ∃ y reverse, y.kind = x.kind.reverse ∧ Edits beta m y reverse l := by
  cases h with
  | @insert _ _ _ _ u _ _ _ _ _ hfits ht =>
    have hedit : Edits beta (l.put u) _ _ _ := .remove (put_place l u) (hfits.tidy_put hv)
    rw [eraseIdx_put] at hedit
    exact ⟨_, _, rfl, hedit⟩
  | remove hu ht =>
    obtain ⟨index, d₁, d₂, hedit⟩ := hv.refill ht hu hfree
    exact ⟨_, _, rfl, hedit⟩
  | split hu h₁ h₂ hd hac =>
    obtain ⟨hhole, ha, hc⟩ := (hv.onCycle _ (List.mem_of_getElem? hu)).hole_spanned h₁.1 h₂.1 hd.1
      hd.2 hac
    obtain ⟨j, p, q, hp, hq, -, hback, -⟩ := hv.closed_holed hu ha hc hhole
    have hedit : Edits beta _ _ _ _ := .regroup hp hq (hv.tidy_holed hu hhole)
    rw [hback] at hedit
    exact ⟨_, _, rfl, hedit⟩
  | regroup hp hq ht =>
    obtain ⟨k, d₁, d₂, hedit⟩ := hv.reopen ht hp hq
      (by_contra fun hfar => hlast ⟨_, _, hp, hq, (ht.lastHole_iff hp hq).mpr hfar⟩)
      fun he => hfree ⟨_, _, hp, hq, he⟩
    exact ⟨_, _, rfl, hedit⟩

end Draw

section States

variable [ExactScalar α] {s : State α} {a b : Configuration α} {color : ℕ} {model : Model α}
variable {o : Offer α} {sign : Sign}

/-- On every state with the configuration `b` the draw can be made, and leads to the configuration
`a`. With sound parameters the offer exists. -/
structure Draw.Restores (y : Draw α) (color : ℕ) (b a : Configuration α) : Prop where
  possible : ∀ t : State α, t.config = b → y.Possible t color
  leads : ∀ (t : State α) (model : Model α) (o : Offer α), t.config = b →
    y.propose t model color = .ok o → ∃ change sign,
      o.proposal = some ⟨color, change, sign⟩ ∧ change.apply color b = .ok a
  made : ∀ (p : Params α) (t : State α) (model : Model α), t.config = b →
    Setting p model t color → ∃ o, y.propose t model color = .ok o

def Draw.Reaches (y : Draw α) (color : ℕ) (b a : Configuration α) : Prop :=
  ∃ (t : State α) (model : Model α) (o : Offer α) (change : Change α) (sign : Sign),
    t.config = b ∧ y.Possible t color ∧ y.propose t model color = .ok o ∧
    o.proposal = some ⟨color, change, sign⟩ ∧ change.apply color b = .ok a

namespace Draw

section Configurations

variable (hb : 0 < beta) (hc : color < b.colors) (hvalid : b.Valid beta) (hbeta : b.beta = beta)

include hb hc hvalid hbeta

theorem Edits.restores (h : x.Edits beta (b.lineAt color) change l) :
    x.Restores color b (b.setLine color l) where
  possible := fun t ht => by
    subst ht
    exact h.possible hb hvalid hbeta hc
  leads := fun t model o ht ho => by
    subst ht
    obtain ⟨sign, hproposal⟩ := h.proposal hb hvalid hbeta hc ho
    exact ⟨change, sign, hproposal, h.apply hb hvalid hbeta hc⟩
  made := fun p t model ht hset => by
    subst ht
    obtain rfl : p.beta = beta := hset.run.beta.symm.trans hbeta
    exact h.made hset

theorem Reaches.edits (h : x.Reaches color b a) :
    ∃ change, x.Edits beta (b.lineAt color) change (a.lineAt color) ∧
      a = b.setLine color (a.lineAt color) := by
  obtain ⟨t, model, o, change, sign, rfl, hpossible, ho, hproposal, happly⟩ := h
  rcases exists_edits hb hvalid hbeta hc hpossible with hnone | ⟨change', l, hedit⟩
  · cases (hnone model).symm.trans ho
    cases hproposal
  · obtain ⟨sign', hproposal'⟩ := hedit.proposal hb hvalid hbeta hc ho
    cases hproposal.symm.trans hproposal'
    cases happly.symm.trans (hedit.apply hb hvalid hbeta hc)
    rw [Configuration.line_setLine hc]
    exact ⟨change, hedit, rfl⟩

end Configurations

section Partner

variable (hb : 0 < beta) (hv : s.config.Valid beta) (hbeta : s.config.beta = beta)
  (hc : color < s.config.colors) (h : x.Edits beta (s.config.lineAt color) change m)
  (hlast : ¬x.ClosesLast (s.config.lineAt color))

include hb hv hbeta hc h hlast

theorem Edits.undone (hfree : ¬x.Sticks (s.config.lineAt color)) :
    ∃ y : Draw α, y.kind = x.kind.reverse ∧
      y.Restores color (s.config.setLine color m) s.config := by
  have hline := hv.lineAt hc
  obtain ⟨y, reverse, hy, hback⟩ := h.partner hline hlast hfree
  have hrestores := Edits.restores (b := s.config.setLine color m) hb
    (by rwa [Configuration.colors_setLine]) (hv.setLine (h.valid hline hlast) color) hbeta
    (by rwa [Configuration.line_setLine hc])
  rw [Configuration.setLine_setLine, Configuration.setLine_lineAt hc] at hrestores
  exact ⟨y, hy, hrestores⟩

end Partner

end Draw

end States

end ImpuritySampler
