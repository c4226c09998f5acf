import ImpuritySampler.Proofs.Move.Window
import ImpuritySampler.Move

/-!
# What a move draws

Once the color is chosen, a move draws a place of its line, and two times in a window if it puts in
a pair of operators. What the random numbers are good for is to choose among these draws: the offer
is a function of the draw.
-/

set_option autoImplicit false

namespace ImpuritySampler

namespace Random

variable {α : Type} {r : Random}

theorem belowFrom_lt {bound zone fuel : ℕ} {x : ℕ × Random} (hb : 0 < bound)
    (h : (belowFrom bound zone fuel r : Outcome α (ℕ × Random)) = .ok x) : x.1 < bound := by
  induction fuel generalizing r with
  | zero => cases h
  | succ fuel ih =>
    obtain ⟨⟨w, r'⟩, -, h⟩ := Outcome.bind_eq_ok.mp h
    rcases ite_eq_iff.mp h with ⟨-, h⟩ | ⟨-, h⟩
    · cases h
      exact Nat.div_lt_of_lt_mul (Nat.mul_lt_mul_of_pos_right w.toNat_lt hb)
    · exact ih h

theorem place_lt {n : ℕ} {x : ℕ × Random} (hn : 0 < n)
    (h : (r.place n : Outcome α (ℕ × Random)) = .ok x) : x.1 < n := belowFrom_lt hn h

end Random

/-- The times that are drawn in a window: before its end, on the same cycle. -/
def Window.Admits {α : Type} (w : Window α) (d : Time α) : Prop :=
  d.ticks < w.length.ticks ∧ d.period = w.length.period

theorem Random.time_admits {α : Type} {w : Window α} {r : Random} {x : Time α × Random}
    (h : r.time w.length = .ok x) : w.Admits x.1 := by
  obtain ⟨_, hpos, h⟩ := Outcome.bind_eq_ok.mp h
  obtain ⟨⟨n, r'⟩, hn, h⟩ := Outcome.bind_eq_ok.mp h
  cases h
  exact ⟨belowFrom_lt (Outcome.require_eq_ok.mp hpos) hn, rfl⟩

inductive Draw (α : Type) where
  | insert (index : Option ℕ) (d₁ d₂ : Time α)
  | remove (index : ℕ)
  | split (index : ℕ) (d₁ d₂ : Time α)
  | regroup (index : ℕ)

namespace Draw

variable {α : Type}

def kind : Draw α → MoveKind
  | insert .. => .insert
  | remove _ => .remove
  | split .. => .split
  | regroup _ => .regroup

section Propose

variable [Scalar α]

def propose (x : Draw α) (s : State α) (m : Model α) (color : ℕ) : Outcome α (Offer α) :=
  match x with
  | insert index d₁ d₂ => do
    Proposal.insert s m color (← Window.insertion s color index) d₁ d₂
  | remove i => Proposal.remove s m color i
  | split i d₁ d₂ => Proposal.split s m color i d₁ d₂
  | regroup i => Proposal.regroup s m color i

def Possible (x : Draw α) (s : State α) (color : ℕ) : Prop :=
  match x with
  | insert index d₁ d₂ => s.config.isFull color = .ok false ∧
      Window.Offered (s.config.lineAt color) index ∧
      ∃ w, Window.insertion s color index = .ok w ∧ w.Admits d₁ ∧ w.Admits d₂
  | remove i => s.config.isFull color = .ok false ∧ i < (s.config.lineAt color).length
  | split i d₁ d₂ => i < (s.config.lineAt color).length ∧
      ∃ w, Window.split s color i = .ok w ∧ w.Admits d₁ ∧ w.Admits d₂
  | regroup i => s.config.isFull color = .ok false ∧ i < (s.config.lineAt color).length

end Propose

end Draw

section Sampled

open Outcome

variable {α : Type}

theorem Configuration.lineAt_of_line {c : Configuration α} {color : ℕ} {l : Line α}
    (h : c.line color = .ok l) : c.lineAt color = l := by
  rw [lineAt, List.getD_eq_getElem?_getD, nth_eq_ok.mp h, Option.getD_some]

variable [Scalar α] {s : State α} {m : Model α} {kind : MoveKind} {r : Random}

/-- The degenerate offer, or that of a draw that a kind of move can make. -/
def Offer.Drawn (o : Offer α) (kind : MoveKind) (s : State α) (m : Model α) (color : ℕ) : Prop :=
  o = Proposal.degenerate s ∨
    ∃ y : Draw α, y.kind = kind ∧ y.Possible s color ∧ y.propose s m color = .ok o

namespace Proposal

theorem drawn_of_degenerate {color : ℕ} {x : Offer α × Random}
    (h : (pure (degenerate s, r) : Outcome α (Offer α × Random)) = .ok x) :
    x.1.Drawn kind s m color := by
  cases h
  exact .inl rfl

theorem drawn_insert {color : ℕ} {index : Option ℕ} {x : Offer α × Random}
    (hfull : s.config.isFull color = .ok false)
    (hindex : Window.Offered (s.config.lineAt color) index)
    (h : (do
      let w ← Window.insertion s color index
      if w.length.ticks = 0 then pure (degenerate s, r)
      else
        let z₁ ← r.time w.length
        let z₂ ← z₁.2.time w.length
        pure (← insert s m color w z₁.1 z₂.1, z₂.2)) = .ok x) : x.1.Drawn .insert s m color := by
  obtain ⟨w, hw, h⟩ := bind_eq_ok.mp h
  rcases ite_eq_iff.mp h with ⟨-, h⟩ | ⟨-, h⟩
  · exact drawn_of_degenerate h
  obtain ⟨⟨d₁, r₁⟩, h₁, h⟩ := bind_eq_ok.mp h
  obtain ⟨⟨d₂, r₂⟩, h₂, h⟩ := bind_eq_ok.mp h
  obtain ⟨o, ho, h⟩ := bind_eq_ok.mp h
  cases h
  refine .inr ⟨.insert index d₁ d₂, rfl,
    ⟨hfull, hindex, w, hw, Random.time_admits h₁, Random.time_admits h₂⟩, ?_⟩
  rw [Draw.propose, hw, ok_bind, ho]

/-- A move makes no other offers than the degenerate one and those of its possible draws, for the
color that is drawn first. -/
theorem draw_possible {x : Offer α × Random} (h : draw kind s m r = .ok x) :
    ∃ color r', (r.place s.config.colors : Outcome α (ℕ × Random)) = .ok (color, r') ∧
      color < s.config.colors ∧ x.1.Drawn kind s m color := by
  obtain ⟨⟨color, r'⟩, hcolor, h⟩ := bind_eq_ok.mp h
  obtain ⟨l, hl, h⟩ := bind_eq_ok.mp h
  refine ⟨color, r', hcolor, (List.getElem?_eq_some_iff.mp (nth_eq_ok.mp hl)).1, ?_⟩
  obtain rfl := Configuration.lineAt_of_line hl
  cases kind with
  | insert =>
    obtain ⟨full, hfull, h⟩ := bind_eq_ok.mp h
    cases full with
    | true => exact drawn_of_degenerate h
    | false =>
      rcases ite_eq_iff.mp ((if_neg Bool.false_ne_true).symm.trans h) with ⟨hn, h⟩ | ⟨hn, h⟩
      · have hindex : Window.Offered (s.config.lineAt color) none :=
          List.eq_nil_of_length_eq_zero hn
        exact drawn_insert hfull hindex h
      · obtain ⟨⟨i, r''⟩, hi, h⟩ := bind_eq_ok.mp h
        have hindex : Window.Offered (s.config.lineAt color) (some i) :=
          Random.place_lt (Nat.pos_of_ne_zero hn) hi
        exact drawn_insert hfull hindex h
  | remove =>
    rcases ite_eq_iff.mp h with ⟨-, h⟩ | ⟨hn, h⟩
    · exact drawn_of_degenerate h
    obtain ⟨full, hfull, h⟩ := bind_eq_ok.mp h
    cases full with
    | true => exact drawn_of_degenerate h
    | false =>
      obtain ⟨⟨i, r₁⟩, hi, h⟩ := bind_eq_ok.mp h
      obtain ⟨o, ho, h⟩ := bind_eq_ok.mp h
      cases h
      exact .inr ⟨.remove i, rfl, ⟨hfull, Random.place_lt (Nat.pos_of_ne_zero hn) hi⟩, ho⟩
  | split =>
    rcases ite_eq_iff.mp h with ⟨-, h⟩ | ⟨hn, h⟩
    · exact drawn_of_degenerate h
    obtain ⟨⟨i, r₁⟩, hi, h⟩ := bind_eq_ok.mp h
    obtain ⟨w, hw, h⟩ := bind_eq_ok.mp h
    obtain ⟨⟨d₁, r₂⟩, h₁, h⟩ := bind_eq_ok.mp h
    obtain ⟨⟨d₂, r₃⟩, h₂, h⟩ := bind_eq_ok.mp h
    obtain ⟨o, ho, h⟩ := bind_eq_ok.mp h
    cases h
    exact .inr ⟨.split i d₁ d₂, rfl, ⟨Random.place_lt (Nat.pos_of_ne_zero hn) hi, w, hw,
      Random.time_admits h₁, Random.time_admits h₂⟩, ho⟩
  | regroup =>
    rcases ite_eq_iff.mp h with ⟨-, h⟩ | ⟨hn, h⟩
    · exact drawn_of_degenerate h
    obtain ⟨full, hfull, h⟩ := bind_eq_ok.mp h
    cases full with
    | true => exact drawn_of_degenerate h
    | false =>
      obtain ⟨⟨i, r₁⟩, hi, h⟩ := bind_eq_ok.mp h
      obtain ⟨o, ho, h⟩ := bind_eq_ok.mp h
      cases h
      exact .inr ⟨.regroup i, rfl, ⟨hfull, Random.place_lt (Nat.pos_of_ne_zero hn) hi⟩, ho⟩

end Proposal

end Sampled

end ImpuritySampler
