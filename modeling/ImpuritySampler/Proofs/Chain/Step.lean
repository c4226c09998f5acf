import ImpuritySampler.Proofs.Move.Trial

/-!
# Steps of a chain

What one step of a chain can do, in any arithmetic whose random numbers are not below zero: nothing
if there are no moves, count a rejection and leave the state alone, or carry out the trial of one
color. Everything that holds along a chain is derived from these three cases.
-/

set_option autoImplicit false

namespace ImpuritySampler

open Outcome

variable {α : Type} [Scalar α]

/-- No random number is below the size of a weight of zero. -/
def Random.Unsigned (α : Type) [Scalar α] : Prop :=
  ∀ w : UInt64, ¬(Random.fraction 53 w : α) < Scalar.abs 0

theorem Random.unsigned_exact {α : Type} [ExactScalar α] : Random.Unsigned α := by
  intro w
  rw [Scalar.abs, if_neg (lt_irrefl 0), not_lt]
  exact div_nonneg (Nat.cast_nonneg _) (Nat.cast_nonneg _)

theorem Random.of_unit {r : Random} {x : α × Random} (h : r.unit = .ok x) :
    ∃ w r', x = (Random.fraction 53 w, r') := by
  obtain ⟨⟨w, r'⟩, -, h⟩ := bind_eq_ok.mp h
  exact ⟨w, r', (Except.ok.inj h).symm⟩

namespace Chain

variable {c : Chain α} {m : Model α} {x : Step α} {index : ℕ} {v : Mover α} {o : Offer α}
variable {color : ℕ} {number : α}

def countRejected (c : Chain α) (index : ℕ) (v : Mover α) (random : Random) : Chain α :=
  { c with
    random
    movers := c.movers.set index { v with proposal := none, rejected := v.rejected + 1 } }

def countAccepted (c : Chain α) (index : ℕ) (v : Mover α) (random : Random) (after : State α)
    (ratio : Sign) : Chain α :=
  { c with
    random
    state := after
    movers := c.movers.set index { v with proposal := none, accepted := v.accepted + 1 }
    sign := c.sign * ratio }

inductive Stepped (c : Chain α) : Step α → Prop
  | alone (h : c.movers = []) : Stepped c ⟨false, false, c⟩
  | rejected {index : ℕ} {v : Mover α} (fallback : Bool) (random : Random)
    (hv : c.movers[index]? = some v) :
    Stepped c ⟨false, fallback, c.countRejected index v random⟩
  | accepted {index : ℕ} {v : Mover α} {o : Offer α} {s' after : State α} {color : ℕ}
    {change : Change α} {trace ratio chance : α} (random : Random)
    (hv : c.movers[index]? = some v)
    (ho : o = Proposal.offer s' color change (Scalar.exp trace) ratio chance)
    (hc : Scalar.Unsigned chance) (hw : o.weight ≠ 0) (hs : c.state.Carried after color ratio) :
    Stepped c ⟨true, o.fallback,
      c.countAccepted index v random after (.ofPositive ratio * .ofScalar o.weight)⟩

theorem priced_of_accepts (ho : o.Opened c.state color) (hn : ¬number < Scalar.abs 0)
    (h : accepts number o.weight = true) : o.weight ≠ 0 ∧ ∃ s' change trace ratio chance,
      o = Proposal.offer s' color change (Scalar.exp trace) ratio chance ∧
      Scalar.Unsigned chance ∧ c.state.Tries s' color ratio := by
  have hlt : number < Scalar.abs o.weight := of_decide_eq_true h
  refine ⟨fun hw => hn (hw ▸ hlt), ?_⟩
  cases ho with
  | degenerate => exact absurd hlt hn
  | priced ht hc => exact ⟨_, _, _, _, _, rfl, hc, ht⟩

theorem resolve_cases (hv : c.movers[index]? = some v) (ho : o.Opened c.state color)
    (hn : ¬number < Scalar.abs 0) {r : Random}
    (h : ({ c with random := r } : Chain α).resolve index v o number = .ok x) : c.Stepped x := by
  rw [resolve] at h
  by_cases ha : accepts number o.weight = true
  · obtain ⟨hw, s', change, trace, ratio, chance, rfl, hc, ht⟩ := priced_of_accepts ho hn ha
    rw [if_pos ha] at h
    obtain ⟨_, haccept, h⟩ := bind_eq_ok.mp h
    obtain ⟨after, rfl, hcarried⟩ := Mover.of_accept ht haccept
    have hresult := Stepped.accepted r hv rfl hc hw hcarried
    rcases ite_eq_iff.mp h with ⟨-, h⟩ | ⟨-, h⟩
    · obtain ⟨_, -, h⟩ := bind_eq_ok.mp h
      exact Except.ok.inj h ▸ hresult
    · exact Except.ok.inj h ▸ hresult
  · rw [if_neg ha, ho.reject] at h
    cases h
    exact .rejected _ r hv

/-- Everything that a step can do. -/
theorem step_cases (hr : Random.Unsigned α) (h : c.step m = .ok x) : c.Stepped x := by
  rcases hmovers : c.movers with _ | ⟨v, vs⟩
  · rw [step, hmovers] at h
    cases h
    exact .alone hmovers
  · rw [step, if_neg (by simp [hmovers])] at h
    obtain ⟨⟨index, r₁⟩, -, h⟩ := bind_eq_ok.mp h
    obtain ⟨v, hv, h⟩ := bind_eq_ok.mp h
    obtain ⟨⟨o, r₂⟩, hdraw, h⟩ := bind_eq_ok.mp h
    obtain ⟨⟨number, r₃⟩, hunit, h⟩ := bind_eq_ok.mp h
    obtain ⟨color, -, -, ho⟩ := Proposal.draw_opened hdraw
    obtain ⟨w, r', hw⟩ := Random.of_unit hunit
    cases hw
    exact resolve_cases (nth_eq_ok.mp hv) ho (hr w) h

section Turns

/-- The determinants are idle and the moves hold nothing. -/
structure Settled (c : Chain α) : Prop where
  state : c.state.Settled
  movers : ∀ v ∈ c.movers, v.proposal.isNone

theorem of_start {s : State α} {kinds : List MoveKind} {weights : List α} {random : Random}
    (h : start s kinds weights random = .ok c) : ∃ table,
      c = { state := s, movers := kinds.map Mover.ofKind, weights, table, random, sign := s.sign,
            signSum := 0 } := by
  obtain ⟨_, -, h⟩ := bind_eq_ok.mp h
  obtain ⟨_, -, h⟩ := bind_eq_ok.mp h
  obtain ⟨table, -, h⟩ := bind_eq_ok.mp h
  exact ⟨table, (Except.ok.inj h).symm⟩

theorem empty_settled {p : Params α} {s : State α} (h : State.empty p = .ok s) : s.Settled := by
  obtain ⟨config, -, h⟩ := bind_eq_ok.mp h
  cases h
  constructor <;> intro d hd <;> obtain ⟨b, -, rfl⟩ := List.mem_map.mp hd
  · rfl
  · exact ⟨b, rfl⟩

theorem start_settled {s : State α} (hs : s.Settled) {kinds : List MoveKind} {weights : List α}
    {random : Random} (h : start s kinds weights random = .ok c) : c.Settled := by
  obtain ⟨table, rfl⟩ := of_start h
  exact ⟨hs, by simp [Mover.ofKind]⟩

theorem Stepped.settled (h : c.Stepped x) (hc : c.Settled) : x.chain.Settled := by
  have hset : ∀ {index : ℕ} {v : Mover α}, v.proposal = none →
      ∀ u ∈ c.movers.set index v, u.proposal.isNone := by
    intro index v hv u hu
    rcases List.mem_or_eq_of_mem_set hu with hu | rfl
    · exact hc.movers u hu
    · rw [hv]
      rfl
  cases h with
  | alone h => exact hc
  | rejected fallback random hv => exact ⟨hc.state, hset rfl⟩
  | accepted random hv ho hchance hw hs => exact ⟨hs.settled hc.state, hset rfl⟩

theorem inTurn_verify (hc : c.state.Settled) : InTurn c.verify := by
  have hmatrix : ∀ d ∈ c.state.determinants, InTurn d.matrix := by
    intro d hd
    obtain ⟨b, hb⟩ := hc.element d hd
    rw [Determinant.matrix, Grid.ofFnM, inTurn_bind]
    refine ⟨InTurn.ofFnM fun i => ?_, by simp⟩
    simp [Determinant.rowKey, Determinant.colKey, hb]
  have hsign : InTurn c.state.signFromScratch := by
    have hdet : ∀ g : Grid α, InTurn g.determinant := by
      simp [Grid.determinant, Grid.requireSquare, Fault.OutOfTurn]
    rw [State.signFromScratch]
    exact InTurn.foldlM (fun sign d hd => by simp [hmatrix d hd, hdet]) _
  simp [verify, hsign, Fault.OutOfTurn]

theorem inTurn_step (hr : Random.Unsigned α) (hc : c.Settled) : InTurn (c.step m) := by
  simp only [step, inTurn_ite, inTurn_bind, pure_eq, inTurn_ok, implies_true, true_and,
    WeightTable.inTurn_draw, inTurn_nth, Random.inTurn_unit]
  rintro - ⟨index, r₁⟩ - v hv
  refine ⟨Proposal.inTurn_draw hc.state, ?_⟩
  rintro ⟨o, r₂⟩ hdraw ⟨number, r₃⟩ hunit
  obtain ⟨color, -, -, ho⟩ := Proposal.draw_opened hdraw
  obtain ⟨w, r', hw⟩ := Random.of_unit hunit
  cases hw
  rw [resolve, inTurn_ite]
  refine ⟨fun ha => ?_, fun _ => ?_⟩
  · obtain ⟨-, s', change, trace, ratio, chance, rfl, -, ht⟩ := priced_of_accepts ho (hr w) ha
    rw [inTurn_bind]
    refine ⟨Mover.inTurn_accept ht, fun y hy => ?_⟩
    obtain ⟨after, rfl, hcarried⟩ := Mover.of_accept ht hy
    have hafter := hcarried.settled hc.state
    simp [inTurn_verify, hafter]
  · simp [ho.reject]

end Turns

section Level

def levelParams : Params ℚ := Params.ofModel 4 [0] [[0]] [.bath 4 [⟨0, [1]⟩]]

def levelModel : Model ℚ :=
  ⟨levelParams.beta, levelParams.mu,
    Grid.ofFn levelParams.colors levelParams.colors levelParams.coupling, none, none⟩

def levelState : State ℚ :=
  ⟨⟨4, [[]]⟩, [Determinant.empty (Hybridization.bath 4 [⟨0, [1]⟩]).element]⟩

theorem empty_level : State.empty levelParams = .ok levelState := rfl

/-- The four moves with equal weights. From this seed the first step puts in a segment, the second
one keeps it, and the third one cuts it. -/
def levelStart : Outcome ℚ (Chain ℚ) :=
  start levelState [.insert, .remove, .split, .regroup] [1, 1, 1, 1] ⟨.mixed 5, 0⟩

end Level

end Chain

end ImpuritySampler
