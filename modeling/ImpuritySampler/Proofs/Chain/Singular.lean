import ImpuritySampler.Proofs.Binary64
import ImpuritySampler.Proofs.Chain.Step

/-!
# Singular trials

A trial of ratio zero leads to a singular matrix, and its commit divides by zero. Binary floating
point prices it at zero as long as the other two factors are finite, and a step rejects what has no
weight. If one of them is infinite or undefined, then so is the price, and the sign that replaces it
does not tell a zero from a negative ratio.
-/

set_option autoImplicit false

namespace ImpuritySampler

open Outcome

namespace Determinant

variable {α X Y : Type} [Scalar α] {d t : Determinant α X Y} {ratio : α} {row col : ℕ}

/-- What the commit of the pending trial divides by: the Schur complement of an insertion, or the
pivot of a removal. -/
def divisor? (d : Determinant α X Y) : Option α :=
  match d.trial with
  | .idle => none
  | .insertion t => some t.schur
  | .removal t => some (d.inverse.entry t.col t.row)

def Divides (t : Determinant α X Y) (ratio : α) : Prop :=
  ∃ (sign : Sign) (u : α), t.divisor? = some u ∧ ratio = sign.apply u

theorem tryInsert_divides {x : X} {y : Y} (h : d.tryInsert row col x y = .ok (ratio, t)) :
    t.Divides ratio := by
  obtain ⟨_, -, h⟩ := bind_eq_ok.mp h
  obtain ⟨_, -, h⟩ := bind_eq_ok.mp h
  obtain ⟨b, -, h⟩ := bind_eq_ok.mp h
  obtain ⟨c, -, h⟩ := bind_eq_ok.mp h
  obtain ⟨corner, -, h⟩ := bind_eq_ok.mp h
  cases h
  exact ⟨_, _, rfl, rfl⟩

theorem tryRemove_divides (h : d.tryRemove row col = .ok (ratio, t)) : t.Divides ratio := by
  obtain ⟨_, -, h⟩ := bind_eq_ok.mp h
  obtain ⟨_, -, h⟩ := bind_eq_ok.mp h
  cases h
  exact ⟨_, _, rfl, rfl⟩

end Determinant

section Offers

variable {α : Type} [Scalar α] {s s' : State α} {color : ℕ} {m : Model α} {o : Offer α}

theorem State.Tried.divides {y : α × State α} (h : s.Tried color y) :
    ∃ t, y.2.determinant color = .ok t ∧ t.pendingRatio? = some y.1 ∧ t.Divides y.1 := by
  cases h with
  | pair h =>
    obtain ⟨d, hd, h⟩ := bind_eq_ok.mp h
    obtain ⟨⟨ratio, t⟩, ht, h⟩ := bind_eq_ok.mp h
    cases h
    exact ⟨t, determinant_setDeterminant hd, (Determinant.tryInsert_pending ht).ratio,
      Determinant.tryInsert_divides ht⟩
  | drop h =>
    obtain ⟨d, hd, h⟩ := bind_eq_ok.mp h
    obtain ⟨row, -, h⟩ := bind_eq_ok.mp h
    obtain ⟨⟨ratio, t⟩, ht, h⟩ := bind_eq_ok.mp h
    cases h
    exact ⟨t, determinant_setDeterminant hd, (Determinant.tryRemove_pending ht).ratio,
      Determinant.tryRemove_divides ht⟩

namespace Offer

def pending? (o : Offer α) : Option (LineDeterminant α) :=
  o.proposal.bind fun p => o.state.determinants[p.color]?

def Singular (o : Offer α) : Prop :=
  ∃ t ∈ o.pending?, ∃ ratio ∈ t.pendingRatio?, Scalar.Same ratio 0

def DividesByZero (o : Offer α) : Prop :=
  ∃ t ∈ o.pending?, ∃ u ∈ t.divisor?, Scalar.Same u 0

instance (o : Offer α) : Decidable o.Singular :=
  inferInstanceAs (Decidable (∃ t ∈ o.pending?, ∃ ratio ∈ t.pendingRatio?, Scalar.Same ratio 0))

instance (o : Offer α) : Decidable o.DividesByZero :=
  inferInstanceAs (Decidable (∃ t ∈ o.pending?, ∃ u ∈ t.divisor?, Scalar.Same u 0))

/-- The price of an offer with a trial of ratio zero. It is zero if both other factors are finite.
Otherwise it is replaced by the sign of the ratio, which then counts as negative. -/
structure SingularPrice (s : State α) (m : Model α) (color : ℕ) (o : Offer α) : Prop where
  factors : ∃ change trace ratio chance,
    o = Proposal.offer o.state color change trace ratio chance ∧
    change.localRatio s.config m color = .ok trace ∧ Scalar.Same ratio 0 ∧
    (o.fallback = true ↔ ¬(Scalar.isFinite trace = true ∧ Scalar.isFinite chance = true))
  zero : o.fallback = false → Scalar.Same o.weight 0
  replaced : o.fallback = true → o.weight = Sign.minus.toScalar

/-- A trial of ratio zero is one whose commit divides by zero. -/
theorem Priced.singular_iff (hz : Scalar.Zeros α) (h : o.Priced s m color) :
    o.Singular ↔ o.DividesByZero := by
  cases h with
  | degenerate => constructor <;> rintro ⟨t, ht, -⟩ <;> cases ht
  | @product s' change trace ratio chance htrace htrial hchance =>
    obtain ⟨t, hget, hratio, sign, u, hu, rfl⟩ := htrial.divides
    have hpending : (Proposal.offer s' color change trace (sign.apply u) chance).pending? =
        some t := nth_eq_ok.mp hget
    simp only [Singular, DividesByZero, hpending, hratio, hu, Option.mem_some_iff, exists_eq_left',
      hz.apply]

theorem Priced.singularPrice (hz : Scalar.Zeros α) (h : o.Priced s m color) (hs : o.Singular) :
    o.SingularPrice s m color := by
  cases h with
  | degenerate =>
    obtain ⟨t, ht, -⟩ := hs
    cases ht
  | @product s' change trace ratio chance htrace htrial hchance =>
    obtain ⟨t, hget, hratio, -⟩ := htrial.divides
    have hpending : (Proposal.offer s' color change trace ratio chance).pending? = some t :=
      nth_eq_ok.mp hget
    have hzero : Scalar.Same ratio 0 := by
      simpa only [Singular, hpending, hratio, Option.mem_some_iff, exists_eq_left'] using hs
    have hsign : Sign.ofPositive ratio = .minus := if_neg (hz.not_pos ratio hzero)
    rcases hz.product trace ratio chance hzero with ⟨ht, hc, hsame⟩ | ⟨hinfinite, hproduct⟩
    · have hfinite := hz.finite _ hsame
      refine ⟨⟨change, trace, ratio, chance, rfl, htrace, hzero, ?_⟩, fun _ => ?_, fun h => ?_⟩
      · simp [Proposal.offer, hfinite, ht, hc]
      · simpa only [Proposal.offer, hfinite, if_true] using hsame
      · simp [Proposal.offer, hfinite] at h
    · rw [Bool.not_eq_true] at hproduct
      refine ⟨⟨change, trace, ratio, chance, rfl, htrace, hzero, ?_⟩, fun h => ?_, fun _ => ?_⟩
      · simpa [Proposal.offer, hproduct] using hinfinite
      · simp [Proposal.offer, hproduct] at h
      · simp [Proposal.offer, hproduct, hsign]

end Offer

end Offers

namespace Chain

section Steps

variable {α : Type} [Scalar α] {c : Chain α} {m : Model α} {index : ℕ} {v : Mover α} {o : Offer α}
variable {r : Random}

/-- The offer that a step decides about, its mover, and the source of the number that decides. -/
def offered (c : Chain α) (m : Model α) : Outcome α (ℕ × Mover α × Offer α × Random) := do
  let (index, r) ← c.table.draw c.random
  let v ← Outcome.nth c.movers index
  let (o, r) ← Proposal.draw v.kind c.state m r
  pure (index, v, o, r)

theorem step_of_offered (h : c.offered m = .ok (index, v, o, r)) : c.step m = (do
    let (number, r) ← r.unit
    { c with random := r }.resolve index v o number) := by
  obtain ⟨⟨index, r₁⟩, hindex, h⟩ := bind_eq_ok.mp h
  obtain ⟨v, hv, h⟩ := bind_eq_ok.mp h
  obtain ⟨⟨o, r₂⟩, hdraw, h⟩ := bind_eq_ok.mp h
  cases h
  have hmovers : ¬c.movers.isEmpty = true := by
    intro hempty
    rw [List.isEmpty_iff.mp hempty] at hv
    cases hv
  simp only [step, if_neg hmovers, hindex, hv, hdraw, ok_bind]

theorem offered_priced (h : c.offered m = .ok (index, v, o, r)) :
    ∃ color, o.Priced c.state m color := by
  obtain ⟨⟨index, r₁⟩, hindex, h⟩ := bind_eq_ok.mp h
  obtain ⟨v, hv, h⟩ := bind_eq_ok.mp h
  obtain ⟨⟨o, r₂⟩, hdraw, h⟩ := bind_eq_ok.mp h
  cases h
  obtain ⟨color, -, -, ho⟩ := Proposal.draw_priced hdraw
  exact ⟨color, ho⟩

theorem resolve_fallback {number : α} {x : Step α} (h : c.resolve index v o number = .ok x) :
    x.fallback = o.fallback := by
  rw [resolve] at h
  rcases ite_eq_iff.mp h with ⟨-, h⟩ | ⟨-, h⟩
  · obtain ⟨_, -, h⟩ := bind_eq_ok.mp h
    rcases ite_eq_iff.mp h with ⟨-, h⟩ | ⟨-, h⟩
    · obtain ⟨_, -, h⟩ := bind_eq_ok.mp h
      cases h
      rfl
    · cases h
      rfl
  · obtain ⟨_, -, h⟩ := bind_eq_ok.mp h
    cases h
    rfl

theorem step_rejects (hz : Scalar.Zeros α) (h : c.offered m = .ok (index, v, o, r))
    (hw : Scalar.Same o.weight 0) {number : α} {r' : Random} (hr : r.unit = .ok (number, r')) :
    c.step m = .ok ⟨false, o.fallback, c.countRejected index v r'⟩ := by
  obtain ⟨color, ho⟩ := offered_priced h
  obtain ⟨w, _, hw'⟩ := Random.of_unit hr
  cases hw'
  have hrejected : ¬accepts (Random.fraction 53 w) o.weight = true := by
    rw [accepts, decide_eq_true_iff]
    exact hz.fraction w o.weight hw
  rw [step_of_offered h, hr, ok_bind]
  dsimp only
  rw [resolve, if_neg hrejected, ho.opened.reject]
  rfl

theorem accepted_divides (hz : Scalar.Zeros α) (h : c.offered m = .ok (index, v, o, r)) {x : Step α}
    (hx : c.step m = .ok x) (ha : x.accepted = true) (hf : x.fallback = false) :
    ¬o.DividesByZero := by
  obtain ⟨color, ho⟩ := offered_priced h
  intro hzero
  have hprice := ho.singularPrice hz ((ho.singular_iff hz).mpr hzero)
  obtain ⟨⟨number, r'⟩, hunit, hresolve⟩ := bind_eq_ok.mp ((step_of_offered h).symm.trans hx)
  have hfallback := (resolve_fallback hresolve).symm.trans hf
  have hrejected := step_rejects hz h (hprice.zero hfallback) hunit
  cases hx.symm.trans hrejected
  cases ha

end Steps

/-- So what holds along every chain with unsigned random numbers holds in binary floating point. -/
theorem unsigned_binary64 : Random.Unsigned Float := fun w =>
  (Binary64.zeros Float.exp).fraction w 0 (Binary64.same_zero.mpr Binary64.isZero_zero)

/-- In binary floating point, whatever the exponential gives, a trial is singular if its commit
divides by zero. If the two other factors are finite, its weight is zero, so that a step rejects it
for every number. Otherwise the weight is replaced by minus one. A step that accepts an offer whose
weight was not replaced never divides by zero. -/
theorem singular_rejected {exp : Float → Float} [arithmetic : Scalar Float]
    (h : arithmetic = Binary64.withExp exp) :
    (∀ (x : Draw Float) (s : State Float) (m : Model Float) (color : ℕ) (o : Offer Float),
      x.propose s m color = .ok o →
        (o.Singular ↔ o.DividesByZero) ∧ (o.Singular → o.SingularPrice s m color)) ∧
    ∀ (c : Chain Float) (m : Model Float) (index : ℕ) (v : Mover Float) (o : Offer Float)
      (r : Random), c.offered m = .ok (index, v, o, r) →
        (o.Singular → o.fallback = false → ∀ (number : Float) (r' : Random),
          r.unit = .ok (number, r') →
          c.step m = .ok ⟨false, false, c.countRejected index v r'⟩) ∧
        ∀ x, c.step m = .ok x → x.accepted = true → x.fallback = false → ¬o.DividesByZero := by
  have hz : Scalar.Zeros Float := by
    subst h
    exact Binary64.zeros exp
  refine ⟨fun x s m color o h => ?_, fun c m index v o r h => ⟨fun hs hf number r' hr => ?_, ?_⟩⟩
  · have ho := Proposal.propose_priced h
    exact ⟨ho.singular_iff hz, ho.singularPrice hz⟩
  · obtain ⟨color, ho⟩ := offered_priced h
    have hstep := step_rejects hz h ((ho.singularPrice hz hs).zero hf) hr
    rwa [hf] at hstep
  · intro x hx ha hf
    exact accepted_divides hz h hx ha hf

section Inserting

def steepModel : Model Float := ⟨1, [1000], Grid.ofFn 1 1 fun _ _ => 0, none, none⟩

/-- No segments, and a bath with the given levels. The words choose a segment that covers nearly the
whole cycle, and zero is the number that decides about it. -/
def insertingChain (exp : Float → Float) (levels : List (BathLevel Float)) : Chain Float where
  state := ⟨⟨1, [[]]⟩, [Determinant.empty (@Hybridization.element _ (Binary64.withExp exp)
    (.bath 1 levels))]⟩
  movers := [Mover.ofKind .insert]
  weights := [1]
  table := ⟨[], 1⟩
  random := ⟨.words [0, 0, 18446744073709551596, 18446744073709551576, 0], 0⟩
  sign := .plus
  signSum := 0

def flatChain : List (BathLevel Float) → Chain Float := insertingChain fun _ => 1

def overflowingChain : List (BathLevel Float) → Chain Float := insertingChain fun _ => 1 / 0

/-- Without overflow, an insertion without a bath is singular and is rejected, and one with a bath
is accepted and divides by no zero. -/
theorem singular_rejected_flat :
    ∃ arithmetic : Scalar Float, arithmetic = Binary64.withExp (fun _ => 1) ∧
    ∃ (o : Offer Float) (y z : ℕ × Mover Float × Offer Float × Random) (number : Float × Random)
      (x : Step Float),
      (Draw.insert none ⟨3, 1⟩ ⟨5, 1⟩).propose (flatChain []).state steepModel 0 = .ok o ∧
      o.Singular ∧ o.DividesByZero ∧ o.SingularPrice (flatChain []).state steepModel 0 ∧
      (flatChain []).offered steepModel = .ok y ∧ y.2.2.1.Singular ∧ y.2.2.1.fallback = false ∧
      y.2.2.2.unit = .ok number ∧ (flatChain []).step steepModel =
        .ok ⟨false, false, (flatChain []).countRejected y.1 y.2.1 number.2⟩ ∧
      (flatChain [⟨0, [1]⟩]).offered steepModel = .ok z ∧
      (flatChain [⟨0, [1]⟩]).step steepModel = .ok x ∧ x.accepted = true ∧ x.fallback = false ∧
      ¬z.2.2.1.DividesByZero := by
  let _ := Binary64.withExp fun _ => 1
  have hok : (do
      let o ← (Draw.insert none ⟨3, 1⟩ ⟨5, 1⟩).propose (flatChain []).state steepModel 0
      let y ← (flatChain []).offered steepModel
      let number ← (y.2.2.2.unit : Outcome Float (Float × Random))
      let z ← (flatChain [⟨0, [1]⟩]).offered steepModel
      let x ← (flatChain [⟨0, [1]⟩]).step steepModel
      require (o.Singular ∧ y.2.2.1.Singular ∧ y.2.2.1.fallback = false ∧ x.accepted = true ∧
        x.fallback = false) .overflow).isOk = true := by
    decide +kernel
  obtain ⟨_, hok⟩ := exists_of_isOk hok
  obtain ⟨o, ho, hok⟩ := bind_eq_ok.mp hok
  obtain ⟨y, hy, hok⟩ := bind_eq_ok.mp hok
  obtain ⟨number, hnumber, hok⟩ := bind_eq_ok.mp hok
  obtain ⟨z, hz, hok⟩ := bind_eq_ok.mp hok
  obtain ⟨x, hx, hok⟩ := bind_eq_ok.mp hok
  obtain ⟨hos, hys, hyf, hxa, hxf⟩ := require_eq_ok.mp hok
  obtain ⟨hproposed, hoffered⟩ := @singular_rejected (fun _ => 1) _ rfl
  obtain ⟨hiff, hprice⟩ := hproposed _ _ _ _ o ho
  have hstep := (hoffered _ steepModel _ _ _ _ hy).1 hys hyf _ _ hnumber
  have hdivides := (hoffered _ steepModel _ _ _ _ hz).2 x hx hxa hxf
  exact ⟨_, rfl, o, y, z, number, x, ho, hos, hiff.mp hos, hprice hos, hy, hys, hyf, hnumber, hstep,
    hz, hx, hxa, hxf, hdivides⟩

/-- The exception: if the exponential overflows, the insertion without a bath is accepted. -/
theorem singular_accepted_overflowing :
    ∃ arithmetic : Scalar Float, arithmetic = Binary64.withExp (fun _ => 1 / 0) ∧
    ∃ y x, (overflowingChain []).offered steepModel = .ok y ∧ y.2.2.1.DividesByZero ∧
      (overflowingChain []).step steepModel = .ok x ∧ x.accepted = true := by
  let _ := Binary64.withExp fun _ => 1 / 0
  have hok : (do
      let y ← (overflowingChain []).offered steepModel
      let x ← (overflowingChain []).step steepModel
      require (y.2.2.1.DividesByZero ∧ x.accepted = true) .overflow).isOk = true := by
    decide +kernel
  obtain ⟨_, hok⟩ := exists_of_isOk hok
  obtain ⟨y, hy, hok⟩ := bind_eq_ok.mp hok
  obtain ⟨x, hx, hok⟩ := bind_eq_ok.mp hok
  obtain ⟨hzero, ha⟩ := require_eq_ok.mp hok
  exact ⟨_, rfl, y, x, hy, hzero, hx, ha⟩

end Inserting

end Chain

end ImpuritySampler
