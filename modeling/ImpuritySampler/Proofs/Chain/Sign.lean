import ImpuritySampler.Proofs.Chain.Calls
import ImpuritySampler.Proofs.Chain.Step

/-!
# The running sign

In exact arithmetic an accepted proposal changes the trace sign by the sign of the determinant
ratio, and the weight has this sign too, as its other factors are positive. So the sign of the state
and the running sign stay what they are at the start of a chain. Calls of a chain are taken apart
into steps and measurements, one step keeps both signs, and every sequence follows by induction.
-/

set_option autoImplicit false

namespace ImpuritySampler

open Outcome

namespace Sign

theorem mul_left_comm (a b c : Sign) : a * (b * c) = b * (a * c) := by
  rw [← mul_assoc, mul_comm a b, mul_assoc]

theorem mul_self_cancel (a b : Sign) : a * (a * b) = b := by
  rw [← mul_assoc, mul_self]
  rfl

theorem eq_mul_of_mul_eq {a b c : Sign} (h : a * b = c) : a = c * b := by
  rw [← h, mul_assoc, mul_self, mul_comm]
  rfl

variable {α : Type} [ExactScalar α] {a b : α}

theorem ofScalar_eq_ofPositive (ha : a ≠ 0) : ofScalar a = ofPositive a := by
  rcases lt_or_gt_of_ne ha with h | h
  · rw [ofScalar, ofPositive, if_pos h, if_neg (lt_asymm h)]
  · rw [ofScalar, ofPositive, if_neg (lt_asymm h), if_pos h]

theorem ofPositive_mul (ha : a ≠ 0) (hb : b ≠ 0) :
    ofPositive (a * b) = ofPositive a * ofPositive b := by
  rcases lt_or_gt_of_ne ha with ha | ha <;> rcases lt_or_gt_of_ne hb with hb | hb
  · rw [ofPositive, ofPositive, ofPositive, if_pos (mul_pos_of_neg_of_neg ha hb),
      if_neg (lt_asymm ha), if_neg (lt_asymm hb)]
    rfl
  · rw [ofPositive, ofPositive, ofPositive, if_neg (lt_asymm (mul_neg_of_neg_of_pos ha hb)),
      if_neg (lt_asymm ha), if_pos hb]
    rfl
  · rw [ofPositive, ofPositive, ofPositive, if_neg (lt_asymm (mul_neg_of_pos_of_neg ha hb)),
      if_pos ha, if_neg (lt_asymm hb)]
    rfl
  · rw [ofPositive, ofPositive, ofPositive, if_pos (mul_pos ha hb), if_pos ha, if_pos hb]
    rfl

theorem ofScalar_mul (ha : a ≠ 0) (hb : b ≠ 0) :
    ofScalar (a * b) = ofScalar a * ofPositive b := by
  rw [ofScalar_eq_ofPositive (mul_ne_zero ha hb), ofScalar_eq_ofPositive ha, ofPositive_mul ha hb]

end Sign

section Products

variable {β : Type} {f : β → Sign} {l : List β} {b c : β} {k : ℕ}

theorem foldl_mul_sign (l : List β) (a : Sign) :
    l.foldl (fun s b => s * f b) a = a * l.foldl (fun s b => s * f b) .plus := by
  induction l generalizing a with
  | nil => cases a <;> rfl
  | cons b l ih =>
    rw [List.foldl_cons, List.foldl_cons, ih, ih (Sign.plus * f b), Sign.mul_assoc]
    rfl

theorem foldl_set_sign (hb : l[k]? = some b) (a : Sign) :
    (l.set k c).foldl (fun s b => s * f b) a =
      l.foldl (fun s b => s * f b) a * (f b * f c) := by
  induction l generalizing a k with
  | nil => cases hb
  | cons d l ih =>
    cases k with
    | zero =>
      cases hb
      rw [List.set_cons_zero, List.foldl_cons, List.foldl_cons, foldl_mul_sign, foldl_mul_sign l
        (a * f b)]
      generalize l.foldl (fun s b => s * f b) .plus = p
      rw [Sign.mul_assoc a, Sign.mul_assoc a, Sign.mul_assoc a, Sign.mul_comm _ (f b * f c),
        Sign.mul_left_comm _ (f b), Sign.mul_assoc (f b), Sign.mul_self_cancel]
    | succ k => exact ih hb _

end Products

variable {α : Type} [ExactScalar α] {s after : State α} {color : ℕ} {ratio : α}

/-- Carrying a trial out keeps the sign of the state: the trace and the determinant change theirs
together. -/
theorem State.Carried.sign_eq (h : s.Carried after color ratio) (hr : ratio ≠ 0)
    (hs : ∀ d ∈ s.determinants, d.value ≠ 0) :
    after.sign = s.sign ∧ ∀ d ∈ after.determinants, d.value ≠ 0 := by
  obtain ⟨d, e, hd, -, -, hvalue, hafter⟩ := h.determinants
  have hne := hs d (List.mem_of_getElem? hd)
  have htrace := Sign.eq_mul_of_mul_eq h.sign
  have hsign : e.sign = d.sign * .ofPositive ratio := by
    rw [Determinant.sign, hvalue, Sign.ofScalar_mul hne hr]
    rfl
  constructor
  · rw [State.sign, hafter, foldl_set_sign hd, hsign, htrace, Sign.mul_self_cancel, foldl_mul_sign,
      State.sign, foldl_mul_sign _ s.config.traceSign]
    generalize s.determinants.foldl (fun sign d => sign * d.sign) .plus = p
    rw [Sign.mul_comm, Sign.mul_assoc, Sign.mul_self_cancel]
  · rw [hafter]
    intro f hf
    rcases List.mem_or_eq_of_mem_set hf with hf | rfl
    · exact hs f hf
    · exact hvalue ▸ mul_ne_zero hne hr

theorem Proposal.sign_weight {s' : State α} {change : Change α} {trace chance : α}
    (hc : Scalar.Unsigned chance)
    (hw : (offer s' color change (Scalar.exp trace) ratio chance).weight ≠ 0) : ratio ≠ 0 ∧
      Sign.ofScalar (offer s' color change (Scalar.exp trace) ratio chance).weight =
        .ofPositive ratio := by
  have hweight : (offer s' color change (Scalar.exp trace) ratio chance).weight =
      Scalar.exp trace * chance * ratio := mul_right_comm _ _ _
  rw [hweight] at hw ⊢
  have hfactor := left_ne_zero_of_mul hw
  have hratio := right_ne_zero_of_mul hw
  have hpos : 0 < Scalar.exp trace * chance :=
    lt_of_le_of_ne (mul_nonneg (ExactScalar.exp_pos trace).le hc.nonneg) hfactor.symm
  refine ⟨hratio, ?_⟩
  rw [Sign.ofScalar_mul hfactor hratio, Sign.ofScalar, if_neg (lt_asymm hpos)]
  rfl

namespace Chain

/-- The running sign and the sign of the state are both `sign`, and no determinant is zero. -/
structure Signed (c : Chain α) (sign : Sign) : Prop where
  running : c.sign = sign
  tracked : c.state.sign = sign
  value : ∀ d ∈ c.state.determinants, d.value ≠ 0

variable {c : Chain α} {m : Model α} {sign : Sign}

theorem Stepped.signed {x : Step α} (h : c.Stepped x) (hc : c.Signed sign) :
    x.chain.Signed sign := by
  cases h with
  | alone h => exact hc
  | rejected fallback random hv => exact ⟨hc.running, hc.tracked, hc.value⟩
  | accepted random hv ho hchance hw hs =>
    subst ho
    obtain ⟨hratio, hweight⟩ := Proposal.sign_weight hchance hw
    obtain ⟨hsign, hvalue⟩ := hs.sign_eq hratio hc.value
    refine ⟨?_, hsign.trans hc.tracked, hvalue⟩
    rw [countAccepted, hweight, Sign.mul_self, hc.running, Sign.mul_comm]
    rfl

theorem Stepped.measured {x : Step α} (h : c.Stepped x) :
    x.chain.measurements = c.measurements ∧ x.chain.signSum = c.signSum := by
  cases h <;> exact ⟨rfl, rfl⟩

/-- What `n` measurements at the sign `sign` have made of the counts and of every measure of the
average sign. -/
structure Counted (p q : Progress α) (sign : Sign) (n : ℕ) : Prop where
  measurements : q.chain.measurements = p.chain.measurements + n
  signSum : q.chain.signSum = p.chain.signSum + n * sign.toScalar
  average : ∀ (k : ℕ) (a : AverageSign α), p.measures[k]? = some (.sign a) →
    q.measures[k]? = some (.sign ⟨a.sum + n * sign.toScalar, a.measurements + n⟩)

variable {p q r : Progress α} {n k : ℕ}

theorem Counted.trans (h : Counted p q sign n) (h' : Counted q r sign k) :
    Counted p r sign (n + k) where
  measurements := by rw [h'.measurements, h.measurements, Nat.add_assoc]
  signSum := by
    rw [h'.signSum, h.signSum]
    push_cast
    ring
  average := fun i a ha => by
    rw [h'.average i _ (h.average i a ha)]
    push_cast
    rw [add_assoc, add_assoc, ← add_mul]

theorem advance_signed (hp : p.chain.Signed sign) (h : advance m p = .ok q) :
    q.chain.Signed sign ∧ Counted p q sign 0 := by
  obtain ⟨x, hx, h⟩ := bind_eq_ok.mp h
  cases h
  have hstep := step_cases Random.unsigned_exact hx
  obtain ⟨hmeasurements, hsum⟩ := hstep.measured
  refine ⟨hstep.signed hp, hmeasurements, by simpa using hsum, fun k a ha => ?_⟩
  simpa using ha

theorem measure_signed (hp : p.chain.Signed sign) (h : Chain.measure m p = .ok q) :
    q.chain.Signed sign ∧ Counted p q sign 1 := by
  obtain ⟨measures, hmeasures, h⟩ := bind_eq_ok.mp h
  cases h
  refine ⟨⟨hp.running, hp.tracked, hp.value⟩, rfl, ?_, fun k a ha => ?_⟩
  · rw [Nat.cast_one, one_mul, ← hp.running]
  · have hall := of_mapM_eq_ok hmeasures
    obtain ⟨hk, hget⟩ := List.getElem?_eq_some_iff.mp ha
    have hk' : k < measures.length := hall.length_eq ▸ hk
    have haccumulate := (List.forall₂_iff_get.mp hall).2 k hk hk'
    rw [List.get_eq_getElem, hget] at haccumulate
    have hnew : measures[k] = .sign (a.accumulate p.chain.sign.toScalar) :=
      (Except.ok.inj haccumulate).symm
    rw [List.getElem?_eq_getElem hk', hnew, AverageSign.accumulate, Nat.cast_one, one_mul,
      ← hp.running]

theorem follow_signed {es : List (Event α)} (hp : p.chain.Signed sign)
    (h : follow es p = .ok q) :
    q.chain.Signed sign ∧ Counted p q sign (es.countP Event.isMeasure) := by
  induction es generalizing p with
  | nil =>
    cases h
    exact ⟨hp, rfl, by simp, by simp⟩
  | cons e es ih =>
    rw [follow, List.foldlM_cons] at h
    obtain ⟨p', hp', h⟩ := bind_eq_ok.mp h
    have hevent : p'.chain.Signed sign ∧
        Counted p p' sign (if e.isMeasure = true then 1 else 0) := by
      cases e with
      | step m => exact advance_signed hp hp'
      | measure m => exact measure_signed hp hp'
    obtain ⟨hq, hcount⟩ := ih hevent.1 h
    rw [List.countP_cons, Nat.add_comm]
    exact ⟨hq, hevent.2.trans hcount⟩

theorem start_signed {s : State α} (hs : ∀ d ∈ s.determinants, d.value ≠ 0)
    {kinds : List MoveKind} {weights : List α} {random : Random}
    (h : start s kinds weights random = .ok c) :
    c.state = s ∧ c.Signed s.sign ∧ c.measurements = 0 ∧ c.signSum = 0 := by
  obtain ⟨table, rfl⟩ := of_start h
  exact ⟨rfl, ⟨rfl, rfl, hs⟩, rfl, rfl⟩

theorem sign_empty {params : Params α} {s : State α} (h : State.empty params = .ok s) :
    s.sign = .plus ∧ ∀ d ∈ s.determinants, d.value ≠ 0 := by
  obtain ⟨config, hconfig, h⟩ := bind_eq_ok.mp h
  obtain ⟨_, -, hconfig⟩ := bind_eq_ok.mp hconfig
  obtain ⟨_, -, hconfig⟩ := bind_eq_ok.mp hconfig
  obtain ⟨_, -, hconfig⟩ := bind_eq_ok.mp hconfig
  cases hconfig
  cases h
  have hone : ∀ d ∈ params.hybridization.map fun h => Determinant.empty h.element,
      d.value = (1 : α) := by
    intro d hd
    obtain ⟨b, -, rfl⟩ := List.mem_map.mp hd
    rfl
  have hplus : ∀ (ds : List (LineDeterminant α)), (∀ d ∈ ds, d.value = 1) →
      ds.foldl (fun sign d => sign * d.sign) Sign.plus = .plus := by
    intro ds hds
    induction ds with
    | nil => rfl
    | cons d ds ih =>
      have hd : d.sign = .plus := by
        rw [Determinant.sign, hds d List.mem_cons_self, Sign.ofScalar,
          if_neg (not_lt.mpr zero_le_one)]
      rw [List.foldl_cons, hd]
      exact ih fun e he => hds e (List.mem_cons_of_mem d he)
  have htrace : Configuration.traceSign ⟨params.beta, List.replicate params.colors []⟩ =
      (.plus : Sign) := by
    rw [Configuration.traceSign]
    induction params.colors with
    | zero => rfl
    | succ n ih => exact ih
  refine ⟨?_, fun d hd => by rw [hone d hd]; exact one_ne_zero⟩
  rw [State.sign]
  exact htrace ▸ hplus _ hone

/-- Whatever calls are made on a chain, wherever they pass through, the running sign is the sign of
the state and the one at the start. So the measurements add up that sign, and a chain that starts
without operators reports one as the average sign. -/
theorem sign_conserved {s : State α} (hs : ∀ d ∈ s.determinants, d.value ≠ 0)
    {kinds : List MoveKind} {weights : List α} {random : Random}
    (hc : start s kinds weights random = .ok c) (checks : Bool) (measures : List (Measure α))
    {commands : List (Command α)}
    (hq : performAll commands ⟨{ c with checks }, measures, 0⟩ = .ok q) :
    (∀ es, es <+: commands.flatMap Command.events →
      ∃ p, follow es ⟨{ c with checks }, measures, 0⟩ = .ok p ∧
        p.chain.sign = p.chain.state.sign ∧ p.chain.sign = s.sign) ∧
    q.chain.sign = q.chain.state.sign ∧ q.chain.sign = s.sign ∧
    q.chain.measurements = (commands.map Command.measured).sum ∧
    q.chain.signSum = ((commands.map Command.measured).sum : ℕ) * s.sign.toScalar ∧
    ((∃ params, State.empty params = .ok s) → 0 < (commands.map Command.measured).sum →
      ∀ k : ℕ, measures[k]? = some (.sign .empty) → ∃ a, q.measures[k]? = some (.sign a) ∧
        ∀ r, (a.collect r).averageSign = some 1) := by
  obtain ⟨-, hsigned, hmeasurements, hsum⟩ := start_signed hs hc
  have hstart : ({ c with checks } : Chain α).Signed s.sign :=
    ⟨hsigned.running, hsigned.tracked, hsigned.value⟩
  rw [performAll_eq_follow] at hq
  obtain ⟨hend, hcount⟩ := follow_signed (p := ⟨{ c with checks }, measures, 0⟩) hstart hq
  rw [countP_events] at hcount
  refine ⟨fun es hes => ?_, hend.running.trans hend.tracked.symm, hend.running, ?_, ?_, ?_⟩
  · obtain ⟨p, hp⟩ := exists_of_prefix hes hq
    obtain ⟨hsigned, -⟩ := follow_signed (p := ⟨{ c with checks }, measures, 0⟩) hstart hp
    exact ⟨p, hp, hsigned.running.trans hsigned.tracked.symm, hsigned.running⟩
  · rw [hcount.measurements, hmeasurements, Nat.zero_add]
  · rw [hcount.signSum, hsum, zero_add]
  · rintro ⟨params, hempty⟩ hpos k hk
    refine ⟨_, hcount.average k _ hk, fun r => ?_⟩
    have hne : (((commands.map Command.measured).sum : ℕ) : α) ≠ 0 := Nat.cast_ne_zero.mpr hpos.ne'
    rw [AverageSign.collect, (sign_empty hempty).1]
    simp only [AverageSign.empty, zero_add, Sign.toScalar, Sign.apply, mul_one, div_self hne]

theorem sign_conserved_level : (∀ d ∈ levelState.determinants, d.value ≠ 0) ∧
    ∃ c q, levelStart = .ok c ∧
      performAll [.step levelModel, .warmup levelModel 1 2, .run levelModel 2 1]
        ⟨{ c with checks := false }, [.sign .empty], 0⟩ = .ok q ∧
      q.chain.sign = q.chain.state.sign ∧ q.chain.sign = levelState.sign ∧
      q.chain.measurements = 2 ∧ q.chain.signSum = 2 * levelState.sign.toScalar ∧
      ∃ a, q.measures[0]? = some (.sign a) ∧ ∀ r, (a.collect r).averageSign = some 1 := by
  have hrun : (do
      performAll [.step levelModel, .warmup levelModel 1 2, .run levelModel 2 1]
        ⟨{ (← levelStart) with checks := false }, [.sign .empty], 0⟩).isOk = true := by
    decide +kernel
  obtain ⟨q, hrun⟩ := exists_of_isOk hrun
  obtain ⟨c, hc, hq⟩ := bind_eq_ok.mp hrun
  have hvalue := (sign_empty empty_level).2
  obtain ⟨-, hsign, hstart, hmeasurements, hsum, haverage⟩ :=
    sign_conserved hvalue hc false [.sign .empty] hq
  exact ⟨hvalue, c, q, hc, hq, hsign, hstart, hmeasurements, hsum,
    haverage ⟨levelParams, empty_level⟩ Nat.zero_lt_two 0 rfl⟩

end Chain

end ImpuritySampler
