import ImpuritySampler.Proofs.Chain.Step

/-!
# Trials over whole chains

A proposal lives half in its move and half in the determinant of its color. From a chain at rest,
with idle determinants and moves that hold nothing, every step comes to rest again, so that no
call is ever out of turn, and a step that is not accepted leaves nothing behind but its count.
-/

set_option autoImplicit false

namespace ImpuritySampler

open Outcome

variable {α : Type} [Scalar α]

/-- An attempt on the state `s` for one color. The lines are left alone, a proposal is for the
color, and the determinants that wait for a decision are that of the color if there is a proposal,
and none otherwise. -/
structure Offer.Attempts (o : Offer α) (s : State α) (color : ℕ) : Prop where
  config : o.state.config = s.config
  own : ∀ p, o.proposal = some p → p.color = color
  others : ∀ k ≠ color, o.state.determinants[k]? = s.determinants[k]?
  none : o.proposal = none → o.state = s
  pending : ∀ k d, o.state.determinants[k]? = some d →
    (d.isIdle = false ↔ k = color ∧ o.proposal.isSome)

theorem Offer.Opened.attempts {o : Offer α} {s : State α} {color : ℕ} (h : o.Opened s color)
    (hs : s.Settled) : o.Attempts s color := by
  cases h with
  | degenerate =>
    refine ⟨rfl, fun p hp => (by cases hp), fun k _ => rfl, fun _ => rfl, fun k d hd => ?_⟩
    have hidle := hs.idle d (List.mem_of_getElem? hd)
    simp [hidle, Proposal.degenerate]
  | priced ht hc =>
    obtain ⟨d, t, hd, hpending, rfl⟩ := ht
    have hlt := (List.getElem?_eq_some_iff.mp hd).1
    have hothers : ∀ k ≠ color,
        (s.setDeterminant color t).determinants[k]? = s.determinants[k]? := fun k hk =>
      List.getElem?_set_ne hk.symm
    refine ⟨rfl, fun p hp => (by cases hp; rfl), hothers, fun hn => (by cases hn), fun k e he => ?_⟩
    have he : (s.setDeterminant color t).determinants[k]? = some e := he
    rcases eq_or_ne k color with rfl | hk
    · cases (List.getElem?_set_self hlt).symm.trans he
      simp [hpending.not_idle, Proposal.offer]
    · have hidle := hs.idle e (List.mem_of_getElem? ((hothers k hk) ▸ he))
      simp [hidle, hk]

namespace Chain

variable {c d : Chain α} {x : Step α}

def steps (c : Chain α) (models : List (Model α)) : Outcome α (Chain α) :=
  models.foldlM (fun c m => do pure (← c.step m).chain) c

/-- A step that is not accepted keeps the state, and one move counts a rejection. -/
structure Undecided (c d : Chain α) : Prop where
  state : d.state = c.state
  count : ∃ index v, c.movers[index]? = some v ∧
    d.movers = c.movers.set index { v with rejected := v.rejected + 1 }

theorem Stepped.undecided (h : c.Stepped x) (hc : c.Settled) (hmovers : c.movers ≠ [])
    (hx : x.accepted = false) : c.Undecided x.chain := by
  cases h with
  | alone h => exact absurd h hmovers
  | @rejected index v fallback random hv =>
    have hnone : v.proposal = none :=
      Option.isNone_iff_eq_none.mp (hc.movers v (List.mem_of_getElem? hv))
    refine ⟨rfl, index, v, hv, ?_⟩
    rw [countRejected, ← hnone]
  | accepted random hv ho hchance hw hs => cases hx

theorem Stepped.movers_ne_nil (h : c.Stepped x) (hmovers : c.movers ≠ []) :
    x.chain.movers ≠ [] := by
  cases h with
  | alone h => exact hmovers
  | rejected fallback random hv => simpa [countRejected] using hmovers
  | accepted random hv ho hchance hw hs => simpa [countAccepted] using hmovers

theorem steps_settled (hr : Random.Unsigned α) {models : List (Model α)} (hc : c.Settled)
    (hmovers : c.movers ≠ []) : InTurn (c.steps models) ∧
      ∀ d, c.steps models = .ok d → d.Settled ∧ d.movers ≠ [] := by
  induction models generalizing c with
  | nil =>
    refine ⟨inTurn_ok c, fun d hd => ?_⟩
    cases hd
    exact ⟨hc, hmovers⟩
  | cons m models ih =>
    have hstep : ∀ x, c.step m = .ok x → x.chain.Settled ∧ x.chain.movers ≠ [] := fun x hx =>
      ⟨(step_cases hr hx).settled hc, (step_cases hr hx).movers_ne_nil hmovers⟩
    rw [steps, List.foldlM_cons]
    constructor
    · simp only [inTurn_bind, pure_eq, inTurn_ok, implies_true, and_true, bind_eq_ok,
        Except.ok.injEq]
      refine ⟨inTurn_step hr hc, ?_⟩
      rintro _ ⟨x, hx, rfl⟩
      exact (ih (hstep x hx).1 (hstep x hx).2).1
    · intro d hd
      obtain ⟨_, hnext, hd⟩ := bind_eq_ok.mp hd
      obtain ⟨x, hx, he⟩ := bind_eq_ok.mp hnext
      cases he
      exact (ih (hstep x hx).1 (hstep x hx).2).2 d hd

/-- Along every chain that starts at rest with some moves, no call is out of turn, and after every
step the chain is at rest. A step that is not accepted keeps the state and counts one rejection.
During an attempt the determinant of the drawn color is pending if there is a proposal, and no
other one is. -/
theorem steps_transactional (hr : Random.Unsigned α) (hc : c.Settled) (hmovers : c.movers ≠ [])
    (models : List (Model α)) :
    (∀ e, c.steps models = .error e → ¬e.OutOfTurn) ∧
    ∀ d, c.steps models = .ok d → d.Settled ∧ ∀ m,
      (∀ x, d.step m = .ok x → x.accepted = false → d.Undecided x.chain) ∧
      ∀ kind r o r', Proposal.draw kind d.state m r = .ok (o, r') →
        ∃ color r'', (r.place d.state.config.colors : Outcome α (ℕ × Random)) = .ok (color, r'') ∧
          o.Attempts d.state color := by
  obtain ⟨hturn, hsettled⟩ : (∀ e, c.steps models = .error e → ¬e.OutOfTurn) ∧
      ∀ d, c.steps models = .ok d → d.Settled ∧ d.movers ≠ [] := steps_settled hr hc hmovers
  refine ⟨hturn, fun d hd => ?_⟩
  obtain ⟨hd, hne⟩ := hsettled d hd
  refine ⟨hd, fun m => ⟨fun x hx => (step_cases hr hx).undecided hd hne,
    fun kind r o r' ho => ?_⟩⟩
  obtain ⟨color, r'', hcolor, ho⟩ := Proposal.draw_opened ho
  exact ⟨color, r'', hcolor, ho.attempts hd.state⟩

theorem steps_transactional_level : Random.Unsigned ℚ ∧ ∃ c, levelStart = .ok c ∧ c.Settled ∧
    c.movers ≠ [] ∧ (c.steps (List.replicate 3 levelModel)).isOk = true ∧
    (∀ e, c.steps (List.replicate 3 levelModel) = .error e → ¬e.OutOfTurn) ∧
    ∀ d, c.steps (List.replicate 3 levelModel) = .ok d → d.Settled ∧ ∀ m,
      (∀ x, d.step m = .ok x → x.accepted = false → d.Undecided x.chain) ∧
      ∀ kind r o r', Proposal.draw kind d.state m r = .ok (o, r') →
        ∃ color r'', (r.place d.state.config.colors : Outcome ℚ (ℕ × Random)) = .ok (color, r'') ∧
          o.Attempts d.state color := by
  have hrun : (do (← levelStart).steps (List.replicate 3 levelModel)).isOk = true := by
    decide +kernel
  obtain ⟨d, hrun⟩ := exists_of_isOk hrun
  obtain ⟨c, hc, hd⟩ := bind_eq_ok.mp hrun
  have hsettled := start_settled (empty_settled empty_level) hc
  have hmovers : c.movers ≠ [] := by
    obtain ⟨table, rfl⟩ := of_start hc
    exact List.cons_ne_nil _ _
  exact ⟨Random.unsigned_exact, c, hc, hsettled, hmovers, by rw [hd]; rfl,
    steps_transactional Random.unsigned_exact hsettled hmovers _⟩

end Chain

end ImpuritySampler
