import ImpuritySampler.Proofs.State.Edit
import ImpuritySampler.Move

/-!
# Decisions about a proposal

A proposal leads to a state if its trial can be carried out and its change can be applied. Accepting
then gives this state, unless the signs disagree, and rejecting gives back the state before the
proposal.
-/

set_option autoImplicit false

namespace ImpuritySampler

variable {α : Type} [Scalar α] {s after : State α}

def Proposal.carryOut (p : Proposal α) (s : State α) : Outcome α (State α) := do
  let d ← (← s.determinant p.color).commit
  let config ← p.change.apply p.color s.config
  pure { s.setDeterminant p.color d with config }

structure Offer.Leads (o : Offer α) (s after : State α) : Prop where
  held : ∃ p d, o.proposal = some p ∧ o.state.config = s.config ∧
    o.state.determinant p.color = .ok d ∧ o.state.setDeterminant p.color d.discard = s ∧
    p.carryOut o.state = .ok after

/-- The offer is accepted if the trace sign changes by the given sign, and the state becomes
`after`. Otherwise accepting fails. -/
structure Offer.Accepts (o : Offer α) (s after : State α) (sign : Sign) : Prop where
  agree : after.config.traceSign * s.config.traceSign = sign → ∀ v : Mover α,
    (v.hold o).accept o.state =
      .ok (sign, { v with proposal := none, accepted := v.accepted + 1 }, after)
  differ : after.config.traceSign * s.config.traceSign ≠ sign → ∀ v : Mover α,
    (v.hold o).accept o.state =
      .error (.signProblem sign (after.config.traceSign * s.config.traceSign) after.config)

theorem Mover.accept_eq {v : Mover α} {p : Proposal α} (hv : v.proposal = some p)
    (h : p.carryOut s = .ok after) : v.accept s =
      if after.config.traceSign * s.config.traceSign = p.determinantSign then
        .ok (after.config.traceSign * s.config.traceSign,
          { v with proposal := none, accepted := v.accepted + 1 }, after)
      else .error (.signProblem p.determinantSign
        (after.config.traceSign * s.config.traceSign) after.config) := by
  obtain ⟨d, hd, h⟩ := Outcome.bind_eq_ok.mp h
  obtain ⟨e, he, h⟩ := Outcome.bind_eq_ok.mp h
  obtain ⟨config, hconfig, h⟩ := Outcome.bind_eq_ok.mp h
  cases h
  simp only [accept, hv, hd, he, hconfig, Outcome.ok_bind, Outcome.require]
  split_ifs <;> rfl

theorem Offer.Leads.accept {o : Offer α} (h : o.Leads s after) {color : ℕ} {change : Change α}
    {sign : Sign} (hp : o.proposal = some ⟨color, change, sign⟩) : o.Accepts s after sign := by
  obtain ⟨q, d, hq, hconfig, -, -, hout⟩ := h.held
  cases hp.symm.trans hq
  constructor <;> intro hsign v <;>
    rw [Mover.accept_eq (v := v.hold o) hp hout, hconfig]
  · rw [if_pos hsign, hsign]
    rfl
  · rw [if_neg hsign]

theorem Offer.Leads.reject {o : Offer α} (h : o.Leads s after) (v : Mover α) :
    (v.hold o).reject o.state =
      .ok ({ v with proposal := none, rejected := v.rejected + 1 }, s) := by
  obtain ⟨p, d, hp, -, hd, hback, -⟩ := h.held
  have hv : (v.hold o).proposal = some p := hp
  simp only [Mover.reject, hv, hd, Outcome.ok_bind, Outcome.pure_eq, hback]
  rfl

theorem Proposal.offer_leads {beta : α} {color : ℕ} {l : Line α} {t d : LineDeterminant α}
    {x : Outcome α (α × State α)} {change : Change α} {trace ratio chance : α}
    (hs : s.Matched beta) (hc : color < s.config.colors) (ht : s.Opens color x ratio t d)
    (hchange : change.apply color s.config = .ok (s.config.setLine color l)) :
    (offer (s.setDeterminant color t) color change trace ratio chance).Leads s
      (s.replace color l d) := by
  have hget : (s.setDeterminant color t).determinant color = .ok t := by
    refine Outcome.nth_eq_ok.mpr ?_
    rw [State.setDeterminant, List.getElem?_set_self (by rwa [hs.count])]
  have hset : ∀ e, (s.setDeterminant color t).setDeterminant color e = s.setDeterminant color e :=
    fun e => by simp only [State.setDeterminant, List.set_set]
  refine ⟨⟨color, change, _⟩, t, rfl, rfl, hget, ?_, ?_⟩
  · exact (hset _).trans ht.discard
  · have hconfig : change.apply color (s.setDeterminant color t).config =
        .ok (s.config.setLine color l) := hchange
    simp only [carryOut, offer, hget, ht.commit, hconfig, Outcome.ok_bind, Outcome.pure_eq, hset]
    rfl

end ImpuritySampler
