import ImpuritySampler.Proofs.Determinant.Run
import ImpuritySampler.Proofs.Fault
import ImpuritySampler.Proofs.Move.Draw
import ImpuritySampler.Proofs.State.Edit

/-!
# The trial behind a proposal

In any arithmetic, a proposal is held together with the trial it has opened on the determinant of
its color, and a degenerate one opens none. From idle determinants a decision therefore always finds
what it decides about: rejecting gives the state before the proposal, and accepting carries out the
trial and the change.
-/

set_option autoImplicit false

namespace ImpuritySampler

open Outcome

/-- Scalars made of counts and squares without a difference. -/
inductive Scalar.Unsigned {α : Type} [Scalar α] : α → Prop
  | one : Unsigned 1
  | count (n : ℕ) : Unsigned (n : α)
  | add {a b : α} : Unsigned a → Unsigned b → Unsigned (a + b)
  | mul {a b : α} : Unsigned a → Unsigned b → Unsigned (a * b)
  | div {a b : α} : Unsigned a → Unsigned b → Unsigned (a / b)
  | square (a : α) : Unsigned (a * a)
  | scaled {a : α} (b : α) : Unsigned a → Unsigned (a * b * b)

theorem Scalar.Unsigned.nonneg {α : Type} [ExactScalar α] {a : α} (h : Unsigned a) : 0 ≤ a := by
  induction h with
  | one => exact zero_le_one
  | count n => exact Nat.cast_nonneg n
  | add _ _ ha hb => exact add_nonneg ha hb
  | mul _ _ ha hb => exact mul_nonneg ha hb
  | div _ _ ha hb => exact div_nonneg ha hb
  | square a => exact mul_self_nonneg a
  | scaled b _ ha => exact (mul_assoc _ b b).symm ▸ mul_nonneg ha (mul_self_nonneg b)

namespace Determinant

variable {α X Y : Type} {d t : Determinant α X Y} {ratio : α}

/-- The determinant `t` is the idle determinant `d` with a trial of the given ratio. -/
structure Pending (d t : Determinant α X Y) (ratio : α) : Prop where
  idle : d.isIdle = true
  ratio : t.pendingRatio? = some ratio
  discard : t.discard = d

theorem Pending.not_idle (h : d.Pending t ratio) : t.isIdle = false := by
  have hratio := h.ratio
  obtain ⟨_, _, _, _, _, trial⟩ := t
  cases trial with
  | idle => cases hratio
  | insertion u => rfl
  | removal u => rfl

variable [Scalar α]

theorem Pending.commit (h : d.Pending t ratio) : ∃ e, t.commit = .ok e ∧ e.isIdle = true ∧
    e.element = d.element ∧ e.value = d.value * ratio := by
  obtain ⟨-, hratio, rfl⟩ := h
  obtain ⟨_, _, _, _, _, trial⟩ := t
  cases trial with
  | idle => cases hratio
  | insertion u =>
    cases hratio
    exact ⟨_, rfl, rfl, rfl, rfl⟩
  | removal u =>
    cases hratio
    exact ⟨_, rfl, rfl, rfl, rfl⟩

theorem tryInsert_pending {row col : ℕ} {x : X} {y : Y}
    (h : d.tryInsert row col x y = .ok (ratio, t)) : d.Pending t ratio := by
  obtain ⟨_, hidle, h⟩ := bind_eq_ok.mp h
  obtain ⟨_, -, h⟩ := bind_eq_ok.mp h
  obtain ⟨b, -, h⟩ := bind_eq_ok.mp h
  obtain ⟨c, -, h⟩ := bind_eq_ok.mp h
  obtain ⟨corner, -, h⟩ := bind_eq_ok.mp h
  cases h
  have hidle := require_eq_ok.mp hidle
  exact ⟨hidle, rfl, discard_trial hidle _⟩

theorem tryRemove_pending {row col : ℕ} (h : d.tryRemove row col = .ok (ratio, t)) :
    d.Pending t ratio := by
  obtain ⟨_, hidle, h⟩ := bind_eq_ok.mp h
  obtain ⟨_, -, h⟩ := bind_eq_ok.mp h
  cases h
  have hidle := require_eq_ok.mp hidle
  exact ⟨hidle, rfl, discard_trial hidle _⟩

theorem inTurn_tryInsert {row col : ℕ} {x : X} {y : Y} (hd : d.isIdle = true)
    (he : ∀ x y, InTurn (d.element x y)) : InTurn (d.tryInsert row col x y) := by
  simp [tryInsert, requireIdle, hd, he, InTurn.mapM, Fault.OutOfTurn]

theorem inTurn_tryRemove {row col : ℕ} (hd : d.isIdle = true) :
    InTurn (d.tryRemove row col) := by
  simp [tryRemove, requireIdle, hd, Fault.OutOfTurn]

end Determinant

variable {α : Type} [Scalar α] {s s' : State α} {color : ℕ} {m : Model α} {o : Offer α} {ratio : α}

namespace State

/-- No trial is pending, and the element rules are those of hybridizations. -/
structure Settled (s : State α) : Prop where
  idle : ∀ d ∈ s.determinants, d.isIdle = true
  element : ∀ d ∈ s.determinants, ∃ h : Hybridization α, d.element = h.element

theorem Settled.determinant {d : LineDeterminant α} (h : s.Settled)
    (hd : s.determinant color = .ok d) : d.isIdle = true ∧ ∀ x y, InTurn (d.element x y) := by
  have hmem := List.mem_of_getElem? (nth_eq_ok.mp hd)
  obtain ⟨b, hb⟩ := h.element d hmem
  exact ⟨h.idle d hmem, fun x y => hb ▸ b.inTurn_element x y⟩

def Tries (s s' : State α) (color : ℕ) (ratio : α) : Prop :=
  ∃ d t, s.determinants[color]? = some d ∧ d.Pending t ratio ∧ s' = s.setDeterminant color t

theorem tryPair_tries {a c : Time α} (h : s.tryPair color a c = .ok (ratio, s')) :
    s.Tries s' color ratio := by
  obtain ⟨d, hd, h⟩ := bind_eq_ok.mp h
  obtain ⟨⟨_, t⟩, ht, h⟩ := bind_eq_ok.mp h
  cases h
  exact ⟨d, t, nth_eq_ok.mp hd, Determinant.tryInsert_pending ht, rfl⟩

theorem tryDrop_tries {col : ℕ} {c : Time α} (h : s.tryDrop color col c = .ok (ratio, s')) :
    s.Tries s' color ratio := by
  obtain ⟨d, hd, h⟩ := bind_eq_ok.mp h
  obtain ⟨row, -, h⟩ := bind_eq_ok.mp h
  obtain ⟨⟨_, t⟩, ht, h⟩ := bind_eq_ok.mp h
  cases h
  exact ⟨d, t, nth_eq_ok.mp hd, Determinant.tryRemove_pending ht, rfl⟩

inductive Tried (s : State α) (color : ℕ) : α × State α → Prop
  | pair {y : α × State α} {a c : Time α} (h : s.tryPair color a c = .ok y) : Tried s color y
  | drop {y : α × State α} {col : ℕ} {c : Time α} (h : s.tryDrop color col c = .ok y) :
    Tried s color y

theorem Tried.tries {y : α × State α} (h : s.Tried color y) : s.Tries y.2 color y.1 := by
  cases h with
  | pair h => exact tryPair_tries h
  | drop h => exact tryDrop_tries h

theorem Settled.inTurn_tryPair {a c : Time α} (h : s.Settled) :
    InTurn (s.tryPair color a c) := by
  rw [tryPair, inTurn_bind]
  refine ⟨inTurn_determinant, fun d hd => ?_⟩
  obtain ⟨hidle, helement⟩ := h.determinant hd
  rw [inTurn_bind]
  exact ⟨Determinant.inTurn_tryInsert hidle helement, by simp⟩

theorem Settled.inTurn_tryDrop {col : ℕ} {c : Time α} (h : s.Settled) :
    InTurn (s.tryDrop color col c) := by
  have hrow : ∀ d : LineDeterminant α, InTurn (creationRow d color c) := by
    intro d
    rw [creationRow]
    split <;> simp [Fault.OutOfTurn]
  rw [tryDrop, inTurn_bind]
  refine ⟨inTurn_determinant, fun d hd => ?_⟩
  obtain ⟨hidle, -⟩ := h.determinant hd
  simp [hrow, Determinant.inTurn_tryRemove hidle]

end State

/-- An offer made of the state `s` for one color: it is degenerate and leaves the state alone, or
it holds a proposal and has opened a trial on the determinant of the color. -/
inductive Offer.Opened (s : State α) (color : ℕ) : Offer α → Prop
  | degenerate : Opened s color (Proposal.degenerate s)
  | priced {s' : State α} {change : Change α} {trace ratio chance : α} (ht : s.Tries s' color ratio)
    (hc : Scalar.Unsigned chance) :
    Opened s color (Proposal.offer s' color change (Scalar.exp trace) ratio chance)

def Change.localRatio (change : Change α) (c : Configuration α) (m : Model α) (color : ℕ) :
    Outcome α α :=
  match change with
  | insert u => LocalRatio.insert c m color u
  | remove i => LocalRatio.remove c m color i
  | split _ holeAnnihilation holeCreation =>
    LocalRatio.split c m color holeAnnihilation holeCreation
  | regroup i => LocalRatio.regroup c m color i

/-- The offer is degenerate, or its price is the product of the ratio of local weights for its
change, of the ratio that its trial has returned, and of a ratio of chances. -/
inductive Offer.Priced (s : State α) (m : Model α) (color : ℕ) : Offer α → Prop
  | degenerate : Priced s m color (Proposal.degenerate s)
  | product {s' : State α} {change : Change α} {trace ratio chance : α}
    (htrace : change.localRatio s.config m color = .ok trace)
    (htrial : s.Tried color (ratio, s')) (hchance : Scalar.Unsigned chance) :
    Priced s m color (Proposal.offer s' color change trace ratio chance)

namespace LocalRatio

variable {i : ℕ} {x : α}

theorem of_insert {u : Segment α} (h : insert s.config m color u = .ok x) :
    ∃ a, x = Scalar.exp a := by
  obtain ⟨a, -, h⟩ := bind_eq_ok.mp h
  exact ⟨a, (Except.ok.inj h).symm⟩

theorem of_remove (h : remove s.config m color i = .ok x) : ∃ a, x = Scalar.exp a := by
  obtain ⟨l, -, h⟩ := bind_eq_ok.mp h
  obtain ⟨u, -, h⟩ := bind_eq_ok.mp h
  obtain ⟨a, -, h⟩ := bind_eq_ok.mp h
  exact ⟨-a, (Except.ok.inj h).symm⟩

theorem of_split {a c : Time α} (h : split s.config m color a c = .ok x) :
    ∃ a, x = Scalar.exp a := by
  obtain ⟨a, -, h⟩ := bind_eq_ok.mp h
  exact ⟨a, (Except.ok.inj h).symm⟩

theorem of_regroup (h : regroup s.config m color i = .ok x) : ∃ a, x = Scalar.exp a := by
  obtain ⟨l, -, h⟩ := bind_eq_ok.mp h
  obtain ⟨next, -, h⟩ := bind_eq_ok.mp h
  obtain ⟨q, -, h⟩ := bind_eq_ok.mp h
  obtain ⟨p, -, h⟩ := bind_eq_ok.mp h
  obtain ⟨⟨_, closed⟩, -, h⟩ := bind_eq_ok.mp h
  obtain ⟨a, -, h⟩ := bind_eq_ok.mp h
  exact ⟨-a, (Except.ok.inj h).symm⟩

end LocalRatio

theorem Offer.Priced.opened (h : o.Priced s m color) : o.Opened s color := by
  cases h with
  | degenerate => exact .degenerate
  | @product s' change trace ratio chance htrace htrial hchance =>
    obtain ⟨a, rfl⟩ : ∃ a, trace = Scalar.exp a := by
      cases change with
      | insert u => exact LocalRatio.of_insert htrace
      | remove i => exact LocalRatio.of_remove htrace
      | split i a c => exact LocalRatio.of_split htrace
      | regroup i => exact LocalRatio.of_regroup htrace
    exact .priced htrial.tries hchance

namespace Proposal

variable {i : ℕ} {d₁ d₂ : Time α} {w : Window α}

theorem orderings_unsigned (n k : ℕ) :
    Scalar.Unsigned (if n = k then 1 else ((2 : ℕ) : α)) := by
  split_ifs
  · exact .one
  · exact .count 2

theorem insert_priced (h : insert s m color w d₁ d₂ = .ok o) : o.Priced s m color := by
  rcases ite_eq_iff.mp h with ⟨-, h⟩ | ⟨-, h⟩
  · cases h
    exact .degenerate
  · obtain ⟨l, -, h⟩ := bind_eq_ok.mp h
    obtain ⟨a, -, h⟩ := bind_eq_ok.mp h
    obtain ⟨c, -, h⟩ := bind_eq_ok.mp h
    obtain ⟨trace, htrace, h⟩ := bind_eq_ok.mp h
    obtain ⟨⟨ratio, s'⟩, ht, h⟩ := bind_eq_ok.mp h
    cases h
    exact .product htrace (.pair ht)
      (.div (.div (.scaled _ (.count _)) (orderings_unsigned _ _)) (.add (.count _) .one))

theorem remove_priced (h : remove s m color i = .ok o) : o.Priced s m color := by
  obtain ⟨l, -, h⟩ := bind_eq_ok.mp h
  obtain ⟨u, -, h⟩ := bind_eq_ok.mp h
  obtain ⟨trace, htrace, h⟩ := bind_eq_ok.mp h
  obtain ⟨⟨ratio, s'⟩, ht, h⟩ := bind_eq_ok.mp h
  obtain ⟨length, -, h⟩ := bind_eq_ok.mp h
  cases h
  exact .product htrace (.drop ht)
    (.div (.count _) (.div (.scaled _ (.count _)) (orderings_unsigned _ _)))

theorem split_priced (h : split s m color i d₁ d₂ = .ok o) : o.Priced s m color := by
  rcases ite_eq_iff.mp h with ⟨-, h⟩ | ⟨-, h⟩
  · cases h
    exact .degenerate
  obtain ⟨full, -, h⟩ := bind_eq_ok.mp h
  obtain ⟨l, -, h⟩ := bind_eq_ok.mp h
  rcases ite_eq_iff.mp h with ⟨-, h⟩ | ⟨-, h⟩
  · cases h
    exact .degenerate
  obtain ⟨w, -, h⟩ := bind_eq_ok.mp h
  obtain ⟨c, -, h⟩ := bind_eq_ok.mp h
  obtain ⟨a, -, h⟩ := bind_eq_ok.mp h
  obtain ⟨trace, htrace, h⟩ := bind_eq_ok.mp h
  obtain ⟨⟨ratio, s'⟩, ht, h⟩ := bind_eq_ok.mp h
  cases h
  refine .product htrace (.pair ht) ?_
  cases full with
  | true => exact .square _
  | false => exact .div (.div (.scaled _ (.count _)) (.count 2)) (.add (.count _) .one)

theorem regroup_priced (h : regroup s m color i = .ok o) : o.Priced s m color := by
  obtain ⟨l, -, h⟩ := bind_eq_ok.mp h
  obtain ⟨next, -, h⟩ := bind_eq_ok.mp h
  obtain ⟨p, -, h⟩ := bind_eq_ok.mp h
  obtain ⟨q, -, h⟩ := bind_eq_ok.mp h
  -- the length is the period or a difference of two times
  obtain ⟨length, h⟩ : ∃ length : α, (do
      let trace ← LocalRatio.regroup s.config m color i
      let y ← s.tryDrop color next p.creation
      pure (offer y.2 color (.regroup i) trace y.1
        (if l.length = 1 then 1 / (length * length)
          else ((2 : ℕ) : α) * (l.length : α) / (((l.length - 1 : ℕ) : α) * length * length)))) =
      .ok o := by
    rcases ite_eq_iff.mp h with ⟨-, h⟩ | ⟨-, h⟩
    · exact ⟨_, h⟩
    · obtain ⟨length, -, h⟩ := bind_eq_ok.mp h
      exact ⟨_, h⟩
  obtain ⟨trace, htrace, h⟩ := bind_eq_ok.mp h
  obtain ⟨⟨ratio, s'⟩, ht, h⟩ := bind_eq_ok.mp h
  cases h
  refine .product htrace (.drop ht) ?_
  by_cases hn : l.length = 1
  · rw [if_pos hn]
    exact .div .one (.square _)
  · rw [if_neg hn]
    exact .div (.mul (.count 2) (.count _)) (.scaled _ (.count _))

variable {kind : MoveKind} {r : Random}

theorem propose_priced {x : Draw α} (h : x.propose s m color = .ok o) : o.Priced s m color := by
  cases x with
  | insert index d₁ d₂ =>
    obtain ⟨w, -, h⟩ := bind_eq_ok.mp h
    exact insert_priced h
  | remove i => exact remove_priced h
  | split i d₁ d₂ => exact split_priced h
  | regroup i => exact regroup_priced h

theorem propose_opened {x : Draw α} (h : x.propose s m color = .ok o) : o.Opened s color :=
  (propose_priced h).opened

/-- A drawn offer is priced, for the color that is drawn first. -/
theorem draw_priced {x : Offer α × Random} (h : draw kind s m r = .ok x) :
    ∃ color r', (r.place s.config.colors : Outcome α (ℕ × Random)) = .ok (color, r') ∧
      x.1.Priced s m color := by
  obtain ⟨color, r', hcolor, -, h | ⟨y, -, -, ho⟩⟩ := draw_possible h
  · exact ⟨color, r', hcolor, h ▸ .degenerate⟩
  · exact ⟨color, r', hcolor, propose_priced ho⟩

theorem draw_opened {x : Offer α × Random} (h : draw kind s m r = .ok x) :
    ∃ color r', (r.place s.config.colors : Outcome α (ℕ × Random)) = .ok (color, r') ∧
      x.1.Opened s color := by
  obtain ⟨color, r', hcolor, ho⟩ := draw_priced h
  exact ⟨color, r', hcolor, ho.opened⟩

theorem inTurn_insert (hs : s.Settled) : InTurn (insert s m color w d₁ d₂) := by
  simp [insert, hs.inTurn_tryPair]

theorem inTurn_remove (hs : s.Settled) : InTurn (remove s m color i) := by
  simp [remove, hs.inTurn_tryDrop]

theorem inTurn_split (hs : s.Settled) : InTurn (split s m color i d₁ d₂) := by
  simp [split, hs.inTurn_tryPair]

theorem inTurn_regroup (hs : s.Settled) : InTurn (regroup s m color i) := by
  simp [regroup, hs.inTurn_tryDrop]

theorem inTurn_draw (hs : s.Settled) : InTurn (draw kind s m r) := by
  cases kind <;>
    simp [draw, inTurn_insert hs, inTurn_remove hs, inTurn_split hs, inTurn_regroup hs]

end Proposal

section Decisions

variable {v : Mover α} {after : State α}

/-- The state `after` is `s` with a trial on one color carried out, and a configuration whose sign
has changed with that of the determinant. -/
structure State.Carried (s after : State α) (color : ℕ) (ratio : α) : Prop where
  determinants : ∃ d e : LineDeterminant α, s.determinants[color]? = some d ∧ e.isIdle = true ∧
    e.element = d.element ∧ e.value = d.value * ratio ∧
    after.determinants = s.determinants.set color e
  sign : after.config.traceSign * s.config.traceSign = .ofPositive ratio

omit [Scalar α] in
theorem State.Tries.config (h : s.Tries s' color ratio) : s'.config = s.config := by
  obtain ⟨d, t, -, -, rfl⟩ := h
  rfl

omit [Scalar α] in
theorem State.Tries.determinant (h : s.Tries s' color ratio) : ∃ d t,
    s.determinants[color]? = some d ∧ d.Pending t ratio ∧ s'.determinant color = .ok t ∧
      ∀ e, s'.setDeterminant color e = s.setDeterminant color e := by
  obtain ⟨d, t, hd, ht, rfl⟩ := h
  refine ⟨d, t, hd, ht, determinant_setDeterminant (nth_eq_ok.mpr hd), fun e => ?_⟩
  rw [setDeterminant, setDeterminant, List.set_set]
  rfl

theorem Offer.Opened.reject (h : o.Opened s color) (v : Mover α) :
    (v.hold o).reject o.state =
      .ok ({ v with proposal := none, rejected := v.rejected + 1 }, s) := by
  cases h with
  | degenerate => rfl
  | priced ht hc =>
    obtain ⟨d, t, hd, hpending, hget, hset⟩ := ht.determinant
    have hback := State.setDeterminant_self hd
    rw [← hpending.discard, ← hset] at hback
    simp only [Mover.reject, Mover.hold, Proposal.offer, hget, ok_bind, pure_eq, hback]

theorem Mover.of_accept {change : Change α} {trace chance : α} {x : Sign × Mover α × State α}
    (ht : s.Tries s' color ratio)
    (h : (v.hold (Proposal.offer s' color change trace ratio chance)).accept s' = .ok x) :
    ∃ after, x =
        (.ofPositive ratio, { v with proposal := none, accepted := v.accepted + 1 }, after) ∧
      s.Carried after color ratio := by
  obtain ⟨d, t, hd, hpending, hget, hset⟩ := ht.determinant
  obtain ⟨e, hcommit, hidle, helement, hvalue⟩ := hpending.commit
  simp only [accept, hold, Proposal.offer, hget, hcommit, ok_bind, ht.config, hset] at h
  obtain ⟨config, -, h⟩ := bind_eq_ok.mp h
  obtain ⟨_, hsign, h⟩ := bind_eq_ok.mp h
  cases h
  have hsign := require_eq_ok.mp hsign
  exact ⟨_, by rw [hsign], ⟨d, e, hd, hidle, helement, hvalue, rfl⟩, hsign⟩

theorem Mover.inTurn_accept {change : Change α} {trace chance : α} (ht : s.Tries s' color ratio) :
    InTurn ((v.hold (Proposal.offer s' color change trace ratio chance)).accept s') := by
  obtain ⟨d, t, hd, hpending, hget, -⟩ := ht.determinant
  obtain ⟨e, hcommit, -⟩ := hpending.commit
  simp [accept, hold, Proposal.offer, hget, hcommit, Fault.OutOfTurn]

theorem State.Carried.settled (h : s.Carried after color ratio) (hs : s.Settled) :
    after.Settled := by
  obtain ⟨d, e, hd, hidle, helement, -, hafter⟩ := h.determinants
  constructor <;> rw [hafter] <;> intro f hf <;>
    rcases List.mem_or_eq_of_mem_set hf with hf | rfl
  · exact hs.idle f hf
  · exact hidle
  · exact hs.element f hf
  · exact helement ▸ hs.element d (List.mem_of_getElem? hd)

end Decisions

end ImpuritySampler
