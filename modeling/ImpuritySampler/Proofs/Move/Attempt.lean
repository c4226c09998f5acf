import ImpuritySampler.Proofs.Move.Edit

/-!
# Attempts

An attempt is written here with its random numbers left open: it asks for places below a bound and
for times in a window, and goes on with whatever it is told. Answered from a source of words, it is
the draw of a proposal. On a consistent state it asks only for what there is, and whatever it is
told, it makes an offer whose trial stays inside the tables of its determinant. This holds for exact
numbers and for floating point alike, as long as the periods of the tables are numbers.
-/

set_option autoImplicit false

namespace ImpuritySampler

/-- A computation that waits for random numbers: places below `n`, and times before the end of a
window. -/
inductive Asking (α β : Type) where
  | done (b : β)
  | fault (e : Fault α)
  | place (n : ℕ) (next : ℕ → Asking α β)
  | time (window : Time α) (next : Time α → Asking α β)

namespace Asking

variable {α β γ : Type}

def bind : Asking α β → (β → Asking α γ) → Asking α γ
  | done b, f => f b
  | fault e, _ => fault e
  | place n next, f => place n fun i => (next i).bind f
  | time window next, f => time window fun d => (next d).bind f

instance : Monad (Asking α) where
  pure := done
  bind := bind

def ofOutcome : Outcome α β → Asking α β
  | .ok b => done b
  | .error e => fault e

instance : MonadLift (Outcome α) (Asking α) := ⟨ofOutcome⟩

def run : Asking α β → Random → Outcome α (β × Random)
  | done b, r => .ok (b, r)
  | fault e, _ => .error e
  | place n next, r => do
    let (i, r) ← r.place n
    (next i).run r
  | time window next, r => do
    let (d, r) ← r.time window
    (next d).run r

/-- No question is empty, and with any answers in range there is a result that satisfies `post`. -/
def Ensures (post : β → Prop) : Asking α β → Prop
  | done b => post b
  | fault _ => False
  | place n next => 0 < n ∧ ∀ i < n, (next i).Ensures post
  | time window next => 0 < window.ticks ∧
      ∀ d : Time α, d.ticks < window.ticks → d.period = window.period → (next d).Ensures post

section Run

variable {r : Random} {f : β → Asking α γ}

@[simp] theorem done_bind (b : β) : (pure b >>= f) = f b := rfl

@[simp] theorem run_pure (b : β) : (pure b : Asking α β).run r = .ok (b, r) := rfl

@[simp] theorem run_lift (x : Outcome α β) :
    (liftM x : Asking α β).run r = x >>= fun b => .ok (b, r) := by
  cases x <;> rfl

@[simp] theorem run_lift_bind (x : Outcome α β) :
    (liftM x >>= f).run r = x >>= fun b => (f b).run r := by
  cases x <;> rfl

@[simp] theorem run_place {n : ℕ} {f : ℕ → Asking α γ} :
    (place n done >>= f).run r = r.place n >>= fun x => (f x.1).run x.2 := rfl

@[simp] theorem run_time {window : Time α} {f : Time α → Asking α γ} :
    (time window done >>= f).run r = r.time window >>= fun x => (f x.1).run x.2 := rfl

@[simp] theorem run_ite {p : Prop} [Decidable p] {x y : Asking α β} :
    (if p then x else y).run r = if p then x.run r else y.run r := by
  split <;> rfl

end Run

section Ensures

variable {post : γ → Prop} {f : β → Asking α γ}

theorem ensures_lift {x : Outcome α γ} :
    (liftM x : Asking α γ).Ensures post ↔ ∃ c, x = .ok c ∧ post c := by
  cases x with
  | error e => exact ⟨False.elim, fun ⟨_, h, _⟩ => nomatch h⟩
  | ok c => exact ⟨fun h => ⟨c, rfl, h⟩, fun ⟨_, h, hc⟩ => Except.ok.inj h ▸ hc⟩

theorem ensures_lift_bind {x : Outcome α β} {b : β} (hx : x = .ok b) :
    (liftM x >>= f).Ensures post ↔ (f b).Ensures post := by
  rw [hx]
  rfl

theorem ensures_place {n : ℕ} {f : ℕ → Asking α γ} :
    (place n done >>= f).Ensures post ↔ 0 < n ∧ ∀ i < n, (f i).Ensures post := Iff.rfl

theorem ensures_time {window : Time α} {f : Time α → Asking α γ} :
    (time window done >>= f).Ensures post ↔ 0 < window.ticks ∧ ∀ d : Time α,
      d.ticks < window.ticks → d.period = window.period → (f d).Ensures post := Iff.rfl

theorem ensures_time_twice {w : Window α} {f : Time α → Time α → Asking α γ}
    (hw : 0 < w.length.ticks)
    (h : ∀ d₁ d₂, w.Admits d₁ → w.Admits d₂ → (f d₁ d₂).Ensures post) :
    (time w.length done >>= fun d₁ => time w.length done >>= f d₁).Ensures post :=
  ensures_time.mpr ⟨hw, fun d₁ h₁ hp₁ => ensures_time.mpr ⟨hw, fun d₂ h₂ hp₂ =>
    h d₁ d₂ ⟨h₁, hp₁⟩ ⟨h₂, hp₂⟩⟩⟩

end Ensures

end Asking

namespace Random

variable {α : Type} {r : Random}

theorem belowFrom_fails {bound zone fuel : ℕ} {e : Fault α}
    (h : belowFrom bound zone fuel r = .error e) : e = .sourceExhausted := by
  induction fuel generalizing r with
  | zero => exact (Except.error.inj h).symm
  | succ fuel ih =>
    rw [belowFrom, next] at h
    split at h
    · rcases ite_eq_iff.mp h with ⟨-, h⟩ | ⟨-, h⟩
      · cases h
      · exact ih h
    · exact (Except.error.inj h).symm

theorem place_fails {n : ℕ} {e : Fault α} (h : r.place n = .error e) : e = .sourceExhausted :=
  belowFrom_fails h

theorem time_fails {window : Time α} {e : Fault α} (hw : 0 < window.ticks)
    (h : r.time window = .error e) : e = .sourceExhausted := by
  rw [time, Outcome.require_true hw, Outcome.ok_bind] at h
  cases hx : (r.below window.ticks : Outcome α (ℕ × Random)) with
  | ok x =>
    rw [hx] at h
    cases h
  | error e' =>
    rw [hx] at h
    cases h
    exact belowFrom_fails hx

end Random

/-- A source of words that does not run dry gives a result. -/
theorem Asking.Ensures.run {α β : Type} {post : β → Prop} {x : Asking α β} (h : x.Ensures post)
    (r : Random) :
    (∃ b r', x.run r = .ok (b, r') ∧ post b) ∨ x.run r = .error .sourceExhausted := by
  induction x generalizing r with
  | done b => exact .inl ⟨b, r, rfl, h⟩
  | fault e => exact h.elim
  | place n next ih =>
    rw [Asking.run]
    cases hx : (r.place n : Outcome α (ℕ × Random)) with
    | ok x => exact ih x.1 (h.2 _ (Random.place_lt h.1 hx)) x.2
    | error e => exact .inr (by rw [Random.place_fails hx]; rfl)
  | time window next ih =>
    rw [Asking.run]
    cases hx : r.time window with
    | ok x =>
      have hd := Random.time_admits (w := ⟨window, window⟩) hx
      exact ih x.1 (h.2 _ hd.1 hd.2) x.2
    | error e => exact .inr (by rw [Random.time_fails h.1 hx]; rfl)

namespace Proposal

variable {α : Type} [Scalar α]

/-- The draw of a proposal with its random numbers left open. -/
def attempt (kind : MoveKind) (s : State α) (m : Model α) : Asking α (Offer α) := do
  let color ← .place s.config.colors .done
  let n := (← s.config.line color).length
  match kind with
  | .insert =>
    if ← s.config.isFull color then pure (degenerate s)
    else
      let index ←
        if n = 0 then pure none
        else do pure (some (← .place n .done))
      let w ← Window.insertion s color index
      if w.length.ticks = 0 then pure (degenerate s)
      else
        let d₁ ← .time w.length .done
        let d₂ ← .time w.length .done
        insert s m color w d₁ d₂
  | .remove =>
    if n = 0 then pure (degenerate s)
    else if ← s.config.isFull color then pure (degenerate s)
    else
      let index ← .place n .done
      remove s m color index
  | .split =>
    if n = 0 then pure (degenerate s)
    else
      let index ← .place n .done
      let w ← Window.split s color index
      let d₁ ← .time w.length .done
      let d₂ ← .time w.length .done
      split s m color index d₁ d₂
  | .regroup =>
    if n = 0 then pure (degenerate s)
    else if ← s.config.isFull color then pure (degenerate s)
    else
      let index ← .place n .done
      regroup s m color index

theorem draw_eq_run (kind : MoveKind) (s : State α) (m : Model α) (r : Random) :
    draw kind s m r = (attempt kind s m).run r := by
  cases kind <;> simp [draw, attempt]

end Proposal

section InRange

open Outcome

variable {α : Type} {X Y : Type}

def Determinant.TrialInRange (d : Determinant α X Y) : Prop :=
  match d.trial with
  | .idle => True
  | .insertion t => t.row ≤ d.size ∧ t.col ≤ d.size ∧
      ∀ l < d.size, ∀ k < d.size, ∃ x, d.inverseEntry l k = .ok x
  | .removal t => ∃ x, d.inverseEntry t.col t.row = .ok x

def Offer.TrialInRange (o : Offer α) : Prop :=
  ∀ p, o.proposal = some p → ∃ d, o.state.determinant p.color = .ok d ∧ d.TrialInRange

def State.Tabulated (s : State α) : Prop :=
  ∀ d ∈ s.determinants, d.inverse.HasShape d.size d.size

theorem Determinant.inverseEntry_ok {d : Determinant α X Y} (h : d.inverse.HasShape d.size d.size)
    {l k : ℕ} (hl : l < d.size) (hk : k < d.size) : ∃ x, d.inverseEntry l k = .ok x := by
  obtain ⟨hrows, hcols⟩ := h
  have hplace : l * d.inverse.cols + k < d.inverse.data.size := by
    rw [d.inverse.size_eq, hrows, hcols]
    exact Grid.place_lt hl hk
  refine ⟨d.inverse.data[l * d.inverse.cols + k], ?_⟩
  rw [inverseEntry, Grid.get?, if_pos ⟨hrows ▸ hl, hcols ▸ hk⟩, Array.getElem?_eq_getElem hplace]

theorem Determinant.inverseEntry_eq [Zero α] {d : Determinant α X Y}
    (h : d.inverse.HasShape d.size d.size) {l k : ℕ} (hl : l < d.size) (hk : k < d.size) :
    d.inverseEntry l k = .ok (d.inverse.entry l k) := by
  obtain ⟨e, he⟩ := inverseEntry_ok h hl hk
  rw [he, Grid.entry]
  rw [inverseEntry] at he
  split at he
  · cases he
    simp [*]
  · cases he

variable [Scalar α] {s : State α} {color : ℕ} {ratio : α} {s' : State α}

theorem Determinant.tryInsert_inRange {d t : Determinant α X Y} {row col : ℕ} {x : X} {y : Y}
    (hd : d.inverse.HasShape d.size d.size) (h : d.tryInsert row col x y = .ok (ratio, t)) :
    t.TrialInRange := by
  obtain ⟨_, -, h⟩ := bind_eq_ok.mp h
  obtain ⟨_, hrange, h⟩ := bind_eq_ok.mp h
  obtain ⟨b, -, h⟩ := bind_eq_ok.mp h
  obtain ⟨c, -, h⟩ := bind_eq_ok.mp h
  obtain ⟨corner, -, h⟩ := bind_eq_ok.mp h
  cases h
  obtain ⟨hrow, hcol⟩ := require_eq_ok.mp hrange
  exact ⟨hrow, hcol, fun l hl k hk => inverseEntry_ok hd hl hk⟩

theorem Determinant.tryRemove_inRange {d t : Determinant α X Y} {row col : ℕ}
    (hd : d.inverse.HasShape d.size d.size) (h : d.tryRemove row col = .ok (ratio, t)) :
    t.TrialInRange := by
  obtain ⟨_, -, h⟩ := bind_eq_ok.mp h
  obtain ⟨_, hrange, h⟩ := bind_eq_ok.mp h
  cases h
  obtain ⟨hrow, hcol⟩ := require_eq_ok.mp hrange
  exact inverseEntry_ok hd hcol hrow

theorem State.Tabulated.tryPair (hs : s.Tabulated) {a c : Time α}
    (h : s.tryPair color a c = .ok (ratio, s')) :
    ∃ d, s'.determinant color = .ok d ∧ d.TrialInRange := by
  obtain ⟨d, hd, h⟩ := bind_eq_ok.mp h
  obtain ⟨⟨_, t⟩, ht, h⟩ := bind_eq_ok.mp h
  cases h
  exact ⟨t, determinant_setDeterminant hd,
    Determinant.tryInsert_inRange (hs d (List.mem_of_getElem? (nth_eq_ok.mp hd))) ht⟩

theorem State.Tabulated.tryDrop (hs : s.Tabulated) {j : ℕ} {c : Time α}
    (h : s.tryDrop color j c = .ok (ratio, s')) :
    ∃ d, s'.determinant color = .ok d ∧ d.TrialInRange := by
  obtain ⟨d, hd, h⟩ := bind_eq_ok.mp h
  obtain ⟨row, -, h⟩ := bind_eq_ok.mp h
  obtain ⟨⟨_, t⟩, ht, h⟩ := bind_eq_ok.mp h
  cases h
  exact ⟨t, determinant_setDeterminant hd,
    Determinant.tryRemove_inRange (hs d (List.mem_of_getElem? (nth_eq_ok.mp hd))) ht⟩

end InRange

theorem Line.Valid.card_pos {α : Type} {beta : α} {l : Line α} {u : Segment α}
    (h : l.Valid beta) (hu : u ∈ l) : 0 < u.ticks.card := by
  have hplaced := (h.onCycle u hu).placed
  rw [Segment.card_ticks hplaced]
  exact Time.gap_pos hplaced.bounds.2 (h.positive hu)

namespace Proposal

open Asking

-- the number of ticks of a segment is not to be computed where it is compared
attribute [local irreducible] Segment.ticks

variable {α : Type} [Scalar α] {beta : α} [Time.Resolved beta] {s : State α} {m : Model α}

section Kinds

variable {post : Offer α → Prop} {color : ℕ}

theorem insertion_ensures (hb : 0 < beta) (hbeta : s.config.beta = beta)
    (hc : color < s.config.colors) (hs : s.config.Valid beta)
    (hfull : s.config.isFull color = .ok false) (hnone : post (degenerate s))
    (hdraw : ∀ x : Draw α, x.Possible s color → ∃ o, x.propose s m color = .ok o ∧ post o)
    (index : Option ℕ) (hindex : Window.Offered (s.config.lineAt color) index) :
    (liftM (Window.insertion s color index) >>= fun w =>
      if w.length.ticks = 0 then pure (degenerate s)
      else time w.length done >>= fun d₁ => time w.length done >>= fun d₂ =>
        (liftM (insert s m color w d₁ d₂) : Asking α (Offer α))).Ensures post := by
  obtain ⟨w, hw, -⟩ := Window.insertion_defined hb hbeta (Configuration.line_eq hc)
    (hs.lineAt hc) hindex
  rw [ensures_lift_bind hw]
  split_ifs with hempty
  · exact hnone
  refine ensures_time_twice (Nat.pos_of_ne_zero hempty) fun d₁ d₂ h₁ h₂ => ?_
  obtain ⟨o, ho, hpost⟩ := hdraw (.insert index d₁ d₂) ⟨hfull, hindex, w, hw, h₁, h₂⟩
  rw [Draw.propose, hw, Outcome.ok_bind] at ho
  exact ensures_lift.mpr ⟨o, ho, hpost⟩

end Kinds

/-- On valid lines an attempt asks for what there is, and makes the offer of a possible draw. -/
theorem attempt_ensures {post : Offer α → Prop} {kind : MoveKind} (hb : 0 < beta)
    (hs : s.config.Valid beta) (hbeta : s.config.beta = beta) (hcolors : 0 < s.config.colors)
    (hnone : post (degenerate s))
    (hdraw : ∀ color < s.config.colors, ∀ x : Draw α, x.Possible s color →
      ∃ o, x.propose s m color = .ok o ∧ post o) : (attempt kind s m).Ensures post := by
  refine ensures_place.mpr ⟨hcolors, fun color hc => ?_⟩
  have hline := Configuration.line_eq hc
  have hv := hs.lineAt hc
  obtain ⟨full, hfull⟩ : ∃ full, s.config.isFull color = .ok full := by
    cases hl : s.config.lineAt color with
    | nil => exact ⟨_, Configuration.isFull_of_tidy hb hs hc (hl ▸ Line.nil_tidy)⟩
    | cons u l => exact ⟨_, Configuration.isFull_eq hb hs hc (i := 0) (by rw [hl]; rfl)⟩
  have hdraw := hdraw color hc
  rw [ensures_lift_bind hline]
  cases kind with
  | insert =>
    dsimp only
    rw [ensures_lift_bind hfull]
    cases full with
    | true => exact hnone
    | false =>
      rw [if_neg Bool.false_ne_true]
      have hwindow := insertion_ensures hb hbeta hc hs hfull hnone hdraw
      split_ifs with hn
      · exact hwindow none (List.eq_nil_of_length_eq_zero hn)
      · exact ensures_place.mpr ⟨Nat.pos_of_ne_zero hn, fun i hi => hwindow (some i) hi⟩
  | remove =>
    dsimp only
    split_ifs with hn
    · exact hnone
    rw [ensures_lift_bind hfull]
    cases full with
    | true => exact hnone
    | false => exact ensures_place.mpr ⟨Nat.pos_of_ne_zero hn, fun i hi =>
        ensures_lift.mpr (hdraw (.remove i) ⟨hfull, hi⟩)⟩
  | split =>
    dsimp only
    split_ifs with hn
    · exact hnone
    refine ensures_place.mpr ⟨Nat.pos_of_ne_zero hn, fun i hi => ?_⟩
    have hu := List.getElem?_eq_getElem hi
    have hcycle := hv.onCycle _ (List.mem_of_getElem? hu)
    have hw := Window.split_eq hline hu hcycle
    rw [ensures_lift_bind hw]
    exact ensures_time_twice (hv.card_pos (List.mem_of_getElem? hu)) fun d₁ d₂ h₁ h₂ =>
      ensures_lift.mpr (hdraw (.split i d₁ d₂) ⟨hi, _, hw, h₁, h₂⟩)
  | regroup =>
    dsimp only
    split_ifs with hn
    · exact hnone
    rw [ensures_lift_bind hfull]
    cases full with
    | true => exact hnone
    | false => exact ensures_place.mpr ⟨Nat.pos_of_ne_zero hn, fun i hi =>
        ensures_lift.mpr (hdraw (.regroup i) ⟨hfull, hi⟩)⟩

end Proposal

namespace Setting

variable {α : Type} [Scalar α] {s : State α} {m : Model α} {p : Params α} {color : ℕ}

/-- The offer of every possible draw is made, and its trial reads its tables in range. -/
theorem propose_inRange [Time.Resolved p.beta] (h : Setting p m s color) {x : Draw α}
    (hx : x.Possible s color) :
    ∃ o, x.propose s m color = .ok o ∧ (s.Tabulated → o.TrialInRange) := by
  rcases x.exists_edits h.pos h.matched.valid h.run.beta h.lt hx with hnone | ⟨change, l, hedit⟩
  · exact ⟨_, hnone m, fun _ p hp => nomatch hp⟩
  · obtain ⟨o, ho⟩ := hedit.made h
    obtain ⟨trace, ratio, chance, trial, rfl, hexchange⟩ :=
      hedit.offered h.pos h.matched.valid h.run.beta h.lt ho
    refine ⟨_, ho, fun hs p hp => ?_⟩
    cases hp
    cases hexchange with
    | pair _ _ _ htrial => exact hs.tryPair htrial
    | drop _ _ _ htrial => exact hs.tryDrop htrial

end Setting

/-- On a consistent state of valid parameters whose tables are square and for periods that are
numbers, and whatever random numbers in range an attempt of any of the four moves is given, no range
is empty, nothing is read or searched in vain, and there is an offer; its trial reads the inverse in
range. With numbers from a source of words, nothing but the end of the source keeps the draw from
making one. -/
theorem Proposal.attempt_safe {α : Type} [Scalar α] [Scalar.Tolerant α] {p : Params α}
    [Time.Resolved p.beta] {m : Model α} {s : State α} (hp : Model.ofParams p = .ok m)
    (hk : ∀ r, p.retarded = some r → r.kernel.Square ∧ Scalar.Same r.kernel.beta r.kernel.beta)
    (hh : ∀ f, .tabulated f ∈ p.hybridization → f.Square ∧ Scalar.Same f.beta f.beta)
    (hs : s.Consistent p.beta) (hrun : s.OfParams p) (kind : MoveKind) :
    (attempt kind s m).Ensures (fun o => s.Tabulated → o.TrialInRange) ∧
    ∀ r, draw kind s m r = (attempt kind s m).run r ∧
      ((∃ x, draw kind s m r = .ok x) ∨ draw kind s m r = .error .sourceExhausted) := by
  obtain ⟨hsound, -⟩ := Model.of_ofParams hp
  have hcolors : 0 < s.config.colors := hrun.colors ▸ hsound.colors
  have hensures : (attempt kind s m).Ensures fun o => s.Tabulated → o.TrialInRange := by
    have hvalid := ((State.consistent_iff hsound.beta).mp hs).valid
    refine attempt_ensures hsound.beta hvalid hrun.beta hcolors (fun _ p hp => nomatch hp)
      fun color hc x hx => ?_
    exact (Setting.of_ofParams hp hk hh hs hrun (hrun.colors ▸ hc)).propose_inRange hx
  refine ⟨hensures, fun r => ⟨draw_eq_run kind s m r, ?_⟩⟩
  rw [draw_eq_run]
  exact (hensures.run r).imp (fun ⟨o, r', h, _⟩ => ⟨(o, r'), h⟩) id

namespace Proposal

open Asking

theorem touching_tabulated : touching.Tabulated := fun d hd => by
  rw [List.mem_singleton.mp hd]
  exact ⟨rfl, rfl⟩

theorem attempt_safe_touching :
    Model.ofParams LocalRatio.flat = .ok LocalRatio.flatModel ∧ touching.Consistent 1 ∧
    touching.OfParams LocalRatio.flat ∧ touching.Tabulated ∧ ∀ kind,
      (attempt kind touching LocalRatio.flatModel).Ensures
        (fun o => touching.Tabulated → o.TrialInRange) ∧
      ∀ r, draw kind touching LocalRatio.flatModel r =
          (attempt kind touching LocalRatio.flatModel).run r ∧
        ((∃ x, draw kind touching LocalRatio.flatModel r = .ok x) ∨
          draw kind touching LocalRatio.flatModel r = .error .sourceExhausted) := by
  exact ⟨LocalRatio.ofParams_flat, touching_consistent, touching_run, touching_tabulated,
    fun kind => attempt_safe LocalRatio.ofParams_flat LocalRatio.flat_kernels
      LocalRatio.flat_tables touching_consistent touching_run kind⟩

/-- The condition on the periods of the tables is needed: among the draws of an insertion there is
one that makes no offer. -/
theorem attempt_undefined_fails (post : Offer Float → Prop) :
    ¬(attempt .insert (vacant 1 (.tabulated undefinedTable)) undefinedModel).Ensures post := by
  obtain ⟨-, -, -, -, hs, -, hwindow, _, hinsert⟩ := insert_undefined_outside
  have hcolor : 0 < (vacant (1 : Float) (.tabulated undefinedTable)).config.colors :=
    Nat.zero_lt_one
  have hpos : (0 : Float) < 1 := by decide +kernel
  have hvalid := ((State.consistent_iff hpos).mp hs).valid
  have hfull := Configuration.isFull_of_tidy hpos hvalid hcolor Line.nil_tidy
  have hnone : ((vacant (1 : Float) (.tabulated undefinedTable)).config.lineAt 0).length = 0 := rfl
  have hcycle : 0 < ticksPerPeriod := ticksPerPeriod_pos
  intro h
  have h := (ensures_place.mp h).2 0 hcolor
  rw [ensures_lift_bind (Configuration.line_eq hcolor)] at h
  dsimp only at h
  rw [ensures_lift_bind hfull, if_neg Bool.false_ne_true, if_pos hnone, done_bind,
    ensures_lift_bind hwindow, if_neg hcycle.ne'] at h
  have h := (ensures_time.mp h).2 ⟨0, 1⟩ hcycle rfl
  have h := (ensures_time.mp h).2 ⟨5, 1⟩ (by decide) rfl
  obtain ⟨o, ho, -⟩ := ensures_lift.mp h
  cases hinsert.symm.trans ho

end Proposal

end ImpuritySampler
