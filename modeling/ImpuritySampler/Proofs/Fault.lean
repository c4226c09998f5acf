import ImpuritySampler.Proofs.Outcome
import ImpuritySampler.Chain

/-!
# Calls out of turn

Three faults tell of a call that came out of turn: a decision without a proposal, a commit without a
trial, and a trial while another one is pending. A sequence of computations raises none of them if
no part does. Only the opening of a trial, its commit and the acceptance of a proposal name them,
so whatever else a chain computes is free of them by its form.
-/

set_option autoImplicit false

namespace ImpuritySampler

def Fault.OutOfTurn {α : Type} : Fault α → Prop
  | noProposal _ => True
  | noTrial => True
  | trialPending _ => True
  | _ => False

namespace Outcome

variable {α β γ δ : Type}

/-- The computation is not stopped by a call out of turn. -/
def InTurn (x : Outcome α β) : Prop := ∀ e, x = .error e → ¬e.OutOfTurn

@[simp] theorem inTurn_ok (b : β) : InTurn (.ok b : Outcome α β) := fun e h => by cases h

@[simp] theorem inTurn_error (e : Fault α) :
    InTurn (.error e : Outcome α β) ↔ ¬e.OutOfTurn :=
  ⟨fun h => h e rfl, fun h f hf => by cases hf; exact h⟩

@[simp] theorem inTurn_bind {x : Outcome α β} {f : β → Outcome α γ} :
    InTurn (x >>= f) ↔ InTurn x ∧ ∀ b, x = .ok b → InTurn (f b) := by
  cases x with
  | error e => simp
  | ok b => simp

@[simp] theorem inTurn_require {p : Prop} [Decidable p] {e : Fault α} :
    InTurn (require p e) ↔ (e.OutOfTurn → p) := by
  by_cases h : p <;> simp [require, h]

@[simp] theorem inTurn_nth (l : List β) (i : ℕ) : InTurn (nth l i : Outcome α β) := by
  rw [nth]
  split <;> simp [Fault.OutOfTurn]

@[simp] theorem inTurn_word (n : ℕ) : InTurn (word n : Outcome α ℕ) := by
  rw [word]
  split_ifs <;> simp [Fault.OutOfTurn]

@[simp] theorem inTurn_ite {p : Prop} [Decidable p] {x y : Outcome α β} :
    InTurn (if p then x else y) ↔ (p → InTurn x) ∧ (¬p → InTurn y) := by
  split_ifs with h <;> simp [h]

theorem exists_of_isOk {x : Outcome α β} (h : x.isOk = true) : ∃ b, x = .ok b := by
  cases x with
  | error e => cases h
  | ok b => exact ⟨b, rfl⟩

theorem InTurn.mapM {f : β → Outcome α γ} {l : List β} (h : ∀ b ∈ l, InTurn (f b)) :
    InTurn (l.mapM f) := by
  induction l with
  | nil => exact inTurn_ok _
  | cons b l ih =>
    have hb := h b List.mem_cons_self
    have hl := ih fun c hc => h c (List.mem_cons_of_mem b hc)
    rw [List.mapM_cons]
    simp [hb, hl]

theorem InTurn.foldlM {f : γ → β → Outcome α γ} {l : List β}
    (h : ∀ c, ∀ b ∈ l, InTurn (f c b)) (c : γ) : InTurn (l.foldlM f c) := by
  induction l generalizing c with
  | nil => exact inTurn_ok _
  | cons b l ih =>
    rw [List.foldlM_cons, inTurn_bind]
    exact ⟨h c b List.mem_cons_self,
      fun d _ => ih (fun c e he => h c e (List.mem_cons_of_mem b he)) d⟩

theorem InTurn.forM {f : β → Outcome α Unit} (h : ∀ b, InTurn (f b)) (l : List β) :
    InTurn (l.forM f) := by
  induction l with
  | nil => exact inTurn_ok _
  | cons b l ih =>
    rw [List.forM, inTurn_bind]
    exact ⟨h b, fun _ _ => ih⟩

theorem InTurn.anyM {f : β → Outcome α Bool} (h : ∀ b, InTurn (f b)) (l : List β) :
    InTurn (l.anyM f) := by
  induction l with
  | nil => exact inTurn_ok _
  | cons b l ih =>
    rw [List.anyM, inTurn_bind]
    refine ⟨h b, fun c _ => ?_⟩
    cases c <;> simp [ih]

theorem InTurn.filterM {f : β → Outcome α Bool} (h : ∀ b, InTurn (f b)) (l : List β) :
    InTurn (l.filterM f) := by
  have haux : ∀ m, InTurn (l.filterAuxM f m) := by
    induction l with
    | nil => exact fun m => inTurn_ok _
    | cons b l ih =>
      intro m
      rw [List.filterAuxM, inTurn_bind]
      exact ⟨h b, fun c _ => ih _⟩
  rw [List.filterM]
  simp [haux]

theorem InTurn.ofFnM {n : ℕ} {f : Fin n → Outcome α β} (h : ∀ i, InTurn (f i)) :
    InTurn (Vector.ofFnM f) := by
  induction n with
  | zero =>
    rw [Vector.ofFnM_zero]
    exact inTurn_ok _
  | succ n ih =>
    rw [Vector.ofFnM_succ]
    simp [h, ih]

end Outcome

open Outcome

variable {α : Type}

section Lines

variable {c : Configuration α} {color i : ℕ} {s : Segment α}

@[simp] theorem Configuration.inTurn_line : InTurn (c.line color) := inTurn_nth _ _

@[simp] theorem Configuration.inTurn_insert : InTurn (c.insert color s) := by
  simp [Configuration.insert]

@[simp] theorem Configuration.inTurn_remove : InTurn (c.remove color i) := by
  simp [Configuration.remove]

@[simp] theorem Line.inTurn_next (i n : ℕ) : InTurn (Line.next i n : Outcome α ℕ) := by
  simp [Line.next, Fault.OutOfTurn]

@[simp] theorem Line.inTurn_previous (i n : ℕ) : InTurn (Line.previous i n : Outcome α ℕ) := by
  simp [Line.previous, Fault.OutOfTurn]

variable [Scalar α] {a b : Time α} {beta : α} {l : Line α}

@[simp] theorem Time.inTurn_requirePeriod : InTurn (Time.requirePeriod beta) := by
  simp [Time.requirePeriod, Fault.OutOfTurn]

@[simp] theorem Time.inTurn_final : InTurn (Time.final beta) := by simp [Time.final]

@[simp] theorem Time.inTurn_sub : InTurn (a.sub b) := by simp [Time.sub, Fault.OutOfTurn]

@[simp] theorem Segment.inTurn_full : InTurn (Segment.full beta) := by
  simp [Segment.full, Time.origin]

@[simp] theorem Segment.inTurn_isFull : InTurn s.isFull := by simp [Segment.isFull]

@[simp] theorem Segment.inTurn_length : InTurn s.length := Time.inTurn_sub

@[simp] theorem Segment.inTurn_ranges : InTurn s.ranges := by simp [Segment.ranges]

@[simp] theorem Line.inTurn_overlap : InTurn (l.overlap s) := by
  simp [Line.overlap, Line.overlapTicks, InTurn.foldlM]

@[simp] theorem Configuration.inTurn_isFull : InTurn (c.isFull color) := by
  rw [Configuration.isFull]
  simp only [inTurn_bind, inTurn_line, true_and]
  intro l _
  split <;> simp

@[simp] theorem Configuration.inTurn_split : InTurn (c.split color i a b) := by
  simp [Configuration.split]

@[simp] theorem Configuration.inTurn_regroup : InTurn (c.regroup color i) := by
  simp [Configuration.regroup, Configuration.fill, Fault.OutOfTurn]

@[simp] theorem Change.inTurn_apply (change : Change α) : InTurn (change.apply color c) := by
  cases change <;> simp [Change.apply]

end Lines

section Ratios

variable [Scalar α] {c : Configuration α} {m : Model α} {color i : ℕ} {s : Segment α} {a b : Time α}
variable {f : MeshFunction α} {skip : Option ℕ}

@[simp] theorem MeshFunction.inTurn_value {tau : α} {i j : ℕ} : InTurn (f.value tau i j) := by
  have hentry : ∀ k i j, InTurn (f.entry k i j) := by
    intro k i j
    rw [MeshFunction.entry]
    split <;> simp [Fault.OutOfTurn]
  simp [MeshFunction.value, Fault.OutOfTurn, hentry]

@[simp] theorem Line.inTurn_coupling {l : Line α} {charge : Sign} {i j : ℕ} :
    InTurn (l.coupling a charge f i j) := by
  simp [Line.coupling, InTurn.foldlM]

@[simp] theorem LocalRatio.inTurn_density : InTurn (LocalRatio.density c m color s) := by
  have hcoupling : ∀ i j, InTurn (m.coupling i j) := by
    intro i j
    rw [Model.coupling]
    split <;> simp [Fault.OutOfTurn]
  simp [LocalRatio.density, InTurn.foldlM, hcoupling]

@[simp] theorem LocalRatio.inTurn_retarded : InTurn (LocalRatio.retarded c m color a b skip) := by
  rw [LocalRatio.retarded]
  split <;> simp [Line.pairCoupling, InTurn.foldlM]

@[simp] theorem LocalRatio.inTurn_insert : InTurn (LocalRatio.insert c m color s) := by
  simp [LocalRatio.insert, LocalRatio.insertLog]

@[simp] theorem LocalRatio.inTurn_remove : InTurn (LocalRatio.remove c m color i) := by
  simp [LocalRatio.remove, LocalRatio.insertLog]

@[simp] theorem LocalRatio.inTurn_split : InTurn (LocalRatio.split c m color a b) := by
  simp [LocalRatio.split, LocalRatio.splitLog]

@[simp] theorem LocalRatio.inTurn_regroup : InTurn (LocalRatio.regroup c m color i) := by
  simp [LocalRatio.regroup, LocalRatio.splitLog]

@[simp] theorem Hybridization.inTurn_element (h : Hybridization α) (x y : Key α) :
    InTurn (h.element x y) := by
  have hvalue : ∀ tau i j, InTurn (h.value tau i j) := by
    intro tau i j
    cases h with
    | bath beta levels =>
      simp only [Hybridization.value, BathLevel.value, inTurn_bind]
      exact ⟨InTurn.mapM fun _ _ => by simp, by simp⟩
    | tabulated f => exact MeshFunction.inTurn_value
  simp [Hybridization.element, hvalue]

end Ratios

section Draws

variable {r : Random}

@[simp] theorem Random.inTurn_next : InTurn (r.next : Outcome α (UInt64 × Random)) := by
  rw [Random.next]
  split <;> simp [Fault.OutOfTurn]

@[simp] theorem Random.inTurn_belowFrom (bound zone fuel : ℕ) (r : Random) :
    InTurn (Random.belowFrom bound zone fuel r : Outcome α (ℕ × Random)) := by
  induction fuel generalizing r with
  | zero => simp [Random.belowFrom, Fault.OutOfTurn]
  | succ fuel ih => simp [Random.belowFrom, ih]

@[simp] theorem Random.inTurn_place (n : ℕ) : InTurn (r.place n : Outcome α (ℕ × Random)) :=
  Random.inTurn_belowFrom _ _ _ _

@[simp] theorem Random.inTurn_time {window : Time α} : InTurn (r.time window) := by
  simp [Random.time, Random.below, Fault.OutOfTurn]

variable [Scalar α]

@[simp] theorem Random.inTurn_unit : InTurn (r.unit : Outcome α (α × Random)) := by
  simp [Random.unit]

@[simp] theorem WeightTable.inTurn_draw {t : WeightTable α} : InTurn (t.draw r) := by
  simp [WeightTable.draw]

end Draws

section States

variable [Scalar α] {s : State α} {color i : ℕ} {index : Option ℕ} {d : Time α} {w : Window α}

omit [Scalar α] in
@[simp] theorem State.inTurn_determinant : InTurn (s.determinant color) := inTurn_nth _ _

@[simp] theorem Window.inTurn_insertion : InTurn (Window.insertion s color index) := by
  rw [Window.insertion]
  cases index <;> simp

@[simp] theorem Window.inTurn_split : InTurn (Window.split s color i) := by simp [Window.split]

@[simp] theorem Window.inTurn_removalLength : InTurn (Window.removalLength s color i) := by
  simp [Window.removalLength]

@[simp] theorem Window.inTurn_before : InTurn (w.before d) := by simp [Window.before]

@[simp] theorem Line.inTurn_check {rule : Line.Rule α} {l : Line α}
    (h : ∀ (p : Prop) [Decidable p] (v : Violation α), InTurn (rule p v)) :
    InTurn (l.check rule color) := by
  simp only [Line.check, inTurn_bind, inTurn_ite]
  refine ⟨InTurn.anyM (fun _ => Segment.inTurn_isFull) l, fun _ _ => ⟨fun _ => h _ _, fun _ =>
    ⟨InTurn.forM (fun x => ?_) _, fun _ _ => ⟨InTurn.forM (fun x => h _ _) _,
      fun _ _ => InTurn.forM (fun x => ?_) _⟩⟩⟩⟩
  · simp [h]
  · simp [h]

@[simp] theorem State.inTurn_check : InTurn s.check := by
  have hrule : ∀ (p : Prop) [Decidable p] (v : Violation α),
      InTurn (Outcome.require p (.violated v s.config : Fault α)) := by
    simp [Fault.OutOfTurn]
  simp only [State.check, inTurn_bind, inTurn_require]
  refine ⟨fun h => h.elim, fun _ _ => InTurn.forM (fun x => ?_) _⟩
  simp only [inTurn_bind, Configuration.inTurn_line, true_and]
  intro l _
  simp only [State.checkColor, Line.operators, inTurn_bind]
  refine ⟨Line.inTurn_check hrule, fun _ _ => ⟨hrule _ _, fun _ _ =>
    ⟨InTurn.filterM (fun _ => by simp) l, ?_⟩⟩⟩
  simp [hrule]

end States

end ImpuritySampler
