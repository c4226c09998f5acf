import ImpuritySampler.Configuration
import ImpuritySampler.Move.Kind
import ImpuritySampler.Params.Problem
import ImpuritySampler.Word

/-!
# Why a computation stops

Every operation that can fail names its cause here, with the values needed to describe it. The
lemmas say when the smallest operations succeed.
-/

set_option autoImplicit false

namespace ImpuritySampler

inductive TrialKind where
  | insertion
  | removal
deriving DecidableEq

inductive Violation (α : Type) where
  | fullLineShared (color : Nat)
  | zeroLength (color index : Nat)
  | wrapsEarly (color : Nat)
  | unsorted (color index : Nat)
  | overlapping (color index : Nat) (length : α)
  | trialLeft (color : Nat)
  | sizesDiffer (color determinant segments : Nat)
  | annihilationsDiffer (color : Nat)
  | creationsDiffer (color : Nat)

inductive Mismatch (α : Type) where
  | beta (left right : α)
  | observables
  | densities
  | meshes
  | histograms

inductive Fault (α : Type) where
  -- arithmetic and access
  | overflow
  | outOfRange
  | shapesDiffer
  | tableTooLarge
  | tooManyColors
  | sourceExhausted
  | weightsNotFinite
  -- times and lines
  | periodNotPositive
  | periodsDiffer
  | timeNotFinite (time : α)
  | emptyWindow
  | beyondList (index length : Nat)
  | noColor
  | noHole (color : Nat)
  | lineNotEmpty (color : Nat)
  -- tables and determinants
  | notSquare (rows cols : Nat)
  | meshTooShort (points : Nat)
  | tabulationTooShort
  | tabulationShape
  | measurementMeshTooShort
  | outsideMesh (time : α)
  | insertionOutOfRange (row col size : Nat)
  | removalOutOfRange (row col size : Nat)
  | trialPending (kind : TrialKind)
  | noTrial
  -- models, moves and chains
  | invalidParams (problem : Problem α)
  | noKernel (kernel : KernelName)
  | noProposal (kind : MoveKind)
  | creationMissing (time : Time α) (color : Nat)
  | signProblem (determinant trace : Sign) (after : Configuration α)
  | weightCount
  | negativeWeights
  | negativeWeight
  | invalidWeights
  | determinantCount
  | violated (violation : Violation α) (state : Configuration α)
  | signDrift (running expected : Sign) (state : Configuration α)
  | mismatch (mismatch : Mismatch α)

abbrev Outcome (α β : Type) := Except (Fault α) β

namespace Outcome

variable {α β : Type}

def require (p : Prop) [Decidable p] (f : Fault α) : Outcome α Unit :=
  if p then .ok () else .error f

def nth (l : List β) (i : Nat) : Outcome α β :=
  match l[i]? with
  | some b => .ok b
  | none => .error .outOfRange

def word (n : Nat) : Outcome α Nat :=
  if n < wordLimit then .ok n else .error .overflow

def iterate (f : β → Outcome α β) : Nat → β → Outcome α β
  | 0, b => pure b
  | n + 1, b => do iterate f n (← f b)

theorem require_eq_ok {p : Prop} [Decidable p] {f : Fault α} {u : Unit} :
    require p f = .ok u ↔ p := by
  by_cases h : p
  · simp [require, h]
  · simp [require, h]

theorem bind_eq_ok {γ : Type} {x : Outcome α β} {f : β → Outcome α γ} {c : γ} :
    (x >>= f) = .ok c ↔ ∃ b, x = .ok b ∧ f b = .ok c := by
  cases x with
  | error e => simp [bind, Except.bind]
  | ok b => simp [bind, Except.bind]

theorem nth_eq_ok {l : List β} {i : Nat} {b : β} :
    (nth l i : Outcome α β) = .ok b ↔ l[i]? = some b := by
  rw [nth]
  cases l[i]? with
  | none => simp
  | some c => simp

theorem nth_of_lt {l : List β} {i : Nat} (h : i < l.length) :
    (nth l i : Outcome α β) = .ok l[i] :=
  nth_eq_ok.2 (List.getElem?_eq_getElem h)

theorem word_eq_ok {n m : Nat} : (word n : Outcome α Nat) = .ok m ↔ n < wordLimit ∧ n = m := by
  by_cases h : n < wordLimit
  · simp [word, h]
  · simp [word, h]

end Outcome
end ImpuritySampler
