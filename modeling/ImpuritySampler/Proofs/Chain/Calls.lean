import ImpuritySampler.Proofs.Outcome
import ImpuritySampler.Chain

/-!
# Calls of a chain

A chain is called step by step, for a warm-up or for a run, in any order and each time with a model
of its own. Every call is a sequence of single steps and measurements, so that what holds after
each of these events holds wherever a sequence of calls passes through.
-/

set_option autoImplicit false

namespace ImpuritySampler.Chain

open Outcome

inductive Command (α : Type) where
  | step (m : Model α)
  | warmup (m : Model α) (cycles length : ℕ)
  | run (m : Model α) (cycles length : ℕ)

inductive Event (α : Type) where
  | step (m : Model α)
  | measure (m : Model α)

variable {α : Type} [Scalar α]

def Command.perform : Command α → Progress α → Outcome α (Progress α)
  | step m, p => advance m p
  | warmup m cycles length, p => Chain.warmup m cycles length p
  | run m cycles length, p => Chain.run m cycles length p

def Event.perform : Event α → Progress α → Outcome α (Progress α)
  | step m, p => advance m p
  | measure m, p => Chain.measure m p

def performAll (commands : List (Command α)) (p : Progress α) : Outcome α (Progress α) :=
  commands.foldlM (fun p command => command.perform p) p

def follow (events : List (Event α)) (p : Progress α) : Outcome α (Progress α) :=
  events.foldlM (fun p event => event.perform p) p

def Command.events : Command α → List (Event α)
  | step m => [.step m]
  | warmup m cycles length => (List.replicate cycles (List.replicate length (.step m))).flatten
  | run m cycles length =>
    (List.replicate cycles (List.replicate length (.step m) ++ [.measure m])).flatten

def Event.isMeasure : Event α → Bool
  | step _ => false
  | measure _ => true

def Command.measured : Command α → ℕ
  | step _ => 0
  | warmup _ _ _ => 0
  | run _ cycles _ => cycles

theorem follow_append (es fs : List (Event α)) (p : Progress α) :
    follow (es ++ fs) p = (do follow fs (← follow es p)) := List.foldlM_append ..

theorem follow_singleton (e : Event α) (p : Progress α) : follow [e] p = e.perform p := by
  rw [follow, List.foldlM_cons]
  exact bind_pure _

theorem follow_replicate {f : Progress α → Outcome α (Progress α)} {es : List (Event α)}
    (hf : ∀ p, f p = follow es p) (n : ℕ) (p : Progress α) :
    Outcome.iterate f n p = follow (List.replicate n es).flatten p := by
  induction n generalizing p with
  | zero => rfl
  | succ n ih =>
    rw [Outcome.iterate, List.replicate_succ, List.flatten_cons, follow_append, hf]
    exact congrArg _ (funext ih)

theorem cycle_eq_follow (m : Model α) (length : ℕ) (p : Progress α) :
    cycle m length p = follow (List.replicate length (.step m)) p := by
  have h := follow_replicate (fun p => (follow_singleton (.step m) p).symm) length p
  rwa [List.flatten_replicate_singleton] at h

theorem Command.perform_eq_follow (command : Command α) (p : Progress α) :
    command.perform p = follow command.events p := by
  cases command with
  | step m => exact (follow_singleton (.step m) p).symm
  | warmup m cycles length => exact follow_replicate (cycle_eq_follow m length) cycles p
  | run m cycles length =>
    refine follow_replicate (fun p => ?_) cycles p
    rw [follow_append, ← cycle_eq_follow]
    exact congrArg _ (funext fun q => (follow_singleton (.measure m) q).symm)

theorem performAll_eq_follow (commands : List (Command α)) (p : Progress α) :
    performAll commands p = follow (commands.flatMap Command.events) p := by
  induction commands generalizing p with
  | nil => rfl
  | cons command commands ih =>
    rw [performAll, List.foldlM_cons, List.flatMap_cons, follow_append, command.perform_eq_follow]
    exact congrArg _ (funext ih)

theorem exists_of_prefix {es fs : List (Event α)} {p q : Progress α} (h : es <+: fs)
    (hq : follow fs p = .ok q) : ∃ r, follow es p = .ok r := by
  obtain ⟨gs, rfl⟩ := h
  rw [follow_append] at hq
  obtain ⟨r, hr, -⟩ := bind_eq_ok.mp hq
  exact ⟨r, hr⟩

omit [Scalar α] in
theorem Command.countP_events (command : Command α) :
    command.events.countP Event.isMeasure = command.measured := by
  have hsteps : ∀ (m : Model α) length,
      (List.replicate length (Event.step m)).countP Event.isMeasure = 0 := fun m length => by
    simp [List.countP_replicate, Event.isMeasure]
  cases command with
  | step m => rfl
  | warmup m cycles length =>
    simp [events, measured, hsteps]
  | run m cycles length =>
    simp [events, measured, List.countP_flatten, hsteps, Event.isMeasure]

omit [Scalar α] in
theorem countP_events (commands : List (Command α)) :
    (commands.flatMap Command.events).countP Event.isMeasure =
      (commands.map Command.measured).sum := by
  rw [List.countP_flatMap]
  exact congrArg List.sum (List.map_congr_left fun command _ => command.countP_events)

end ImpuritySampler.Chain
