import ImpuritySampler.Proofs.Chain.Sign
import ImpuritySampler.Proofs.Measure.Defined
import ImpuritySampler.Replica

/-!
# Merging replicas

A replica feeds fresh measures with one state and sign for each cycle that it measures, and what it
returns are the results of that sequence. Merging is pooling: the results of two replicas merge to
those of measures that are fed with both sequences.
-/

set_option autoImplicit false

namespace ImpuritySampler

open Outcome

variable {α : Type} [ExactScalar α]

namespace Chain

variable {m : Model α} {p q r : Progress α} {xs ys : List (State α × α)}

/-- Between `p` and `q` the measures have been fed with a sequence, which has been counted. -/
structure Fed (m : Model α) (p q : Progress α) (xs : List (State α × α)) : Prop where
  measures : Measure.measured m p.measures xs = .ok q.measures
  measurements : q.chain.measurements = p.chain.measurements + xs.length
  signSum : q.chain.signSum = p.chain.signSum + Results.signs xs

theorem Fed.append (h : Fed m p q xs) (h' : Fed m q r ys) : Fed m p r (xs ++ ys) where
  measures := by
    rw [Measure.measured, List.foldlM_append, ← Measure.measured, h.measures]
    exact h'.measures
  measurements := by rw [h'.measurements, h.measurements, List.length_append, add_assoc]
  signSum := by
    rw [h'.signSum, h.signSum, Results.signs, Results.signs, Results.signs, List.map_append,
      List.sum_append, add_assoc]

theorem advance_fed (h : advance m p = .ok q) : ∃ xs, xs.length = 0 ∧ Fed m p q xs := by
  obtain ⟨x, hx, h⟩ := bind_eq_ok.mp h
  cases h
  obtain ⟨hmeasurements, hsum⟩ := (step_cases Random.unsigned_exact hx).measured
  exact ⟨[], rfl, rfl, hmeasurements, hsum.trans (add_zero _).symm⟩

theorem measure_fed (h : measure m p = .ok q) :
    Fed m p q [(p.chain.state, p.chain.sign.toScalar)] := by
  obtain ⟨measures, hmeasures, h⟩ := bind_eq_ok.mp h
  cases h
  refine ⟨?_, rfl, ?_⟩
  · rw [Measure.measured, List.foldlM_cons, hmeasures]
    rfl
  · rw [Results.signs, List.map_singleton, List.sum_singleton]

/-- A loop whose passes feed `k` states each. -/
theorem iterate_fed {f : Progress α → Outcome α (Progress α)} {k : ℕ}
    (hf : ∀ p q, f p = .ok q → ∃ xs, xs.length = k ∧ Fed m p q xs) {n : ℕ}
    (h : Outcome.iterate f n p = .ok q) : ∃ xs, xs.length = n * k ∧ Fed m p q xs := by
  induction n generalizing p with
  | zero =>
    cases h
    exact ⟨[], (Nat.zero_mul k).symm, rfl, rfl, (add_zero _).symm⟩
  | succ n ih =>
    obtain ⟨r, hr, h⟩ := bind_eq_ok.mp h
    obtain ⟨xs, hxs, hfed⟩ := hf p r hr
    obtain ⟨ys, hys, hfed'⟩ := ih h
    refine ⟨xs ++ ys, ?_, hfed.append hfed'⟩
    rw [List.length_append, hxs, hys, Nat.succ_mul, Nat.add_comm]

theorem cycle_fed {length : ℕ} (h : cycle m length p = .ok q) :
    ∃ xs, xs.length = 0 ∧ Fed m p q xs := iterate_fed (fun _ _ h => advance_fed h) h

theorem warmup_fed {cycles length : ℕ} (h : warmup m cycles length p = .ok q) :
    ∃ xs, xs.length = 0 ∧ Fed m p q xs := iterate_fed (fun _ _ h => cycle_fed h) h

theorem run_fed {cycles length : ℕ} (h : run m cycles length p = .ok q) :
    ∃ xs, xs.length = cycles ∧ Fed m p q xs := by
  have hpass : ∀ p q, (do measure m (← cycle m length p)) = .ok q →
      ∃ xs, xs.length = 1 ∧ Fed m p q xs := fun p q h => by
    obtain ⟨r, hr, h⟩ := bind_eq_ok.mp h
    obtain ⟨xs, hxs, hfed⟩ := cycle_fed hr
    exact ⟨_, by rw [List.length_append, hxs]; rfl, hfed.append (measure_fed h)⟩
  obtain ⟨xs, hxs, hfed⟩ := iterate_fed hpass h
  exact ⟨xs, hxs.trans (Nat.mul_one cycles), hfed⟩

end Chain

namespace Replica

variable {p : Params α} {s s' : Replica α} {a : Results α}

omit [ExactScalar α] in
theorem of_enabled {on : Bool} {v : Outcome α (Measure α)} {vs : List (Measure α)}
    (h : enabled on v = .ok vs) : ∀ w ∈ vs, v = .ok w := by
  cases on with
  | false =>
    cases h
    exact fun _ hw => absurd hw List.not_mem_nil
  | true =>
    obtain ⟨w, hw, h⟩ := bind_eq_ok.mp h
    cases h
    exact fun u hu => List.mem_singleton.mp hu ▸ hw

theorem measures_fresh {vs : List (Measure α)} (h : measures p = .ok vs) :
    ∀ v ∈ vs, v.Fresh p.colors p.beta := by
  obtain ⟨green, hgreen, h⟩ := bind_eq_ok.mp h
  obtain ⟨densities, hdensities, h⟩ := bind_eq_ok.mp h
  obtain ⟨orders, horders, h⟩ := bind_eq_ok.mp h
  obtain ⟨sign, hsign, h⟩ := bind_eq_ok.mp h
  cases h
  intro v hv
  rw [List.mem_append, List.mem_append, List.mem_append] at hv
  rcases hv with ((hv | hv) | hv) | hv
  · obtain ⟨g, hg, h⟩ := bind_eq_ok.mp (of_enabled hgreen v hv)
    obtain ⟨_, hpoints, hg⟩ := bind_eq_ok.mp hg
    obtain ⟨_, -, hg⟩ := bind_eq_ok.mp hg
    cases hg
    cases h
    exact .green (require_eq_ok.mp hpoints) _
  · obtain ⟨d, hd, h⟩ := bind_eq_ok.mp (of_enabled hdensities v hv)
    obtain ⟨_, -, hd⟩ := bind_eq_ok.mp hd
    cases hd
    cases h
    exact .densities
  · obtain ⟨o, ho, h⟩ := bind_eq_ok.mp (of_enabled horders v hv)
    obtain ⟨_, -, ho⟩ := bind_eq_ok.mp ho
    cases ho
    cases h
    exact .orders
  · cases of_enabled hsign v hv
    exact .sign

/-- What a replica returns is collected from the states after each of its measured cycles. -/
theorem run_pool (hs : ofParams p = .ok s) (hcount : p.controls.cycles < wordLimit)
    (h : s.run = .ok (a, s')) : (∀ v ∈ s.progress.measures, v.Fresh s.model.colors s.model.beta) ∧
    ∃ xs, xs.length = p.controls.cycles ∧
      Results.pool s.model s.progress.measures xs = .ok a := by
  obtain ⟨m, hm, hs⟩ := bind_eq_ok.mp hs
  obtain ⟨state, -, hs⟩ := bind_eq_ok.mp hs
  obtain ⟨chain, hchain, hs⟩ := bind_eq_ok.mp hs
  obtain ⟨vs, hvs, hs⟩ := bind_eq_ok.mp hs
  cases hs
  obtain ⟨q, hq, h⟩ := bind_eq_ok.mp h
  obtain ⟨r, hr, h⟩ := bind_eq_ok.mp h
  cases h
  obtain ⟨hsound, rfl⟩ := Model.of_ofParams hm
  refine ⟨measures_fresh hvs, ?_⟩
  obtain ⟨xs, hxs, hfed⟩ := Chain.warmup_fed hq
  obtain ⟨ys, hys, hfed'⟩ := Chain.run_fed hr
  obtain ⟨table, rfl⟩ := Chain.of_start hchain
  have hall := hfed.append hfed'
  have hlength : (xs ++ ys).length = p.controls.cycles := by
    rw [List.length_append, hxs, hys, Nat.zero_add]
  have hmeasurements : r.chain.measurements = (xs ++ ys).length :=
    hall.measurements.trans (Nat.zero_add _)
  have hsigns : r.chain.signSum = Results.signs (xs ++ ys) := hall.signSum.trans (zero_add _)
  have hword : (word (xs ++ ys).length : Outcome α ℕ) = .ok _ :=
    word_eq_ok.mpr ⟨hlength ▸ hcount, rfl⟩
  refine ⟨xs ++ ys, hlength, ?_⟩
  rw [Results.pool, hall.measures, ok_bind, hword, ← hmeasurements, ← hsigns]
  rfl

end Replica

theorem State.ready_of_consistent {p : Params α} {m : Model α} {s : State α}
    (hp : Model.ofParams p = .ok m) (hs : s.Consistent p.beta) (hrun : s.OfParams p)
    (htables : s.Tabulated) : s.Ready m := by
  obtain ⟨hsound, rfl⟩ := Model.of_ofParams hp
  exact ⟨(consistent_iff hsound.beta).mp hs, hrun.colors, htables⟩

/-- Merging the results of any two sequences of states whose signs have positive sums is the same as
collecting from one set of measures that is fed with both sequences. The results are there for as
many consistent states as can be counted, if their inverses and all slopes have square tables. -/
theorem Results.merging_pools_states {p : Params α} {m : Model α} (hp : Model.ofParams p = .ok m)
    {vs : List (Measure α)} (hfresh : ∀ v ∈ vs, v.Fresh m.colors m.beta) :
    (∀ (xs ys : List (State α × α)) (a b : Results α), 0 < signs xs → 0 < signs ys →
      pool m vs xs = .ok a → pool m vs ys = .ok b → a.merge b = pool m vs (xs ++ ys)) ∧
    ((∀ r, p.retarded = some r → r.slope.Square) →
      (∀ f, p.spinSlope = some f → f.Square) →
      ∀ xs : List (State α × α), xs.length < wordLimit →
        (∀ x ∈ xs, x.1.Consistent p.beta ∧ x.1.OfParams p ∧ x.1.Tabulated) →
        ∃ a, pool m vs xs = .ok a) := by
  have hbeta : 0 ≤ m.beta := by
    obtain ⟨hsound, rfl⟩ := Model.of_ofParams hp
    exact hsound.beta.le
  refine ⟨fun xs ys a b hx hy ha hb => merge_pool hbeta hfresh hx hy ha hb,
    fun hk hf xs hcount hxs => ?_⟩
  have hm := Model.graded_of_ofParams hp hk hf
  have hready : ∀ x ∈ xs, x.1.Ready m := fun x hx =>
    State.ready_of_consistent hp (hxs x hx).1 (hxs x hx).2.1 (hxs x hx).2.2
  exact exists_bind (Measure.measured_defined hm hready fun v hv => (hfresh v hv).sized) fun _ _ =>
    ⟨_, by rw [word_eq_ok.mpr ⟨hcount, rfl⟩]; rfl⟩

namespace Results

open LocalRatio

noncomputable def unused : List (Measure ℝ) :=
  [.green (.empty 1 1 2 true), .densities (.empty 1), .orders (.empty 1), .sign .empty]

theorem unused_fresh : ∀ v ∈ unused, v.Fresh flatModel.colors flatModel.beta := by
  intro v hv
  simp only [unused, List.mem_cons, List.not_mem_nil, or_false] at hv
  rcases hv with rfl | rfl | rfl | rfl
  · exact .green (le_refl 2) true
  · exact .densities
  · exact .orders
  · exact .sign

noncomputable def repeated (signs : List ℝ) : List (State ℝ × ℝ) :=
  signs.map fun x => (Proposal.touching, x)

theorem repeated_states (signs : List ℝ) : ∀ x ∈ repeated signs,
    x.1.Consistent flat.beta ∧ x.1.OfParams flat ∧ x.1.Tabulated := by
  intro x hx
  obtain ⟨_, -, rfl⟩ := List.mem_map.mp hx
  exact ⟨Proposal.touching_consistent, Proposal.touching_run, Proposal.touching_tabulated⟩

theorem merging_pools_states_touching :
    Model.ofParams flat = .ok flatModel ∧ ∃ a b c, pool flatModel unused (repeated [1]) = .ok a ∧
      pool flatModel unused (repeated [1, -1, 1]) = .ok b ∧
      pool flatModel unused (repeated [1] ++ repeated [1, -1, 1]) = .ok c ∧ a.merge b = .ok c := by
  obtain ⟨hmerge, hdefined⟩ := merging_pools_states ofParams_flat unused_fresh
  have hdefined := hdefined flat_slopes flat_spinless
  obtain ⟨a, ha⟩ := hdefined (repeated [1]) (by decide) (repeated_states _)
  obtain ⟨b, hb⟩ := hdefined (repeated [1, -1, 1]) (by decide) (repeated_states _)
  obtain ⟨c, hc⟩ := hdefined (repeated [1] ++ repeated [1, -1, 1]) (by decide) fun x hx =>
    (List.mem_append.mp hx).elim (repeated_states _ x) (repeated_states _ x)
  have hab := hmerge (repeated [1]) (repeated [1, -1, 1]) a b
    (by norm_num [signs, repeated]) (by norm_num [signs, repeated]) ha hb
  exact ⟨ofParams_flat, a, b, c, ha, hb, hc, hab.trans hc⟩

end Results

end ImpuritySampler
