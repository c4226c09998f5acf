import ImpuritySampler.Proofs.Measure.Collect

/-!
# Pooling runs

Fresh measures are fed with a sequence of states and signs, and collected. Merging the results of
two sequences gives those of the sequences one after the other.
-/

set_option autoImplicit false

namespace ImpuritySampler

theorem zipWith_replicate_left {β γ : Type} {f : β → γ → γ} {b : β} (h : ∀ c, f b c = c) {n : ℕ}
    {l : List γ} (hlength : l.length = n) : List.zipWith f (List.replicate n b) l = l := by
  refine List.ext_getElem (by simp [hlength]) fun k _ _ => ?_
  rw [List.getElem_zipWith, List.getElem_replicate, h]

variable {α : Type} [ExactScalar α]

theorem Grid.entry_zeros (rows cols i j : ℕ) : (replicate rows cols (0 : α)).entry i j = 0 := by
  simp only [entry, get?, replicate, Array.getElem?_replicate]
  split_ifs <;> rfl

theorem Grid.zeros_add {g : Grid α} {rows cols : ℕ}
    (h : g.shape = (replicate rows cols (0 : α)).shape) : (replicate rows cols 0).add g = g := by
  refine eq_of_shape h.symm fun i j => ?_
  rw [entry_add h.symm, entry_zeros, zero_add]

theorem Green.empty_add {g : Green α} {colors points : ℕ} {beta : α} {improved : Bool}
    (hg : g.Alike (.empty colors beta points improved)) :
    (Green.empty colors beta points improved).add g = g := by
  obtain ⟨beta', spacing, bins, f, z⟩ := g
  obtain ⟨hbeta, hspacing, hbins, himproved⟩ := hg
  dsimp only at hbeta hspacing hbins himproved
  have hf : Option.map₂ Grid.add (Green.empty colors beta points improved).improved f = f := by
    cases f with
    | none => exact Option.map₂_none_right _ _
    | some f =>
      obtain ⟨e, he, hshape⟩ := Option.map_eq_some_iff.mp himproved.symm
      have hzeros : e = Grid.replicate colors points 0 := by
        cases improved with
        | false => cases he
        | true => exact (Option.some.inj he).symm
      subst hzeros
      rw [he, Option.map₂_some_some, Grid.zeros_add hshape.symm]
  rw [Green.add, hf, hbeta, hspacing]
  show Green.mk _ _ ((Grid.replicate colors points 0).add bins) f (0 + z) = _
  rw [Grid.zeros_add hbins, zero_add]

namespace Measure

inductive Fresh (colors : ℕ) (beta : α) : Measure α → Prop
  | green {points : ℕ} (h : 2 ≤ points) (improved : Bool) :
    Fresh colors beta (.green (.empty colors beta points improved))
  | densities : Fresh colors beta (.densities (.empty colors))
  | orders : Fresh colors beta (.orders (.empty colors))
  | sign : Fresh colors beta (.sign .empty)

variable {m : Model α} {colors n : ℕ} {beta x z : α} {s : State α} {v w : Measure α}
variable {vs ws : List (Measure α)} {xs ys : List (State α × α)}

theorem Fresh.tallied (h : v.Fresh colors beta) : v.Tallied 0 0 := by
  cases h <;> rfl

theorem Fresh.add (h : v.Fresh colors beta) (hw : w.Alike v) : v.add w = w := by
  cases h with
  | green hpoints improved =>
    cases hw with
    | @green g _ hg =>
    exact congrArg Measure.green (Green.empty_add hg)
  | densities =>
    cases hw with
    | @densities d _ h =>
    have hlength : d.sums.length = colors := h.trans List.length_replicate
    show Measure.densities ⟨_, 0 + d.signSum⟩ = _
    rw [zero_add, Densities.empty, zipWith_replicate_left zero_add hlength]
  | orders =>
    cases hw with
    | @orders o _ h =>
    have hlength : o.colors.length = colors := h.trans List.length_replicate
    show Measure.orders ⟨_, _, 0 + o.measurements⟩ = _
    rw [zero_add, Orders.empty, zipWith_replicate_left Orders.addHistograms_nil hlength,
      Orders.addHistograms_nil]
  | sign =>
    cases hw with
    | sign a _ =>
    show Measure.sign ⟨0 + a.sum, 0 + a.measurements⟩ = _
    rw [zero_add, zero_add]

theorem Fresh.addAll (h : ∀ v ∈ vs, v.Fresh colors beta) (hw : List.Forall₂ Alike ws vs) :
    addAll vs ws = ws := by
  induction hw with
  | nil => rfl
  | cons hw _ ih =>
    rw [List.forall_mem_cons] at h
    rw [Measure.addAll, List.zipWith_cons_cons, h.1.add hw]
    exact congrArg _ (ih h.2)

theorem accumulate_tallied (hv : v.Tallied n z) (h : v.accumulate s m x = .ok w) :
    w.Tallied (n + 1) (z + x) := by
  cases v with
  | green g =>
    obtain ⟨g', hg, h⟩ := Outcome.bind_eq_ok.mp h
    cases h
    exact (Green.accumulate_same hg).2.trans (congrArg (· + x) hv)
  | densities d =>
    obtain ⟨d', hd, h⟩ := Outcome.bind_eq_ok.mp h
    cases h
    exact (Densities.accumulate_same hd).2.trans (congrArg (· + x) hv)
  | orders o =>
    cases h
    exact congrArg (· + 1) hv
  | sign a =>
    cases h
    exact congrArg (· + 1) hv

theorem accumulateAll_cons (v : Measure α) (vs : List (Measure α)) (s : State α) (m : Model α)
    (x : α) : accumulateAll (v :: vs) s m x = (do
      let w ← v.accumulate s m x
      let ws ← accumulateAll vs s m x
      pure (w :: ws)) := List.mapM_cons

theorem accumulateAll_alike (h : accumulateAll vs s m x = .ok ws) : List.Forall₂ Alike ws vs :=
  ((Outcome.of_mapM_eq_ok h).imp fun _ _ h => accumulate_alike h).flip

theorem accumulateAll_tallied (hv : ∀ v ∈ vs, v.Tallied n z) (h : accumulateAll vs s m x = .ok ws) :
    ∀ w ∈ ws, w.Tallied (n + 1) (z + x) :=
  Outcome.of_mapM (fun _ _ hv h => accumulate_tallied hv h) hv h

theorem accumulateAll_add (h : List.Forall₂ Alike vs ws) (s : State α) (m : Model α) (x : α) :
    accumulateAll (addAll vs ws) s m x = (addAll · ws) <$> accumulateAll vs s m x := by
  induction h with
  | nil => rfl
  | @cons v w vs ws h _ ih =>
    have hcons : addAll (v :: vs) (w :: ws) = v.add w :: addAll vs ws := rfl
    rw [hcons, accumulateAll_cons, accumulateAll_cons, accumulate_add h, ih]
    simp only [map_bind, bind_map_left, map_pure]
    rfl

/-- What measures have collected from a sequence of states with their signs. -/
def measured (m : Model α) (vs : List (Measure α)) (xs : List (State α × α)) :
    Outcome α (List (Measure α)) :=
  xs.foldlM (fun vs x => accumulateAll vs x.1 m x.2) vs

theorem measured_alike (h : measured m vs xs = .ok ws) : List.Forall₂ Alike ws vs :=
  Outcome.of_foldlM (I := fun us => List.Forall₂ Alike us vs)
    (fun _ _ _ hc hd => Alike.trans_all (accumulateAll_alike hd) hc)
    (List.forall₂_same.mpr fun v _ => .refl v) h

theorem measured_add (h : List.Forall₂ Alike vs ws) (m : Model α) (xs : List (State α × α)) :
    measured m (addAll vs ws) xs = (addAll · ws) <$> measured m vs xs :=
  Outcome.foldlM_map (T := fun us => addAll us ws) (I := fun us => List.Forall₂ Alike us ws)
    (fun _ _ _ hc hd => Alike.trans_all (accumulateAll_alike hd) hc)
    (fun _ x hc => accumulateAll_add hc x.1 m x.2) h

theorem measured_tallied (hv : ∀ v ∈ vs, v.Tallied n z) (h : measured m vs xs = .ok ws) :
    ∀ w ∈ ws, w.Tallied (n + xs.length) (z + (xs.map (·.2)).sum) := by
  induction xs generalizing vs n z with
  | nil =>
    cases h
    rwa [List.length_nil, List.map_nil, List.sum_nil, add_zero, add_zero]
  | cons x xs ih =>
    rw [measured, List.foldlM_cons] at h
    obtain ⟨us, hus, h⟩ := Outcome.bind_eq_ok.mp h
    have htallied := ih (accumulateAll_tallied hv hus) h
    rwa [add_assoc, add_assoc, add_comm 1] at htallied

theorem beta_collectAll (vs : List (Measure α)) (r : Results α) :
    (collectAll vs r).beta = r.beta := by
  induction vs generalizing r with
  | nil => rfl
  | cons v vs ih => exact (ih (v.collect r)).trans (by cases v <;> rfl)

theorem measurements_collectAll (vs : List (Measure α)) (r : Results α) :
    (collectAll vs r).measurements = r.measurements := by
  induction vs generalizing r with
  | nil => rfl
  | cons v vs ih => exact (ih (v.collect r)).trans (measurements_collect v r)

end Measure

namespace Results

variable {m : Model α} {colors n : ℕ} {beta : α} {vs : List (Measure α)}
variable {xs ys : List (State α × α)} {a b : Results α}

def signs (xs : List (State α × α)) : α := (xs.map (·.2)).sum

def counted (m : Model α) (n : ℕ) (z : α) : Results α :=
  { empty m.beta with measurements := n, signSum := z }

/-- The results of measures that are fed with a sequence of states and signs. -/
def pool (m : Model α) (vs : List (Measure α)) (xs : List (State α × α)) :
    Outcome α (Results α) := do
  let ws ← Measure.measured m vs xs
  let n ← Outcome.word xs.length
  pure (Measure.collectAll ws (counted m n (signs xs)))

theorem pool_eq_ok {r : Results α} (h : pool m vs xs = .ok r) :
    ∃ ws, Measure.measured m vs xs = .ok ws ∧
      r = Measure.collectAll ws (counted m xs.length (signs xs)) := by
  obtain ⟨ws, hws, h⟩ := Outcome.bind_eq_ok.mp h
  obtain ⟨n, hn, h⟩ := Outcome.bind_eq_ok.mp h
  obtain ⟨-, rfl⟩ := Outcome.word_eq_ok.mp hn
  cases h
  exact ⟨ws, hws, rfl⟩

theorem weight_counted (m : Model α) {n : ℕ} {z : α} (hn : n ≠ 0) (hz : z ≠ 0) (e : Entry) :
    (counted m n z).weight e ≠ 0 := by
  cases e with
  | density | green | improved => exact hz
  | averageSign | totalOrder | order => exact Nat.cast_ne_zero.mpr hn

theorem counted_joined (m : Model α) {n k : ℕ} {y z : α} (hn : n ≠ 0) (hk : k ≠ 0) (hy : y ≠ 0)
    (hz : z ≠ 0) : (counted m (n + k) (y + z)).Joined (counted m n y) (counted m k z) where
  joins := by
    refine ⟨rfl, rfl, rfl, fun h => ?_, fun e => ?_⟩
    · cases h <;> rfl
    · cases e <;> exact (mean_zero _ _).symm
  form := rfl
  left := weight_counted m hn hy
  right := weight_counted m hk hz

theorem length_ne_zero {xs : List (State α × α)} (h : 0 < signs xs) : xs.length ≠ 0 := by
  rintro hlength
  rw [List.length_eq_zero_iff.mp hlength] at h
  exact lt_irrefl 0 h

theorem measured_append {as bs : List (Measure α)} (hfresh : ∀ v ∈ vs, v.Fresh colors beta)
    (has : Measure.measured m vs xs = .ok as) (hbs : Measure.measured m vs ys = .ok bs) :
    Measure.measured m vs (xs ++ ys) = .ok (Measure.addAll bs as) := by
  have halike := Measure.measured_alike has
  -- what the first sequence has left is what it has left on top of fresh measures
  have hneutral : Measure.addAll vs as = as := Measure.Fresh.addAll hfresh halike
  have hadd := Measure.measured_add (halike.flip.imp fun _ _ h => h.symm) m ys
  rw [hneutral, hbs] at hadd
  rw [Measure.measured, List.foldlM_append, ← Measure.measured, has]
  exact hadd

/-- Merging the results of two sequences pools their states; it fails only where there are too many
measurements, and with the same fault. -/
theorem merge_pool (hbeta : 0 ≤ m.beta) (hfresh : ∀ v ∈ vs, v.Fresh colors beta)
    (hx : 0 < signs xs) (hy : 0 < signs ys) (ha : pool m vs xs = .ok a)
    (hb : pool m vs ys = .ok b) : a.merge b = pool m vs (xs ++ ys) := by
  obtain ⟨as, has, rfl⟩ := pool_eq_ok ha
  obtain ⟨bs, hbs, rfl⟩ := pool_eq_ok hb
  have htallied : ∀ v ∈ vs, v.Tallied 0 (0 : α) := fun v hv => (hfresh v hv).tallied
  have hta := Measure.measured_tallied htallied has
  have htb := Measure.measured_tallied htallied hbs
  rw [zero_add, zero_add] at hta htb
  have halike : List.Forall₂ Measure.Alike bs as := Measure.Alike.trans_all
    (Measure.measured_alike hbs) ((Measure.measured_alike has).flip.imp fun _ _ h => h.symm)
  -- the sum has the second sequence first
  have hjoined := (Measure.collectAll_add halike htb hta (counted_joined m (length_ne_zero hy)
    (length_ne_zero hx) hy.ne' hx.ne')).symm
  have hsigns : signs (xs ++ ys) = signs ys + signs xs := by
    rw [signs, List.map_append, List.sum_append, add_comm]
    rfl
  obtain ⟨c, hc, hmerge⟩ := merge_eq hjoined.form (by rwa [Measure.beta_collectAll])
  rw [hmerge, hc.unique hjoined.joins, pool, measured_append hfresh has hbs, Outcome.ok_bind,
    Measure.measurements_collectAll, Measure.measurements_collectAll, hsigns, List.length_append,
    add_comm ys.length]
  show (Outcome.word (xs.length + ys.length) >>= fun _ => _) = _
  rw [Outcome.word]
  split_ifs <;> rfl

end Results

end ImpuritySampler
