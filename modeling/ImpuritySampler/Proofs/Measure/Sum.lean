import ImpuritySampler.Proofs.Measure.Green

/-!
# Sums of measures

Two measures of one kind and size can be added: what they have collected is added, and histograms
are continued by zeros. Collecting commutes with addition, so what a list of measures has collected
can be added to what a fresh list collects.
-/

set_option autoImplicit false

namespace ImpuritySampler

theorem nth_zipWith {α β : Type} {f : β → β → β} {l m : List β} (h : l.length = m.length) (k : ℕ)
    (b : β) : (Outcome.nth (List.zipWith f l m) k : Outcome α β) =
      (fun a => f a (m.getD k b)) <$> Outcome.nth l k := by
  rcases lt_or_ge k l.length with hk | hk
  · simp [Outcome.nth, hk, h ▸ hk]
  · simp [Outcome.nth, hk]

namespace Densities

variable {α : Type} [ExactScalar α]

def add (d e : Densities α) : Densities α :=
  ⟨List.zipWith (· + ·) d.sums e.sums, d.signSum + e.signSum⟩

theorem zipWith_add_set (l m : List α) (k : ℕ) (x : α) :
    List.zipWith (· + ·) (l.set k x) m =
      (List.zipWith (· + ·) l m).set k (x + m.getD k 0) := by
  refine List.ext_getElem (by simp) fun i hi _ => ?_
  have hm : i < m.length := by
    rw [List.length_zipWith] at hi
    exact lt_of_lt_of_le hi (min_le_right _ _)
  rw [List.getElem_zipWith, List.getElem_set, List.getElem_set, List.getElem_zipWith]
  split_ifs with hki
  · subst hki
    rw [List.getD_eq_getElem _ _ hm]
  · rfl

def addLine (m : Model α) (sign : α) (sums : List α) (x : Line α × ℕ) : Outcome α (List α) := do
  let y := sign * (← x.1.occupied) / m.beta
  let old ← Outcome.nth sums x.2
  pure (sums.set x.2 (old + y))

theorem accumulate_eq (d : Densities α) (s : State α) (m : Model α) (sign : α) :
    d.accumulate s m sign = (do
      pure ⟨← s.config.lines.zipIdx.foldlM (addLine m sign) d.sums, d.signSum + sign⟩) := rfl

theorem length_addLine {m : Model α} {sign : α} {sums sums' : List α} {x : Line α × ℕ}
    (h : addLine m sign sums x = .ok sums') : sums'.length = sums.length := by
  obtain ⟨_, -, h⟩ := Outcome.bind_eq_ok.mp h
  obtain ⟨_, -, h⟩ := Outcome.bind_eq_ok.mp h
  cases h
  exact List.length_set

theorem addLine_add {m : Model α} {sums l : List α} (hlength : sums.length = l.length) (sign : α)
    (x : Line α × ℕ) : addLine m sign (List.zipWith (· + ·) sums l) x =
      (List.zipWith (· + ·) · l) <$> addLine m sign sums x := by
  simp only [addLine, map_bind, nth_zipWith hlength x.2 0, bind_map_left]
  refine bind_congr fun occupied => bind_congr fun old => ?_
  simp only [map_pure, zipWith_add_set, add_right_comm]

theorem accumulate_same {d d' : Densities α} {s : State α} {m : Model α} {sign : α}
    (h : d.accumulate s m sign = .ok d') :
    d'.sums.length = d.sums.length ∧ d'.signSum = d.signSum + sign := by
  obtain ⟨sums, hsums, h⟩ := Outcome.bind_eq_ok.mp h
  cases h
  exact ⟨Outcome.of_foldlM (I := fun l : List α => l.length = d.sums.length)
    (fun _ _ _ hc hd => (length_addLine hd).trans hc) rfl hsums, rfl⟩

theorem accumulate_add {d e : Densities α} (h : d.sums.length = e.sums.length) (s : State α)
    (m : Model α) (sign : α) :
    (d.add e).accumulate s m sign = (·.add e) <$> d.accumulate s m sign := by
  rw [accumulate_eq, accumulate_eq, map_bind]
  have hsums := Outcome.foldlM_map (l := s.config.lines.zipIdx) (f := addLine m sign)
    (T := fun l : List α => List.zipWith (· + ·) l e.sums) (I := fun l => l.length = e.sums.length)
    (fun _ _ _ hc hd => (length_addLine hd).trans hc) (fun _ x hc => addLine_add hc sign x) h
  rw [add, hsums, bind_map_left]
  refine bind_congr fun sums => ?_
  rw [map_pure, add, add_right_comm]

end Densities

namespace Orders

def addHistograms (a b : List ℕ) : List ℕ :=
  (List.range (max a.length b.length)).map fun k => a.getD k 0 + b.getD k 0

theorem length_addHistograms (a b : List ℕ) :
    (addHistograms a b).length = max a.length b.length := by
  rw [addHistograms, List.length_map, List.length_range]

theorem getD_addHistograms (a b : List ℕ) (k : ℕ) :
    (addHistograms a b).getD k 0 = a.getD k 0 + b.getD k 0 :=
  getD_map_range (fun k hk => by
    rw [List.getD_eq_default _ _ (le_of_max_le_left hk),
      List.getD_eq_default _ _ (le_of_max_le_right hk)]) k

theorem addHistograms_nil (b : List ℕ) : addHistograms [] b = b := by
  refine ext_getD 0 ?_ fun k _ => ?_
  · rw [length_addHistograms, List.length_nil, Nat.zero_max]
  · rw [getD_addHistograms, List.getD_nil, Nat.zero_add]

theorem length_record (h : List ℕ) (n : ℕ) : (record h n).length = max h.length (n + 1) := by
  rw [record, List.length_modify, List.length_append, List.length_replicate]
  omega

theorem getD_record (h : List ℕ) (n k : ℕ) :
    (record h n).getD k 0 = h.getD k 0 + if n = k then 1 else 0 := by
  rw [record, List.getD_eq_getElem?_getD, List.getElem?_modify, List.getD_eq_getElem?_getD]
  rcases lt_or_ge k h.length with hk | hk
  · rw [List.getElem?_append_left hk, List.getElem?_eq_getElem hk]
    split_ifs <;> rfl
  · rw [List.getElem?_append_right hk, List.getElem?_eq_none hk, List.getElem?_replicate]
    by_cases hn : n = k
    · simp only [if_pos hn]
      rw [if_pos (by omega)]
      rfl
    · simp only [if_neg hn]
      split_ifs <;> rfl

theorem record_add (a b : List ℕ) (n : ℕ) :
    record (addHistograms a b) n = addHistograms (record a n) b := by
  refine ext_getD 0 ?_ fun k _ => ?_
  · rw [length_record, length_addHistograms, length_addHistograms, length_record, max_right_comm]
  · rw [getD_record, getD_addHistograms, getD_addHistograms, getD_record, add_right_comm]

def recordAll (colors : List (List ℕ)) (sizes : List ℕ) : List (List ℕ) :=
  List.zipWith record colors sizes ++ colors.drop sizes.length

theorem length_recordAll (colors : List (List ℕ)) {sizes : List ℕ}
    (h : sizes.length ≤ colors.length) : (recordAll colors sizes).length = colors.length := by
  rw [recordAll, List.length_append, List.length_zipWith, List.length_drop]
  omega

theorem recordAll_add {a b : List (List ℕ)} (h : a.length = b.length) (sizes : List ℕ) :
    recordAll (List.zipWith addHistograms a b) sizes =
      List.zipWith addHistograms (recordAll a sizes) b := by
  induction a generalizing b sizes with
  | nil => simp [recordAll]
  | cons x a ih =>
    cases b with
    | nil => cases h
    | cons y b =>
      cases sizes with
      | nil => rfl
      | cons n sizes =>
        have hcons := ih (Nat.succ.inj h) sizes
        simp only [recordAll, List.zipWith_cons_cons, List.length_cons, List.drop_succ_cons,
          List.cons_append, record_add] at hcons ⊢
        rw [hcons]

def add (o p : Orders) : Orders where
  total := addHistograms o.total p.total
  colors := List.zipWith addHistograms o.colors p.colors
  measurements := o.measurements + p.measurements

variable {α : Type}

def sizes (o : Orders) (s : State α) : List ℕ :=
  (s.determinants.map Determinant.size).take o.colors.length

theorem accumulate_eq (o : Orders) (s : State α) : o.accumulate s =
    ⟨record o.total ((o.sizes s).foldl (· + ·) 0), recordAll o.colors (o.sizes s),
      o.measurements + 1⟩ := rfl

theorem length_accumulate (o : Orders) (s : State α) :
    (o.accumulate s).colors.length = o.colors.length :=
  length_recordAll o.colors (List.length_take_le _ _)

theorem accumulate_add {o p : Orders} (h : o.colors.length = p.colors.length) (s : State α) :
    (o.add p).accumulate s = (o.accumulate s).add p := by
  have hsizes : (o.add p).sizes s = o.sizes s := by
    rw [sizes, add, List.length_zipWith, ← h, min_self, sizes]
  rw [accumulate_eq, accumulate_eq, hsizes, add, record_add, recordAll_add h, add, add_right_comm]

end Orders

namespace AverageSign

variable {α : Type} [ExactScalar α]

def add (a b : AverageSign α) : AverageSign α := ⟨a.sum + b.sum, a.measurements + b.measurements⟩

theorem accumulate_add (a b : AverageSign α) (sign : α) :
    (a.add b).accumulate sign = (a.accumulate sign).add b := by
  rw [add, accumulate, accumulate, add, add_right_comm, add_right_comm a.measurements]

end AverageSign

namespace Measure

variable {α : Type}

inductive Alike : Measure α → Measure α → Prop
  | green {g h : Green α} (hg : g.Alike h) : Alike (.green g) (.green h)
  | densities {d e : Densities α} (h : d.sums.length = e.sums.length) :
    Alike (.densities d) (.densities e)
  | orders {o p : Orders} (h : o.colors.length = p.colors.length) : Alike (.orders o) (.orders p)
  | sign (a b : AverageSign α) : Alike (.sign a) (.sign b)

variable {u v w : Measure α}

theorem Alike.refl (v : Measure α) : v.Alike v := by
  cases v with
  | green g => exact .green (.refl g)
  | densities d => exact .densities rfl
  | orders o => exact .orders rfl
  | sign a => exact .sign a a

theorem Alike.symm (h : v.Alike w) : w.Alike v := by
  cases h with
  | green hg => exact .green hg.symm
  | densities h => exact .densities h.symm
  | orders h => exact .orders h.symm
  | sign a b => exact .sign b a

theorem Alike.trans (hu : u.Alike v) (hv : v.Alike w) : u.Alike w := by
  cases hu with
  | green hg => cases hv with | green hg' => exact .green (hg.trans hg')
  | densities h => cases hv with | densities h' => exact .densities (h.trans h')
  | orders h => cases hv with | orders h' => exact .orders (h.trans h')
  | sign a b => cases hv with | sign _ c => exact .sign a c

theorem Alike.trans_all {us vs ws : List (Measure α)} (h : List.Forall₂ Alike us vs)
    (h' : List.Forall₂ Alike vs ws) : List.Forall₂ Alike us ws := by
  induction h generalizing ws with
  | nil => exact h'
  | cons h _ ih =>
    cases h' with
    | cons h' hs' => exact .cons (h.trans h') (ih hs')

variable [ExactScalar α]

/-- Measures of different kinds are not added. -/
def add : Measure α → Measure α → Measure α
  | .green g, .green h => .green (g.add h)
  | .densities d, .densities e => .densities (d.add e)
  | .orders o, .orders p => .orders (o.add p)
  | .sign a, .sign b => .sign (a.add b)
  | v, _ => v

variable {s : State α} {m : Model α} {x : α}

theorem accumulate_alike (h : v.accumulate s m x = .ok w) : w.Alike v := by
  cases v with
  | green g =>
    obtain ⟨g', hg, h⟩ := Outcome.bind_eq_ok.mp h
    cases h
    have hsame := Green.accumulate_same hg
    exact .green ⟨hsame.1.beta, hsame.1.spacing, hsame.1.bins, hsame.1.improved⟩
  | densities d =>
    obtain ⟨d', hd, h⟩ := Outcome.bind_eq_ok.mp h
    cases h
    exact .densities (Densities.accumulate_same hd).1
  | orders o =>
    cases h
    exact .orders (Orders.length_accumulate o s)
  | sign a =>
    cases h
    exact .sign _ _

theorem accumulate_add (h : v.Alike w) (s : State α) (m : Model α) (x : α) :
    (v.add w).accumulate s m x = (·.add w) <$> v.accumulate s m x := by
  cases h with
  | green hg =>
    simp only [add, accumulate, Green.accumulate_add hg, map_bind, bind_map_left]
    rfl
  | densities h =>
    simp only [add, accumulate, Densities.accumulate_add h, map_bind, bind_map_left]
    rfl
  | orders h => simp only [add, accumulate, Orders.accumulate_add h, map_pure]
  | sign a b => simp only [add, accumulate, AverageSign.accumulate_add, map_pure]

end Measure

end ImpuritySampler
