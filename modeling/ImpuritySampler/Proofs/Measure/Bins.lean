import ImpuritySampler.Proofs.Measure.Deposit
import ImpuritySampler.Proofs.Measure.Felt
import ImpuritySampler.Proofs.Measure.Pool

/-!
# What is in the bins

The deposits of a consistent state are there, one for each pair of an annihilation and a creation of
a color. After a sequence of states a bin holds the sum over the pairs that fall into it.
-/

set_option autoImplicit false

namespace ImpuritySampler

open Outcome

theorem Outcome.sumOver_range {α γ : Type} [AddCommMonoid γ] {n : ℕ} {f : ℕ → Outcome α γ}
    {v : Fin n → γ} (h : ∀ j : Fin n, f j = .ok (v j)) :
    sumOver (List.range n) f = .ok (∑ j, v j) := by
  rw [← List.map_coe_finRange_eq_range, sumOver_map, sumOver_eq_ok fun j _ => h j,
    Fin.sum_univ_def]

theorem Outcome.sumOver_zipIdx {α β γ : Type} [AddCommMonoid γ] {l : List β}
    {f : β × ℕ → Outcome α γ} {v : Fin l.length → γ}
    (h : ∀ k : Fin l.length, f (l[k], k) = .ok (v k)) : sumOver l.zipIdx f = .ok (∑ k, v k) := by
  have hplaces : l.zipIdx =
      (List.finRange l.length).map fun k : Fin l.length => (l[k], (k : ℕ)) := by
    apply List.ext_getElem
    · simp
    · intro k hk hk'
      simp
  rw [hplaces, sumOver_map, sumOver_eq_ok fun k _ => h k, Fin.sum_univ_def]

theorem sum_at {β γ : Type} [AddCommMonoid γ] (l : List β) (f : β → γ) (place : ℕ) :
    ∑ k : Fin l.length, (if (k : ℕ) = place then f l[k] else 0) = l[place]?.elim 0 f := by
  by_cases h : place < l.length
  · have hk : ∀ k : Fin l.length, (k : ℕ) = place ↔ k = ⟨place, h⟩ := fun k => by rw [Fin.ext_iff]
    simp only [hk, Finset.sum_ite_eq', Finset.mem_univ, if_true, List.getElem?_eq_getElem h]
    rfl
  · rw [List.getElem?_eq_none (not_lt.mp h), Option.elim_none]
    apply Finset.sum_eq_zero
    intro k _
    exact if_neg fun hk : (k : ℕ) = place => h (hk ▸ k.isLt)

section Pairs

abbrev OnPairs (α β : Type) : Type :=
  (D : LineDeterminant α) → Fin D.colKeys.length → Fin D.rowKeys.length → β

variable {α : Type} (D : LineDeterminant α) (j : Fin D.colKeys.length)
variable (i : Fin D.rowKeys.length)

def Determinant.way : Time α :=
  ⟨Time.gap D.colKeys[j].time.ticks D.rowKeys[i].time.ticks, D.colKeys[j].time.period⟩

/-- The element of the inverse with the sign by which its pair is counted. -/
def Determinant.signed [ExactScalar α] (sign : α) : α :=
  (if D.rowKeys[i].time.ticks ≤ D.colKeys[j].time.ticks then sign else -sign) * D.inverse.entry j i

end Pairs

variable {α : Type} [ExactScalar α] {beta : α} {l : Line α} {D : LineDeterminant α}
variable {s : State α} {m : Model α} {color : ℕ}

def State.overPairs (s : State α) (color : ℕ) (w : OnPairs α α) : α :=
  s.determinants[color]?.elim 0 fun D => ∑ j, ∑ i, w D j i

def overPairs (xs : List (State α × α)) (color : ℕ) (w : State α × α → OnPairs α α) : α :=
  (xs.map fun x => x.1.overPairs color (w x)).sum

section Bins

variable {n : ℕ} {bin : OnPairs α ℕ} (hbin : ∀ D j i, bin D j i < n)

include hbin

theorem State.sum_overPairs (s : State α) (color : ℕ) (w : OnPairs α α) :
    ∑ k ∈ Finset.range n, s.overPairs color (fun D j i => if bin D j i = k then w D j i else 0) =
      s.overPairs color w := by
  unfold overPairs
  cases s.determinants[color]? with
  | none => exact Finset.sum_const_zero
  | some D =>
    simp only [Option.elim_some]
    rw [Finset.sum_comm]
    apply Finset.sum_congr rfl
    intro j _
    rw [Finset.sum_comm]
    apply Finset.sum_congr rfl
    intro i _
    rw [Finset.sum_ite_eq, if_pos (Finset.mem_range.mpr (hbin D j i))]

/-- Summing over the bins of the pairs is summing over the pairs. -/
theorem sum_overPairs (xs : List (State α × α)) (color : ℕ) (w : State α × α → OnPairs α α) :
    ∑ k ∈ Finset.range n, overPairs xs color (fun x D j i =>
      if bin D j i = k then w x D j i else 0) = overPairs xs color w := by
  induction xs with
  | nil => exact Finset.sum_const_zero
  | cons x xs ih =>
    simp only [overPairs, List.map_cons, List.sum_cons, Finset.sum_add_distrib] at ih ⊢
    rw [x.1.sum_overPairs hbin, ih]

end Bins

namespace Line.HeldBy

variable (hl : l.HeldBy beta D) (j : Fin D.colKeys.length) (i : Fin D.rowKeys.length)

include hl

omit [ExactScalar α] in
theorem column_isPoint : D.colKeys[j].time.IsPoint beta :=
  (hl.cols.points _ (List.getElem_mem j.isLt)).1

omit [ExactScalar α] in
theorem row_isPoint : D.rowKeys[i].time.IsPoint beta :=
  (hl.rows.points _ (List.getElem_mem i.isLt)).1

theorem sub_eq_way : D.colKeys[j].time.sub D.rowKeys[i].time = .ok (D.way j i) := by
  rw [Time.sub_eq (hl.column_isPoint j) (hl.row_isPoint i), Determinant.way,
    (hl.column_isPoint j).period]

omit [ExactScalar α] in
theorem way_isPoint : (D.way j i).IsPoint beta :=
  ⟨(hl.column_isPoint j).period, Time.gap_lt (hl.column_isPoint j).lt _⟩

end Line.HeldBy

namespace Green

def interaction (s : State α) (m : Model α) (color : ℕ) (t : Time α) : α :=
  (felt s m color t).toOption.getD 0

theorem interaction_eq {t : Time α} {x : α} (h : felt s m color t = .ok x) :
    interaction s m color t = x := by
  rw [interaction, h]
  rfl

/-- The factors of the improved estimator can be read, if there is one. -/
def Weighable (g : Green α) (s : State α) (m : Model α) : Prop :=
  g.improved.isSome = true → ∀ color D, s.determinants[color]? = some D →
    ∀ j : Fin D.colKeys.length, ∃ x, felt s m color D.colKeys[j].time = .ok x

variable {g h : Green α} {sign : α}

theorem weighable_of_graded (hm : g.improved.isSome = true → m.Graded) (hs : s.Ready m) :
    g.Weighable s m := by
  intro himproved color D hD j
  have hc : color < m.colors := by
    rw [← hs.colors, ← hs.matched.count]
    exact (List.getElem?_eq_some_iff.mp hD).1
  exact felt_defined (hm himproved) hs hc ((hs.matched.held color D hD).column_isPoint j)

def pairDeposit (g : Green α) (s : State α) (m : Model α) (sign : α) (color : ℕ)
    (D : LineDeterminant α) (j : Fin D.colKeys.length) (i : Fin D.rowKeys.length) : Deposit α where
  color := color
  bin := g.bin (D.way j i).value
  value := D.signed j i sign
  improved := D.signed j i sign *
    if g.improved.isSome then interaction s m color D.colKeys[j].time else 0

theorem Alike.deposits (hg : g.Alike h) : g.deposits s m sign = h.deposits s m sign := by
  unfold Green.deposits colorDeposits columnDeposits pairDeposits
  rw [hg.bin, hg.isSome]

theorem Alike.pairDeposit (hg : g.Alike h) :
    g.pairDeposit s m sign = h.pairDeposit s m sign := by
  unfold Green.pairDeposit
  rw [hg.bin, hg.isSome]

theorem factor_eq (hw : g.Weighable s m) (hD : s.determinants[color]? = some D)
    (j : Fin D.colKeys.length) : factor s m color D.colKeys[j].time g.improved.isSome =
      .ok (if g.improved.isSome then interaction s m color D.colKeys[j].time else 0) := by
  rw [factor]
  split_ifs with himproved
  · obtain ⟨x, hx⟩ := hw himproved color D hD j
    rw [hx, interaction_eq hx]
  · rfl

theorem pairDeposits_eq (hl : l.HeldBy beta D) (htable : D.inverse.HasShape D.size D.size)
    (j : Fin D.colKeys.length) (i : Fin D.rowKeys.length) :
    g.pairDeposits D color sign
      (if g.improved.isSome then interaction s m color D.colKeys[j].time else 0) j i =
        .ok {g.pairDeposit s m sign color D j i} := by
  have hj : (j : ℕ) < D.size := j.isLt.trans_eq hl.length_colKeys
  have hy : D.colKey j = .ok D.colKeys[j] := nth_of_lt j.isLt
  have hx : D.rowKey i = .ok D.rowKeys[i] := nth_of_lt i.isLt
  rw [pairDeposits, hy, ok_bind, hx, ok_bind, Determinant.inverseEntry_eq htable hj i.isLt, ok_bind,
    hl.sub_eq_way, ok_bind]
  rfl

theorem columnDeposits_eq (hl : l.HeldBy beta D) (htable : D.inverse.HasShape D.size D.size)
    (hw : g.Weighable s m) (hD : s.determinants[color]? = some D) (j : Fin D.colKeys.length) :
    g.columnDeposits s m D color sign j = .ok (∑ i, {g.pairDeposit s m sign color D j i}) := by
  have hy : D.colKey j = .ok D.colKeys[j] := nth_of_lt j.isLt
  rw [columnDeposits, hy, ok_bind, factor_eq hw hD j, ok_bind]
  exact sumOver_range fun i => pairDeposits_eq hl htable j i

theorem colorDeposits_eq (hl : l.HeldBy beta D) (htable : D.inverse.HasShape D.size D.size)
    (hw : g.Weighable s m) (hD : s.determinants[color]? = some D) :
    g.colorDeposits s m sign (D, color) =
      .ok (∑ j, ∑ i, {g.pairDeposit s m sign color D j i}) := by
  rw [colorDeposits, ← hl.length_colKeys]
  exact sumOver_range fun j => columnDeposits_eq hl htable hw hD j

def allDeposits (g : Green α) (s : State α) (m : Model α) (sign : α) : Multiset (Deposit α) :=
  ∑ k : Fin s.determinants.length, ∑ j, ∑ i, {g.pairDeposit s m sign k s.determinants[k] j i}

theorem deposits_eq (hs : s.Matched beta) (htables : s.Tabulated) (hw : g.Weighable s m) :
    g.deposits s m sign = .ok (g.allDeposits s m sign) := by
  refine sumOver_zipIdx fun k => ?_
  have hD : s.determinants[(k : ℕ)]? = some s.determinants[k] := List.getElem?_eq_getElem k.isLt
  exact colorDeposits_eq (hs.held k _ hD) (htables _ (List.getElem_mem k.isLt)) hw hD

theorem of_mem_allDeposits {x : Deposit α} (hx : x ∈ g.allDeposits s m sign) :
    x.color < s.determinants.length ∧ ∃ distance, x.bin = g.bin distance := by
  obtain ⟨k, -, hx⟩ := Multiset.mem_sum.mp hx
  obtain ⟨j, -, hx⟩ := Multiset.mem_sum.mp hx
  obtain ⟨i, -, hx⟩ := Multiset.mem_sum.mp hx
  rw [Multiset.mem_singleton.mp hx]
  exact ⟨k.isLt, _, rfl⟩

/-- The bins have a row for each color, in both tables. -/
structure Sized (colors : ℕ) (g : Green α) : Prop where
  rows : colors ≤ g.bins.rows
  cols : 0 < g.bins.cols
  improved : ∀ f, g.improved = some f → f.shape = g.bins.shape

omit [ExactScalar α] in
theorem Sized.of_alike {g h : Green α} {colors : ℕ} (hg : g.Sized colors) (hh : h.Alike g) :
    h.Sized colors := by
  obtain ⟨hrows, hcols⟩ := Prod.ext_iff.mp hh.bins
  refine ⟨hg.rows.trans_eq hrows.symm, hg.cols.trans_eq hcols.symm, fun f hf => ?_⟩
  have himproved := hh.improved
  rw [hf] at himproved
  obtain ⟨e, he, hshape⟩ := Option.map_eq_some_iff.mp himproved.symm
  exact hshape.symm.trans ((hg.improved e he).trans hh.bins.symm)

theorem bin_lt (hg : 0 < g.bins.cols) (distance : α) : g.bin distance < g.bins.cols :=
  (min_le_right _ _).trans_lt (Nat.sub_lt hg one_pos)

omit [ExactScalar α] in
theorem Sized.fits {colors : ℕ} (hg : g.Sized colors) {x : Deposit α} (hx : x.color < colors)
    (hbin : x.bin < g.bins.cols) : g.Fits x := by
  refine ⟨⟨hx.trans_le hg.rows, hbin⟩, ?_⟩
  intro f hf
  obtain ⟨hrows, hcols⟩ := Prod.ext_iff.mp (hg.improved f hf)
  dsimp only [Grid.shape] at hrows hcols
  rw [hrows, hcols]
  exact ⟨hx.trans_le hg.rows, hbin⟩

/-- Collecting from a state adds its deposits. -/
theorem accumulate_collected (hg : g.Sized s.determinants.length) (hs : s.Matched beta)
    (htables : s.Tabulated) (hw : g.Weighable s m) : g.accumulate s m sign =
      .ok ({ g with signSum := g.signSum + sign }.collected (g.allDeposits s m sign)) := by
  refine accumulate_eq_ok.mpr ⟨_, deposits_eq hs htables hw, ?_, rfl⟩
  intro x hx
  obtain ⟨hcolor, distance, hbin⟩ := of_mem_allDeposits hx
  have hfits := hg.fits hcolor (hbin ▸ bin_lt hg.cols distance)
  exact ⟨hfits.bins, hfits.improved⟩

theorem collected_alike (g : Green α) (z : α) (M : Multiset (Deposit α)) :
    ({ g with signSum := z }.collected M).Alike g :=
  (collected_same _ M).1.trans ⟨rfl, rfl, rfl, rfl⟩

def deposited (g : Green α) (m : Model α) (xs : List (State α × α)) : Multiset (Deposit α) :=
  (xs.map fun x => g.allDeposits x.1 m x.2).sum

theorem Alike.deposited (hg : g.Alike h) (xs : List (State α × α)) :
    g.deposited m xs = h.deposited m xs := by
  unfold Green.deposited allDeposits
  simp only [hg.pairDeposit]

theorem deposited_cons (x : State α × α) (xs : List (State α × α)) :
    g.deposited m (x::xs) = g.allDeposits x.1 m x.2 + g.deposited m xs := List.sum_cons

def accumulateAll (g : Green α) (m : Model α) (xs : List (State α × α)) : Outcome α (Green α) :=
  xs.foldlM (fun g x => g.accumulate x.1 m x.2) g

theorem accumulateAll_eq {xs : List (State α × α)}
    (hg : ∀ x ∈ xs, g.Sized x.1.determinants.length)
    (hxs : ∀ x ∈ xs, x.1.Matched beta ∧ x.1.Tabulated ∧ g.Weighable x.1 m) :
    g.accumulateAll m xs =
      .ok ({ g with signSum := g.signSum + Results.signs xs }.collected (g.deposited m xs)) := by
  suffices hloop : ∀ h : Green α, h.Alike g →
      h.accumulateAll m xs =
        .ok ({ h with signSum := h.signSum + Results.signs xs }.collected (g.deposited m xs)) from
    hloop g (.refl g)
  induction xs with
  | nil =>
    intro h _
    have hsum : h.signSum + Results.signs [] = h.signSum := add_zero _
    rw [hsum]
    exact congrArg Except.ok (collected_zero h).symm
  | cons x xs ih =>
    intro h hh
    rw [List.forall_mem_cons] at hg hxs
    obtain ⟨hmatched, htables, hweighable⟩ := hxs.1
    have hweighable' : h.Weighable x.1 m := by
      intro himproved
      exact hweighable (hh.isSome.symm.trans himproved)
    have hsum : h.signSum + Results.signs (x::xs) = h.signSum + x.2 + Results.signs xs := by
      rw [Results.signs, List.map_cons, List.sum_cons, add_assoc]
      rfl
    have hdeposits : h.allDeposits x.1 m x.2 = g.allDeposits x.1 m x.2 := by
      rw [allDeposits, hh.pairDeposit]
      rfl
    rw [accumulateAll, List.foldlM_cons,
      accumulate_collected (hg.1.of_alike hh) hmatched htables hweighable',
      ok_bind, ← accumulateAll, ih hg.2 hxs.2 _ ((collected_alike h _ _).trans hh), hsum, hdeposits,
      deposited_cons, ← collected_add]
    rfl

def tallyHom (v : Deposit α → α) (a b : ℕ) : Multiset (Deposit α) →+ α where
  toFun := fun M => tally M v a b
  map_zero' := congrFun (congrFun (tally_zero v) a) b
  map_add' := fun M N => congrFun (congrFun (tally_add M N v) a) b

theorem tallyHom_apply (v : Deposit α → α) (a b : ℕ) (M : Multiset (Deposit α)) :
    tallyHom v a b M = tally M v a b := rfl

theorem tally_pairDeposit (v : Deposit α → α) (b k : ℕ) (j : Fin D.colKeys.length)
    (i : Fin D.rowKeys.length) : tally {g.pairDeposit s m sign k D j i} v color b =
      if k = color then
        if g.bin (D.way j i).value = b then v (g.pairDeposit s m sign color D j i) else 0
      else 0 := by
  rw [tally_singleton, ← ite_and]
  by_cases hk : k = color
  · subst hk
    simp only [pairDeposit, eq_comm]
  · simp [pairDeposit, hk, Ne.symm hk]

theorem tally_allDeposits (v : Deposit α → α) (b : ℕ) :
    tally (g.allDeposits s m sign) v color b = s.overPairs color fun D j i =>
      if g.bin (D.way j i).value = b then v (g.pairDeposit s m sign color D j i) else 0 := by
  rw [← tallyHom_apply, State.overPairs, ← sum_at]
  simp only [allDeposits, map_sum, tallyHom_apply, tally_pairDeposit]
  apply Finset.sum_congr rfl
  intro k _
  split_ifs
  · rfl
  · simp

/-- What a state adds to an accumulator: each pair its element to the bin of its distance, and in
the improved estimator this times what the annihilation feels. -/
structure Collects (g : Green α) (s : State α) (m : Model α) (sign : α) (h : Green α) : Prop where
  alike : h.Alike g
  signSum : h.signSum = g.signSum + sign
  bins : ∀ color < g.bins.rows, ∀ k < g.bins.cols, h.bins.entry color k =
    g.bins.entry color k + s.overPairs color fun D j i =>
      if g.bin (D.way j i).value = k then D.signed j i sign else 0
  improved : ∀ f, g.improved = some f → ∃ e, h.improved = some e ∧
    ∀ color < f.rows, ∀ k < f.cols, e.entry color k =
      f.entry color k + s.overPairs color fun D j i => if g.bin (D.way j i).value = k then
        D.signed j i sign * interaction s m color D.colKeys[j].time else 0

theorem accumulate_collects (hg : g.Sized s.determinants.length) (hs : s.Matched beta)
    (htables : s.Tabulated) (hw : g.Weighable s m) :
    ∃ h, g.accumulate s m sign = .ok h ∧ g.Collects s m sign h := by
  refine ⟨_, accumulate_collected hg hs htables hw, collected_alike g _ _, rfl,
    fun color hcolor k hk => ?_, fun f hf => ?_⟩
  · have hplus : (g.bins.plus (tally (g.allDeposits s m sign) Deposit.value)).entry color k =
        g.bins.entry color k + tally (g.allDeposits s m sign) Deposit.value color k :=
      Grid.entry_ofFn _ hcolor hk
    exact hplus.trans (by rw [tally_allDeposits]; rfl)
  · refine ⟨f.plus (tally (g.allDeposits s m sign) Deposit.improved), ?_,
      fun color hcolor k hk => ?_⟩
    · rw [collected, hf]
      rfl
    · have hplus : (f.plus (tally (g.allDeposits s m sign) Deposit.improved)).entry color k =
          f.entry color k + tally (g.allDeposits s m sign) Deposit.improved color k :=
        Grid.entry_ofFn _ hcolor hk
      have hsome : g.improved.isSome = true := by rw [hf]; rfl
      rw [hplus, tally_allDeposits]
      simp only [pairDeposit, hsome, if_true]

theorem tally_deposited (v : Deposit α → α) (xs : List (State α × α)) (b : ℕ) :
    tally (g.deposited m xs) v color b = overPairs xs color fun x D j i =>
      if g.bin (D.way j i).value = b then v (g.pairDeposit x.1 m x.2 color D j i) else 0 := by
  rw [← tallyHom_apply, deposited, map_list_sum, List.map_map, overPairs]
  simp only [Function.comp_def, tallyHom_apply, tally_allDeposits]

end Green

end ImpuritySampler
