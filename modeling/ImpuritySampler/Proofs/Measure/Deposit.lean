import ImpuritySampler.Proofs.Measure.Green

/-!
# What a state leaves in the bins

Each pair of operators leaves one deposit, which depends on the state and on the mesh but not on
what has been collected before. The deposits of a state are a multiset: an accumulator that takes
them adds up, in each bin, the values of those that fall into it, whatever their order is.
-/

set_option autoImplicit false

namespace ImpuritySampler

namespace Outcome

variable {α β γ : Type} [AddCommMonoid γ]

/-- The sum of values that can fail, in the order of a list. -/
def sumOver (l : List β) (f : β → Outcome α γ) : Outcome α γ :=
  l.foldlM (fun c b => f b >>= fun v => .ok (c + v)) 0

theorem sumOver_nil (f : β → Outcome α γ) : sumOver [] f = .ok 0 := rfl

theorem sumOver_cons (b : β) (l : List β) (f : β → Outcome α γ) :
    sumOver (b::l) f = f b >>= fun v => sumOver l f >>= fun w => .ok (v + w) := by
  have hstart : ∀ c : γ, l.foldlM (fun c b => f b >>= fun v => .ok (c + v)) c =
      sumOver l f >>= fun w => .ok (c + w) := by
    induction l with
    | nil =>
      intro c
      rw [sumOver_nil, ok_bind, add_zero]
      rfl
    | cons a l ih =>
      intro c
      rw [sumOver, List.foldlM_cons, List.foldlM_cons, bind_assoc, bind_assoc, bind_assoc]
      apply bind_congr
      intro v
      simp only [ok_bind, ih, bind_assoc, zero_add, add_assoc]
  rw [sumOver, List.foldlM_cons, bind_assoc]
  apply bind_congr
  intro v
  rw [ok_bind, zero_add, hstart]

theorem sumOver_map {δ : Type} (l : List δ) (k : δ → β) (f : β → Outcome α γ) :
    sumOver (l.map k) f = sumOver l fun b => f (k b) := by
  rw [sumOver, List.foldlM_map]
  rfl

theorem sumOver_eq_ok {l : List β} {f : β → Outcome α γ} {v : β → γ}
    (h : ∀ b ∈ l, f b = .ok (v b)) : sumOver l f = .ok (l.map v).sum := by
  induction l with
  | nil => rfl
  | cons b l ih =>
    rw [sumOver_cons, h b List.mem_cons_self, ok_bind,
      ih fun c hc => h c (List.mem_cons_of_mem b hc)]
    rfl

end Outcome

/-- What one pair of operators adds to a bin, and to that of the improved estimator. -/
structure Deposit (α : Type) where
  color : ℕ
  bin : ℕ
  value : α
  improved : α

section Tables

variable {α : Type} [AddCommMonoid α]

def Grid.plus (f : Grid α) (v : ℕ → ℕ → α) : Grid α :=
  Grid.ofFn f.rows f.cols fun i j => f.entry i j + v i j

theorem Grid.plus_zero (f : Grid α) : f.plus (fun _ _ => 0) = f := by
  refine eq_of_shape rfl fun i j => ?_
  by_cases h : i < f.rows ∧ j < f.cols
  · rw [plus, entry_ofFn _ h.1 h.2, add_zero]
  · rw [entry_outside h]
    exact entry_outside (g := f.plus _) h

theorem Grid.plus_plus (f : Grid α) (v w : ℕ → ℕ → α) :
    (f.plus v).plus w = f.plus fun i j => v i j + w i j := by
  refine eq_of_shape rfl fun i j => ?_
  by_cases h : i < f.rows ∧ j < f.cols
  · have hinner : (f.plus v).entry i j = f.entry i j + v i j := entry_ofFn _ h.1 h.2
    have houter : ((f.plus v).plus w).entry i j = (f.plus v).entry i j + w i j :=
      entry_ofFn _ h.1 h.2
    rw [houter, hinner, plus, entry_ofFn _ h.1 h.2, add_assoc]
  · rw [entry_outside (g := (f.plus v).plus w) h]
    exact (entry_outside (g := f.plus _) h).symm

theorem Grid.modify_eq_plus {f : Grid α} {i j : ℕ} (hi : i < f.rows) (hj : j < f.cols) (x : α) :
    f.modify i j (· + x) = f.plus fun a b => if a = i ∧ b = j then x else 0 := by
  refine eq_of_shape rfl fun a b => ?_
  rw [entry_modify hi hj]
  by_cases h : a < f.rows ∧ b < f.cols
  · rw [plus, entry_ofFn _ h.1 h.2]
    by_cases hab : a = i ∧ b = j
    · rw [if_pos hab, if_pos hab, hab.1, hab.2]
    · rw [if_neg hab, if_neg hab, add_zero]
  · have hab : ¬(a = i ∧ b = j) := by
      rintro ⟨rfl, rfl⟩
      exact h ⟨hi, hj⟩
    rw [if_neg hab, entry_outside h]
    exact (entry_outside (g := f.plus _) h).symm

def tally (M : Multiset (Deposit α)) (v : Deposit α → α) (a b : ℕ) : α :=
  ((M.filter fun x => x.color = a ∧ x.bin = b).map v).sum

theorem tally_zero (v : Deposit α → α) : tally 0 v = fun _ _ => 0 := by
  funext a b
  simp [tally]

theorem tally_add (M N : Multiset (Deposit α)) (v : Deposit α → α) :
    tally (M + N) v = fun a b => tally M v a b + tally N v a b := by
  funext a b
  simp only [tally, Multiset.filter_add, Multiset.map_add, Multiset.sum_add]

theorem tally_singleton (x : Deposit α) (v : Deposit α → α) :
    tally {x} v = fun a b => if a = x.color ∧ b = x.bin then v x else 0 := by
  funext a b
  rw [tally, Multiset.filter_singleton]
  by_cases h : x.color = a ∧ x.bin = b
  · rw [if_pos h, if_pos ⟨h.1.symm, h.2.symm⟩, Multiset.map_singleton, Multiset.sum_singleton]
  · have h' : ¬(a = x.color ∧ b = x.bin) := fun hab => h ⟨hab.1.symm, hab.2.symm⟩
    rw [if_neg h, if_neg h']
    rfl

end Tables

namespace Green

open Outcome

variable {α : Type} [ExactScalar α] {g g' h : Green α} {M N : Multiset (Deposit α)}
variable {x : Deposit α}

def collected (g : Green α) (M : Multiset (Deposit α)) : Green α :=
  { g with
    bins := g.bins.plus (tally M Deposit.value)
    improved := g.improved.map fun f => f.plus (tally M Deposit.improved) }

theorem collected_zero (g : Green α) : g.collected 0 = g := by
  have himproved : (g.improved.map fun f => f.plus (tally 0 Deposit.improved)) = g.improved := by
    simp only [tally_zero, Grid.plus_zero, Option.map_id']
  rw [collected, himproved, tally_zero, Grid.plus_zero]

theorem collected_add (g : Green α) (M N : Multiset (Deposit α)) :
    (g.collected M).collected N = g.collected (M + N) := by
  simp only [collected, tally_add, Grid.plus_plus, Option.map_map, Function.comp_def]

theorem collected_same (g : Green α) (M : Multiset (Deposit α)) : (g.collected M).Same g := by
  refine ⟨⟨rfl, rfl, rfl, ?_⟩, rfl⟩
  rw [collected, Option.map_map]
  rfl

structure Fits (g : Green α) (x : Deposit α) : Prop where
  bins : x.color < g.bins.rows ∧ x.bin < g.bins.cols
  improved : ∀ f, g.improved = some f → x.color < f.rows ∧ x.bin < f.cols

theorem fits_collected : (g.collected M).Fits x ↔ g.Fits x := by
  constructor
  · rintro ⟨hbins, himproved⟩
    refine ⟨hbins, ?_⟩
    intro f hf
    exact himproved (f.plus (tally M Deposit.improved)) (by rw [collected, hf]; rfl)
  · rintro ⟨hbins, himproved⟩
    refine ⟨hbins, ?_⟩
    intro f hf
    obtain ⟨e, he, rfl⟩ := Option.map_eq_some_iff.mp hf
    exact himproved e he

/-- All deposits have their bins, and have been added to them. -/
structure Takes (g : Green α) (M : Multiset (Deposit α)) (g' : Green α) : Prop where
  fits : ∀ x ∈ M, g.Fits x
  result : g' = g.collected M

theorem takes_zero : g.Takes 0 g' ↔ g' = g := by
  constructor
  · intro h
    rw [h.result, collected_zero]
  · rintro rfl
    exact ⟨by simp, (collected_zero g').symm⟩

theorem takes_add : g.Takes (M + N) g' ↔ ∃ h, g.Takes M h ∧ h.Takes N g' := by
  constructor
  · rintro ⟨hfits, rfl⟩
    refine ⟨g.collected M, ⟨?_, rfl⟩, ?_, (collected_add g M N).symm⟩
    · intro x hx
      exact hfits x (Multiset.mem_add.mpr (.inl hx))
    · intro x hx
      exact fits_collected.mpr (hfits x (Multiset.mem_add.mpr (.inr hx)))
  · rintro ⟨h, ⟨hM, rfl⟩, hN, rfl⟩
    refine ⟨?_, collected_add g M N⟩
    intro x hx
    rcases Multiset.mem_add.mp hx with hx | hx
    · exact hM x hx
    · exact fits_collected.mp (hN x hx)

theorem Takes.same (h : g.Takes M g') : g'.Same g := by
  rw [h.result]
  exact collected_same g M

theorem addAt_eq_ok {f k : Grid α} {i j : ℕ} {x : α} : addAt f i j x = .ok k ↔
    (i < f.rows ∧ j < f.cols) ∧ k = f.plus fun a b => if a = i ∧ b = j then x else 0 := by
  rw [addAt_eq]
  by_cases h : i < f.rows ∧ j < f.cols
  · rw [if_pos h, Grid.modify_eq_plus h.1 h.2, Except.ok.injEq, eq_comm]
    exact (and_iff_right h).symm
  · rw [if_neg h]
    simp [h]

theorem deposit_eq_ok {color k : ℕ} {x y : α} :
    g.deposit color k x y = .ok g' ↔ g.Takes {⟨color, k, x, y⟩} g' := by
  cases hf : g.improved with
  | none =>
    rw [deposit_plain hf, bind_eq_ok]
    constructor
    · rintro ⟨bins, hbins, hg'⟩
      obtain ⟨hrange, rfl⟩ := addAt_eq_ok.mp hbins
      cases hg'
      refine ⟨?_, ?_⟩
      · intro z hz
        rw [Multiset.mem_singleton.mp hz]
        exact ⟨hrange, fun f hf' => nomatch hf.symm.trans hf'⟩
      · rw [collected, tally_singleton, hf]
        rfl
    · rintro ⟨hfits, rfl⟩
      have hrange := (hfits _ (Multiset.mem_singleton_self _)).bins
      refine ⟨_, addAt_eq_ok.mpr ⟨hrange, rfl⟩, ?_⟩
      rw [collected, tally_singleton, hf]
      rfl
  | some f =>
    rw [deposit_improved hf, bind_eq_ok]
    constructor
    · rintro ⟨bins, hbins, hg'⟩
      obtain ⟨e, he, hg'⟩ := bind_eq_ok.mp hg'
      obtain ⟨hrange, rfl⟩ := addAt_eq_ok.mp hbins
      obtain ⟨hrange', rfl⟩ := addAt_eq_ok.mp he
      cases hg'
      refine ⟨?_, ?_⟩
      · intro z hz
        rw [Multiset.mem_singleton.mp hz]
        refine ⟨hrange, ?_⟩
        intro k hk
        cases hf.symm.trans hk
        exact hrange'
      · rw [collected, tally_singleton, tally_singleton, hf]
        rfl
    · rintro ⟨hfits, rfl⟩
      have hrange := hfits _ (Multiset.mem_singleton_self _)
      refine ⟨_, addAt_eq_ok.mpr ⟨hrange.bins, rfl⟩, ?_⟩
      refine bind_eq_ok.mpr ⟨_, addAt_eq_ok.mpr ⟨hrange.improved f hf, rfl⟩, ?_⟩
      rw [collected, tally_singleton, tally_singleton, hf]
      rfl

/-- A loop whose passes take deposits takes their sum. -/
theorem foldlM_takes {β : Type} {l : List β} {f : Green α → β → Outcome α (Green α)}
    {k : β → Outcome α (Multiset (Deposit α))}
    (hstep : ∀ b ∈ l, ∀ h, h.Alike g → ∀ h', f h b = .ok h' ↔ ∃ M, k b = .ok M ∧ h.Takes M h') :
    l.foldlM f g = .ok g' ↔ ∃ M, sumOver l k = .ok M ∧ g.Takes M g' := by
  suffices hloop : ∀ h : Green α, h.Alike g →
      (l.foldlM f h = .ok g' ↔ ∃ M, sumOver l k = .ok M ∧ h.Takes M g') from hloop g (.refl g)
  induction l with
  | nil =>
    intro h _
    rw [List.foldlM_nil, sumOver_nil, pure_eq, Except.ok.injEq, eq_comm, ← takes_zero]
    simp
  | cons b l ih =>
    intro h hg
    have hfirst := hstep b List.mem_cons_self h hg
    have hrest := ih fun c hc => hstep c (List.mem_cons_of_mem b hc)
    rw [List.foldlM_cons, sumOver_cons, bind_eq_ok]
    constructor
    · rintro ⟨h', hh', hl⟩
      obtain ⟨M, hM, htakes⟩ := (hfirst h').mp hh'
      obtain ⟨N, hN, htakes'⟩ := (hrest h' (htakes.same.1.trans hg)).mp hl
      exact ⟨M + N, by rw [hM, ok_bind, hN, ok_bind], takes_add.mpr ⟨h', htakes, htakes'⟩⟩
    · rintro ⟨S, hS, htakes⟩
      obtain ⟨M, hM, hS⟩ := bind_eq_ok.mp hS
      obtain ⟨N, hN, hS⟩ := bind_eq_ok.mp hS
      cases hS
      obtain ⟨h', htakes, htakes'⟩ := takes_add.mp htakes
      exact ⟨h', (hfirst h').mpr ⟨M, hM, htakes⟩,
        (hrest h' (htakes.same.1.trans hg)).mpr ⟨N, hN, htakes'⟩⟩

section Pairs

variable {s : State α} {m : Model α} {sign : α}

def pairDeposits (g : Green α) (d : LineDeterminant α) (color : ℕ) (sign factor : α) (j i : ℕ) :
    Outcome α (Multiset (Deposit α)) := do
  let y ← d.colKey j
  let x ← d.rowKey i
  let entry ← d.inverseEntry j i
  let distance ← y.time.sub x.time
  let value := (if x.time.ticks ≤ y.time.ticks then sign else -sign) * entry
  pure {⟨color, g.bin distance.value, value, value * factor⟩}

def columnDeposits (g : Green α) (s : State α) (m : Model α) (d : LineDeterminant α) (color : ℕ)
    (sign : α) (j : ℕ) : Outcome α (Multiset (Deposit α)) := do
  let y ← d.colKey j
  let f ← factor s m color y.time g.improved.isSome
  sumOver (List.range d.size) (g.pairDeposits d color sign f j)

def colorDeposits (g : Green α) (s : State α) (m : Model α) (sign : α)
    (x : LineDeterminant α × ℕ) : Outcome α (Multiset (Deposit α)) :=
  sumOver (List.range x.1.size) (g.columnDeposits s m x.1 x.2 sign)

def deposits (g : Green α) (s : State α) (m : Model α) (sign : α) :
    Outcome α (Multiset (Deposit α)) :=
  sumOver s.determinants.zipIdx (g.colorDeposits s m sign)

theorem Alike.bin (hg : g.Alike h) : g.bin = h.bin := by
  have hcols : g.bins.cols = h.bins.cols := (Prod.ext_iff.mp hg.bins).2
  funext distance
  rw [Green.bin, Green.bin, hg.spacing, hcols]

omit [ExactScalar α] in
theorem Alike.isSome (hg : g.Alike h) : g.improved.isSome = h.improved.isSome := by
  rw [← Option.isSome_map, hg.improved, Option.isSome_map]

theorem addPair_eq_ok (hg : h.Alike g) {d : LineDeterminant α} {color j i : ℕ} {factor : α} :
    h.addPair d color sign factor j i = .ok g' ↔
      ∃ M, g.pairDeposits d color sign factor j i = .ok M ∧ h.Takes M g' := by
  rw [addPair_eq, pairDeposits, hg.bin]
  simp only [bind_eq_ok, pure_eq, Except.ok.injEq, deposit_eq_ok]
  constructor
  · rintro ⟨y, hy, x, hx, entry, hentry, distance, hdistance, htakes⟩
    exact ⟨_, ⟨y, hy, x, hx, entry, hentry, distance, hdistance, rfl⟩, htakes⟩
  · rintro ⟨_, ⟨y, hy, x, hx, entry, hentry, distance, hdistance, rfl⟩, htakes⟩
    exact ⟨y, hy, x, hx, entry, hentry, distance, hdistance, htakes⟩

theorem addColumn_eq_ok (hg : h.Alike g) {d : LineDeterminant α} {color j : ℕ} :
    h.addColumn s m d color sign j = .ok g' ↔
      ∃ M, g.columnDeposits s m d color sign j = .ok M ∧ h.Takes M g' := by
  rw [addColumn_eq, columnDeposits, hg.isSome]
  have hloop : ∀ f, (List.range d.size).foldlM (fun e i => e.addPair d color sign f j i) h =
      .ok g' ↔ ∃ M, sumOver (List.range d.size) (g.pairDeposits d color sign f j) = .ok M ∧
        h.Takes M g' :=
    fun f => foldlM_takes fun i _ e he e' => addPair_eq_ok (he.trans hg)
  simp only [bind_eq_ok, hloop]
  constructor
  · rintro ⟨y, hy, f, hf, M, hM, htakes⟩
    exact ⟨M, ⟨y, hy, f, hf, hM⟩, htakes⟩
  · rintro ⟨M, ⟨y, hy, f, hf, hM⟩, htakes⟩
    exact ⟨y, hy, f, hf, M, hM, htakes⟩

theorem addColor_eq_ok (hg : h.Alike g) {x : LineDeterminant α × ℕ} :
    h.addColor s m sign x = .ok g' ↔
      ∃ M, g.colorDeposits s m sign x = .ok M ∧ h.Takes M g' :=
  foldlM_takes fun _ _ _ he _ => addColumn_eq_ok (he.trans hg)

theorem accumulate_eq_ok : g.accumulate s m sign = .ok g' ↔
    ∃ M, g.deposits s m sign = .ok M ∧ { g with signSum := g.signSum + sign }.Takes M g' := by
  have hstart : ({ g with signSum := g.signSum + sign } : Green α).Alike g := ⟨rfl, rfl, rfl, rfl⟩
  rw [accumulate_eq]
  exact foldlM_takes fun _ _ _ he _ => addColor_eq_ok (he.trans hstart)

end Pairs

end Green

end ImpuritySampler
