import ImpuritySampler.Proofs.Results.Entry
import ImpuritySampler.Measure

/-!
# Sums of Green's functions

What two accumulators on one mesh have collected can be added, bin by bin. What is added to an
accumulator stays there while it collects more: collecting commutes with addition.
-/

set_option autoImplicit false

namespace ImpuritySampler

namespace Grid

variable {α : Type} [AddCommMonoid α]

def add (g h : Grid α) : Grid α := zipWith (· + ·) g h

theorem entry_add {g h : Grid α} (hshape : g.shape = h.shape) (i j : ℕ) :
    (g.add h).entry i j = g.entry i j + h.entry i j := entry_zipWith hshape (add_zero 0) i j

theorem place_inj {cols i j a b : ℕ} (hj : j < cols) (hb : b < cols)
    (h : a * cols + b = i * cols + j) : a = i ∧ b = j :=
  ⟨by rw [← place_div (i := i) hj, ← h, place_div hb],
    by rw [← place_mod (i := i) hj, ← h, place_mod hb]⟩

theorem entry_modify {g : Grid α} {i j : ℕ} (hi : i < g.rows) (hj : j < g.cols) (f : α → α)
    (a b : ℕ) : (g.modify i j f).entry a b =
      if a = i ∧ b = j then f (g.entry i j) else g.entry a b := by
  by_cases hab : a < g.rows ∧ b < g.cols
  · have hdata := data_eq hab.1 hab.2
    have hget : (g.modify i j f).get? a b =
        (g.data.modify (i * g.cols + j) f)[a * g.cols + b]? := by
      simp [get?, modify, hab, hi, hj]
    rw [entry, hget, Array.getElem?_modify, hdata]
    by_cases heq : a = i ∧ b = j
    · rw [if_pos heq, if_pos (by rw [heq.1, heq.2]), heq.1, heq.2]
      rfl
    · rw [if_neg heq, if_neg fun hplace => heq (place_inj hj hab.2 hplace.symm)]
      rfl
  · have hne : ¬(a = i ∧ b = j) := fun heq => hab ⟨heq.1 ▸ hi, heq.2 ▸ hj⟩
    rw [if_neg hne, entry_outside hab]
    exact entry_outside (g := g.modify i j f) hab

theorem add_modify {g h : Grid α} {i j : ℕ} (hshape : g.shape = h.shape) (hi : i < g.rows)
    (hj : j < g.cols) (x : α) :
    (g.add h).modify i j (· + x) = (g.modify i j (· + x)).add h := by
  have hshape' : (g.modify i j (· + x)).shape = h.shape := hshape
  refine eq_of_shape rfl fun a b => ?_
  have hleft := entry_modify (g := g.add h) hi hj (· + x) a b
  rw [hleft, entry_add hshape', entry_modify hi hj, entry_add hshape, entry_add hshape]
  split_ifs with heq
  · rw [heq.1, heq.2, add_right_comm]
  · rfl

end Grid

namespace Green

section Alike

variable {α : Type} {g g' h : Green α}

/-- The same mesh, with or without the improved estimator. -/
structure Alike (g h : Green α) : Prop where
  beta : g.beta = h.beta
  spacing : g.spacing = h.spacing
  bins : g.bins.shape = h.bins.shape
  improved : g.improved.map Grid.shape = h.improved.map Grid.shape

theorem Alike.refl (g : Green α) : g.Alike g := ⟨rfl, rfl, rfl, rfl⟩

theorem Alike.symm (hg : g.Alike h) : h.Alike g :=
  ⟨hg.beta.symm, hg.spacing.symm, hg.bins.symm, hg.improved.symm⟩

theorem Alike.trans (hg : g.Alike g') (hh : g'.Alike h) : g.Alike h :=
  ⟨hg.beta.trans hh.beta, hg.spacing.trans hh.spacing, hg.bins.trans hh.bins,
    hg.improved.trans hh.improved⟩

def Same (g h : Green α) : Prop := g.Alike h ∧ g.signSum = h.signSum

theorem Same.trans (hg : g.Same g') (hh : g'.Same h) : g.Same h :=
  ⟨hg.1.trans hh.1, hg.2.trans hh.2⟩

end Alike

variable {α : Type} [ExactScalar α] {g g' h : Green α}

theorem addAt_eq (f : Grid α) (i j : ℕ) (x : α) : addAt f i j x =
    if i < f.rows ∧ j < f.cols then .ok (f.modify i j (· + x)) else .error .outOfRange := by
  rw [addAt, Outcome.require]
  split <;> rfl

theorem addAt_add {f k : Grid α} (hshape : f.shape = k.shape) (i j : ℕ) (x : α) :
    addAt (f.add k) i j x = (·.add k) <$> addAt f i j x := by
  rw [addAt_eq, addAt_eq]
  by_cases hrange : i < f.rows ∧ j < f.cols
  · rw [if_pos hrange, if_pos (show i < (f.add k).rows ∧ j < (f.add k).cols from hrange),
      Grid.add_modify hshape hrange.1 hrange.2]
    rfl
  · rw [if_neg hrange, if_neg (show ¬(i < (f.add k).rows ∧ j < (f.add k).cols) from hrange)]
    rfl

theorem shape_addAt {f k : Grid α} {i j : ℕ} {x : α} (h : addAt f i j x = .ok k) :
    k.shape = f.shape := by
  rw [addAt_eq] at h
  split at h
  · cases h
    rfl
  · cases h

def add (g h : Green α) : Green α :=
  { g with
    bins := g.bins.add h.bins
    improved := Option.map₂ Grid.add g.improved h.improved
    signSum := g.signSum + h.signSum }

theorem Alike.add_improved (hg : g.Alike h) :
    (g.improved = none ∧ h.improved = none ∧ (g.add h).improved = none) ∨
    ∃ e f, g.improved = some e ∧ h.improved = some f ∧ (g.add h).improved = some (e.add f) ∧
      e.shape = f.shape := by
  have himproved := hg.improved
  have hsum : (g.add h).improved = Option.map₂ Grid.add g.improved h.improved := rfl
  rw [hsum]
  cases hg' : g.improved with
  | none =>
    rw [hg', Option.map_none] at himproved
    exact .inl ⟨rfl, Option.map_eq_none_iff.mp himproved.symm, rfl⟩
  | some e =>
    rw [hg'] at himproved
    obtain ⟨f, hf, hshape⟩ := Option.map_eq_some_iff.mp himproved.symm
    exact .inr ⟨e, f, rfl, hf, by rw [hf]; rfl, hshape.symm⟩

def deposit (g : Green α) (color k : ℕ) (x y : α) : Outcome α (Green α) := do
  let bins ← addAt g.bins color k x
  match g.improved with
  | none => pure { g with bins }
  | some f => pure { g with bins, improved := some (← addAt f color k y) }

section Steps

variable {s : State α} {m : Model α} {d : LineDeterminant α} {color i j k : ℕ}
variable {x y sign f : α}

theorem addPair_eq (g : Green α) (d : LineDeterminant α) (color : ℕ) (sign factor : α) (j i : ℕ) :
    g.addPair d color sign factor j i = (do
      let y ← d.colKey j
      let x ← d.rowKey i
      let entry ← d.inverseEntry j i
      let distance ← y.time.sub x.time
      let value := (if x.time.ticks ≤ y.time.ticks then sign else -sign) * entry
      g.deposit color (g.bin distance.value) value (value * factor)) := rfl

theorem deposit_plain (h : g.improved = none) : g.deposit color k x y =
    (do pure { g with bins := ← addAt g.bins color k x }) := by
  simp only [deposit, h]

theorem deposit_improved {e : Grid α} (h : g.improved = some e) : g.deposit color k x y = (do
    let bins ← addAt g.bins color k x
    pure { g with bins, improved := some (← addAt e color k y) }) := by
  simp only [deposit, h]

theorem deposit_same (h : g.deposit color k x y = .ok g') : g'.Same g := by
  obtain ⟨bins, hbins, h⟩ := Outcome.bind_eq_ok.mp h
  have hshape := shape_addAt hbins
  cases himproved : g.improved with
  | none =>
    rw [himproved] at h
    cases h
    exact ⟨⟨rfl, rfl, hshape, by rw [himproved]⟩, rfl⟩
  | some f =>
    rw [himproved] at h
    obtain ⟨k, hk, h⟩ := Outcome.bind_eq_ok.mp h
    cases h
    refine ⟨⟨rfl, rfl, hshape, ?_⟩, rfl⟩
    rw [himproved, Option.map_some, Option.map_some, shape_addAt hk]

theorem addPair_same (h : g.addPair d color sign f j i = .ok g') : g'.Same g := by
  rw [addPair_eq] at h
  obtain ⟨_, -, h⟩ := Outcome.bind_eq_ok.mp h
  obtain ⟨_, -, h⟩ := Outcome.bind_eq_ok.mp h
  obtain ⟨_, -, h⟩ := Outcome.bind_eq_ok.mp h
  obtain ⟨_, -, h⟩ := Outcome.bind_eq_ok.mp h
  exact deposit_same h

def factor (s : State α) (m : Model α) (color : ℕ) (t : Time α) (improved : Bool) : Outcome α α :=
  if improved then felt s m color t else .ok 0

theorem addColumn_eq (g : Green α) (s : State α) (m : Model α) (d : LineDeterminant α) (color : ℕ)
    (sign : α) (j : ℕ) : g.addColumn s m d color sign j = (do
      let y ← d.colKey j
      let f ← factor s m color y.time g.improved.isSome
      (List.range d.size).foldlM (fun g i => g.addPair d color sign f j i) g) := by
  unfold addColumn factor
  cases g.improved.isSome <;> rfl

theorem addColumn_same (h : g.addColumn s m d color sign j = .ok g') : g'.Same g := by
  rw [addColumn_eq] at h
  obtain ⟨_, -, h⟩ := Outcome.bind_eq_ok.mp h
  obtain ⟨_, -, h⟩ := Outcome.bind_eq_ok.mp h
  exact Outcome.of_foldlM (I := (·.Same g)) (fun _ _ _ hc hd => (addPair_same hd).trans hc)
    ⟨.refl g, rfl⟩ h

def addColor (g : Green α) (s : State α) (m : Model α) (sign : α) (x : LineDeterminant α × ℕ) :
    Outcome α (Green α) :=
  (List.range x.1.size).foldlM (fun g j => g.addColumn s m x.1 x.2 sign j) g

theorem accumulate_eq (g : Green α) (s : State α) (m : Model α) (sign : α) :
    g.accumulate s m sign = s.determinants.zipIdx.foldlM (fun g x => g.addColor s m sign x)
      { g with signSum := g.signSum + sign } := rfl

theorem addColor_same {p : LineDeterminant α × ℕ} (h : g.addColor s m sign p = .ok g') :
    g'.Same g :=
  Outcome.of_foldlM (I := (·.Same g)) (fun _ _ _ hc hd => (addColumn_same hd).trans hc)
    ⟨.refl g, rfl⟩ h

theorem accumulate_same (h : g.accumulate s m sign = .ok g') :
    g'.Same { g with signSum := g.signSum + sign } := by
  rw [accumulate_eq] at h
  exact Outcome.of_foldlM (I := (·.Same { g with signSum := g.signSum + sign }))
    (fun _ _ _ hc hd => (addColor_same hd).trans hc) ⟨.refl _, rfl⟩ h

variable (hg : g.Alike h)

include hg

theorem isSome_add : (g.add h).improved.isSome = g.improved.isSome := by
  rcases hg.add_improved with ⟨hg', -, hsum⟩ | ⟨e, f, hg', -, hsum, -⟩
  · rw [hg', hsum]
  · rw [hg', hsum]
    rfl

theorem deposit_add (color k : ℕ) (x y : α) :
    (g.add h).deposit color k x y = (·.add h) <$> g.deposit color k x y := by
  have hbins : addAt (g.add h).bins color k x = _ := addAt_add hg.bins color k x
  rcases hg.add_improved with ⟨hg', hh, hsum⟩ | ⟨e, f, hg', hh, hsum, hshape⟩
  · rw [deposit_plain hsum, deposit_plain hg', hbins]
    simp only [bind_map_left, map_bind]
    rfl
  · have hadd : ∀ b q, { g.add h with bins := b.add h.bins, improved := some (q.add f) } =
        ({ g with bins := b, improved := some q } : Green α).add h := fun b q => by
      simp only [Green.add, hh, Option.map₂_some_some]
    rw [deposit_improved hsum, deposit_improved hg', hbins, addAt_add hshape color k y]
    simp only [bind_map_left, map_bind, hadd]
    rfl

theorem addPair_add (d : LineDeterminant α) (color : ℕ) (sign f : α) (j i : ℕ) :
    (g.add h).addPair d color sign f j i = (·.add h) <$> g.addPair d color sign f j i := by
  simp only [addPair_eq, map_bind]
  refine bind_congr fun y => bind_congr fun x => bind_congr fun entry => bind_congr fun distance =>
    ?_
  exact deposit_add hg color _ _ _

theorem addColumn_add (s : State α) (m : Model α) (d : LineDeterminant α) (color : ℕ) (sign : α)
    (j : ℕ) : (g.add h).addColumn s m d color sign j =
      (·.add h) <$> g.addColumn s m d color sign j := by
  rw [addColumn_eq, addColumn_eq, isSome_add hg]
  simp only [map_bind]
  refine bind_congr fun y => bind_congr fun f => ?_
  exact Outcome.foldlM_map (T := fun c : Green α => c.add h) (I := fun c => c.Alike h)
    (fun _ _ _ hc hd => (addPair_same hd).1.trans hc)
    (fun _ i hc => addPair_add hc d color sign f j i) hg

theorem addColor_add (s : State α) (m : Model α) (sign : α) (p : LineDeterminant α × ℕ) :
    (g.add h).addColor s m sign p = (·.add h) <$> g.addColor s m sign p :=
  Outcome.foldlM_map (T := fun c : Green α => c.add h) (I := fun c => c.Alike h)
    (fun _ _ _ hc hd => (addColumn_same hd).1.trans hc)
    (fun _ j hc => addColumn_add hc s m p.1 p.2 sign j) hg

theorem accumulate_add (s : State α) (m : Model α) (sign : α) :
    (g.add h).accumulate s m sign = (·.add h) <$> g.accumulate s m sign := by
  have hstart : { g.add h with signSum := (g.add h).signSum + sign } =
      ({ g with signSum := g.signSum + sign } : Green α).add h := by
    simp only [Green.add, add_right_comm]
  rw [accumulate_eq, accumulate_eq, hstart]
  exact Outcome.foldlM_map (T := fun c : Green α => c.add h) (I := fun c => c.Alike h)
    (fun _ _ _ hc hd => (addColor_same hd).1.trans hc) (fun _ p hc => addColor_add hc s m sign p)
    ⟨hg.beta, hg.spacing, hg.bins, hg.improved⟩

end Steps

end Green

end ImpuritySampler
