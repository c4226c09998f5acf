import ImpuritySampler.Proofs.Determinant.Exact

/-!
# Runs of a tracked determinant

Calls are made one after the other, from the empty matrix on. A caller opens at most one trial at a
time, at places in range, and commits only trials of nonzero ratio. Under this contract no call
fails, the inverse and the value stay those of the matrix of the keys, and the ratio of every trial
is that of the determinants after and before its commit. A step keeps the invariant and a run
follows by induction on its calls.
-/

set_option autoImplicit false

namespace ImpuritySampler

inductive Call (X Y : Type) where
  | insert (row col : ℕ) (x : X) (y : Y)
  | remove (row col : ℕ)
  | commit
  | discard

namespace Determinant

open Border

variable {α X Y : Type}

def pendingRatio? (d : Determinant α X Y) : Option α :=
  match d.trial with
  | .idle => none
  | .insertion t => some t.ratio
  | .removal t => some t.ratio

section Calls

variable [Scalar α]

def call (d : Determinant α X Y) : Call X Y → Outcome α (Option α × Determinant α X Y)
  | .insert row col x y => do
    let (r, d) ← d.tryInsert row col x y
    pure (some r, d)
  | .remove row col => do
    let (r, d) ← d.tryRemove row col
    pure (some r, d)
  | .commit => do pure (none, ← d.commit)
  | .discard => pure (none, d.discard)

def run : List (Call X Y) → Determinant α X Y → Outcome α (Determinant α X Y)
  | [], d => pure d
  | c::cs, d => do
    let (_, d) ← d.call c
    run cs d

def Allows (d : Determinant α X Y) : Call X Y → Prop
  | .insert row col _ _ => d.isIdle = true ∧ row ≤ d.size ∧ col ≤ d.size
  | .remove row col => d.isIdle = true ∧ row < d.size ∧ col < d.size
  | .commit => ∃ r ∈ d.pendingRatio?, ¬Scalar.Same r 0
  | .discard => True

def Obeys : List (Call X Y) → Determinant α X Y → Prop
  | [], _ => True
  | c::cs, d => d.Allows c ∧
    match d.call c with
    | .ok (_, d) => Obeys cs d
    | .error _ => True

instance (d : Determinant α X Y) (c : Call X Y) : Decidable (d.Allows c) := by
  cases c with
  | insert row col x y => exact inferInstanceAs (Decidable (_ ∧ _ ∧ _))
  | remove row col => exact inferInstanceAs (Decidable (_ ∧ _ ∧ _))
  | commit =>
    exact match h : d.pendingRatio? with
      | none => isFalse fun ⟨r, hr, _⟩ => by simp [h] at hr
      | some r => decidable_of_iff (¬Scalar.Same r 0) (by simp [Allows, h])
  | discard => exact isTrue trivial

instance decidableObeys : (cs : List (Call X Y)) → (d : Determinant α X Y) → Decidable (Obeys cs d)
  | [], _ => isTrue trivial
  | c::cs, d =>
    have : Decidable (match d.call c with
        | .ok (_, d) => Obeys cs d
        | .error _ => True) :=
      match d.call c with
      | .ok (_, d) => decidableObeys cs d
      | .error _ => isTrue trivial
    inferInstanceAs (Decidable (_ ∧ _))

theorem obeys_left {cs cs' : List (Call X Y)} {d : Determinant α X Y}
    (h : Obeys (cs ++ cs') d) : Obeys cs d := by
  induction cs generalizing d with
  | nil => trivial
  | cons c cs ih =>
    refine ⟨h.1, ?_⟩
    have hcs := h.2
    cases hc : d.call c with
    | error f => trivial
    | ok rd =>
      simp only [hc] at hcs
      exact ih hcs

theorem obeys_right {cs cs' : List (Call X Y)} {d d' : Determinant α X Y}
    (hr : run cs d = .ok d') (h : Obeys (cs ++ cs') d) : Obeys cs' d' := by
  induction cs generalizing d with
  | nil =>
    cases hr
    exact h
  | cons c cs ih =>
    obtain ⟨rd, hc, hr⟩ := Outcome.bind_eq_ok.mp hr
    have hcs := h.2
    simp only [hc] at hcs
    exact ih hr hcs

end Calls

section Effects

variable [ExactScalar α]

/-- The trial that turned `d` into `opened` leaves everything else alone, its commit gives the keys
`rows` and `cols`, and `ratio` is the quotient of the determinants after and before the commit. -/
structure Announces (d opened : Determinant α X Y) (ratio : α) (rows : List X) (cols : List Y) :
    Prop where
  unchanged : opened.discard = d
  commits : ∃ after, opened.commit = .ok after ∧ after.rowKeys = rows ∧ after.colKeys = cols ∧
    ∃ (n m : ℕ) (A : Matrix (Fin n) (Fin n) α) (B : Matrix (Fin m) (Fin m) α),
      d.HasMatrix A ∧ after.HasMatrix B ∧ A.det ≠ 0 ∧ ratio = B.det / A.det

def Effect (d : Determinant α X Y) : Call X Y → Option α → Determinant α X Y → Prop
  | .insert row col x y, r, d' => ∃ ratio, r = some ratio ∧
      d.Announces d' ratio (d.rowKeys.insertIdx row x) (d.colKeys.insertIdx col y)
  | .remove row col, r, d' => ∃ ratio, r = some ratio ∧
      d.Announces d' ratio (d.rowKeys.eraseIdx row) (d.colKeys.eraseIdx col)
  | .commit, r, d' => r = none ∧ d.commit = .ok d' ∧ d'.isIdle = true
  | .discard, r, d' => r = none ∧ d' = { d with trial := .idle }

/-- The pending trial, if there is one, was opened on the determinant as it is. -/
def Opened (d : Determinant α X Y) {n : ℕ} (A : Matrix (Fin n) (Fin n) α) : Prop :=
  match d.trial with
  | .idle => True
  | .insertion t => ∃ i j B, d.PricedInsertion A i j t B
  | .removal t => ∃ i j, i < n ∧ j < n ∧ t = d.removalTrial i j

/-- What every call keeps. -/
structure Tracked (d : Determinant α X Y) (e : X → Y → α) : Prop where
  element : d.element = fun x y => .ok (e x y)
  exact : ∃ (n : ℕ) (A : Matrix (Fin n) (Fin n) α), d.Exact A ∧ d.Opened A

end Effects

theorem isIdle_trial {d : Determinant α X Y} (h : d.isIdle = true) : d.trial = .idle := by
  unfold isIdle at h
  split at h
  · assumption
  · cases h

theorem discard_trial {d : Determinant α X Y} (h : d.isIdle = true) (t : Trial α X Y) :
    { d with trial := t }.discard = d := by
  rw [discard, ← isIdle_trial h]

theorem rule_adds {d : Determinant α X Y} {e : X → Y → α}
    (he : d.element = fun x y => .ok (e x y)) (x : X) (y : Y) :
    d.Adds x y (d.rowKeys.map (e · y)) (d.colKeys.map (e x)) (e x y) where
  column := Outcome.mapM_eq_ok fun key _ => by rw [he]
  row := Outcome.mapM_eq_ok fun key _ => by rw [he]
  corner := by rw [he]

section Steps

variable [ExactScalar α] {d : Determinant α X Y} {e : X → Y → α}

theorem insert_step (hd : d.Tracked e) {row col : ℕ} {x : X} {y : Y}
    (ha : d.Allows (.insert row col x y)) :
    ∃ r d', d.call (.insert row col x y) = .ok (r, d') ∧ d'.Tracked e ∧
      d.Effect (.insert row col x y) r d' := by
  obtain ⟨n, A, hA, -⟩ := hd.exact
  obtain ⟨hidle, hrow, hcol⟩ := ha
  have hn := hA.size
  obtain ⟨t, B, ht, hx, hy, hB⟩ := tryInsert_priced hA hidle ⟨row, by omega⟩ ⟨col, by omega⟩
    (rule_adds hd.element x y)
  refine ⟨some t.ratio, { d with trial := .insertion t }, ?_, ⟨hd.element, n, A, ?_, ?_⟩,
    t.ratio, rfl, discard_trial hidle _, d.commitInsertion t, rfl, ?_, ?_, n, n + 1, A, B,
    hA.matrix, hB.matrix, hA.det_ne_zero, hB.ratio⟩
  · rw [call]
    exact congrArg (· >>= _) ht
  · exact hA.with_trial _
  · exact ⟨_, _, B, hB.with_trial _⟩
  · show d.rowKeys.insertIdx t.row t.x = _
    rw [hB.prices.row, hx]
  · show d.colKeys.insertIdx t.col t.y = _
    rw [hB.prices.col, hy]

theorem remove_step (hd : d.Tracked e) {row col : ℕ} (ha : d.Allows (.remove row col)) :
    ∃ r d', d.call (.remove row col) = .ok (r, d') ∧ d'.Tracked e ∧
      d.Effect (.remove row col) r d' := by
  obtain ⟨n, A, hA, -⟩ := hd.exact
  obtain ⟨hidle, hrow, hcol⟩ := ha
  have hn := hA.size
  obtain ⟨m, rfl⟩ : ∃ m, n = m + 1 := ⟨n - 1, by omega⟩
  let i : Fin (m + 1) := ⟨row, by omega⟩
  let j : Fin (m + 1) := ⟨col, by omega⟩
  refine ⟨some (d.removalTrial row col).ratio,
    { d with trial := .removal (d.removalTrial row col) }, ?_, ⟨hd.element, m + 1, A, ?_, ?_⟩,
    _, rfl, discard_trial hidle _, d.commitRemoval (d.removalTrial row col), rfl, rfl, rfl,
    m + 1, m, A, _, hA.matrix, commitRemoval_hasMatrix hA.matrix i j, hA.det_ne_zero,
    removalTrial_ratio_eq hA i j⟩
  · rw [call, tryRemove_eq_ok hidle hrow hcol]
    rfl
  · exact hA.with_trial _
  · exact ⟨row, col, i.isLt, j.isLt, rfl⟩

theorem commit_step (hd : d.Tracked e) (ha : d.Allows .commit) :
    ∃ r d', d.call .commit = .ok (r, d') ∧ d'.Tracked e ∧ d.Effect .commit r d' := by
  obtain ⟨n, A, hA, hopen⟩ := hd.exact
  obtain ⟨r, hr, hne⟩ := ha
  rw [Scalar.same_iff] at hne
  cases htrial : d.trial with
  | idle => simp [pendingRatio?, htrial] at hr
  | insertion t =>
    have hcommit : d.commit = .ok (d.commitInsertion t) := by rw [commit, htrial]
    simp only [pendingRatio?, htrial, Option.mem_some_iff] at hr
    simp only [Opened, htrial] at hopen
    obtain ⟨i, j, B, hB⟩ := hopen
    refine ⟨none, d.commitInsertion t, ?_, ⟨hd.element, n + 1, B, ?_, trivial⟩, rfl, hcommit, rfl⟩
    · rw [call, hcommit]
      rfl
    · exact commitInsertion_exact hA hB (hr ▸ hne)
  | removal t =>
    have hcommit : d.commit = .ok (d.commitRemoval t) := by rw [commit, htrial]
    simp only [pendingRatio?, htrial, Option.mem_some_iff] at hr
    simp only [Opened, htrial] at hopen
    obtain ⟨row, col, hrow, hcol, rfl⟩ := hopen
    obtain ⟨m, rfl⟩ : ∃ m, n = m + 1 := ⟨n - 1, by omega⟩
    refine ⟨none, d.commitRemoval (d.removalTrial row col), ?_,
      ⟨hd.element, m, core A ⟨row, hrow⟩ ⟨col, hcol⟩, ?_, trivial⟩, rfl, hcommit, rfl⟩
    · rw [call, hcommit]
      rfl
    · exact commitRemoval_exact hA ⟨row, hrow⟩ ⟨col, hcol⟩ (hr ▸ hne)

theorem call_step (hd : d.Tracked e) {c : Call X Y} (ha : d.Allows c) :
    ∃ r d', d.call c = .ok (r, d') ∧ d'.Tracked e ∧ d.Effect c r d' := by
  cases c with
  | insert row col x y => exact insert_step hd ha
  | remove row col => exact remove_step hd ha
  | commit => exact commit_step hd ha
  | discard =>
    obtain ⟨n, A, hA, -⟩ := hd.exact
    exact ⟨none, d.discard, rfl, ⟨hd.element, n, A, hA.with_trial _, trivial⟩, rfl, rfl⟩

theorem run_tracked (hd : d.Tracked e) {calls : List (Call X Y)} (ho : Obeys calls d) :
    ∃ d', run calls d = .ok d' ∧ d'.Tracked e := by
  induction calls generalizing d with
  | nil => exact ⟨d, rfl, hd⟩
  | cons c cs ih =>
    obtain ⟨r, d₁, hc, hd₁, -⟩ := call_step hd ho.1
    have hcs := ho.2
    simp only [hc] at hcs
    obtain ⟨d', hr, hd'⟩ := ih hd₁ hcs
    refine ⟨d', ?_, hd'⟩
    rw [run, hc]
    exact hr

end Steps

variable [ExactScalar α]

theorem empty_tracked (e : X → Y → α) : (empty fun x y => .ok (e x y)).Tracked e where
  element := rfl
  exact := ⟨0, 0, empty_exact _, trivial⟩

/-- After every call of a run that obeys the contract, the determinant is exact, and the call has
had its effect on an exact determinant. -/
theorem run_exact (e : X → Y → α) (calls : List (Call X Y)) (c : Call X Y)
    (h : Obeys (calls ++ [c]) (empty fun x y => .ok (e x y))) :
    ∃ d r d', run calls (empty fun x y => .ok (e x y)) = .ok d ∧ d.call c = .ok (r, d') ∧
      (∃ (n : ℕ) (A : Matrix (Fin n) (Fin n) α), d.Exact A) ∧
      (∃ (n : ℕ) (A : Matrix (Fin n) (Fin n) α), d'.Exact A) ∧ d.Effect c r d' := by
  obtain ⟨d, hrun, hd⟩ := run_tracked (empty_tracked e) (obeys_left h)
  obtain ⟨r, d', hcall, hd', heffect⟩ := call_step hd (obeys_right hrun h).1
  obtain ⟨n, A, hA, -⟩ := hd.exact
  obtain ⟨n', A', hA', -⟩ := hd'.exact
  exact ⟨d, r, d', hrun, hcall, ⟨n, A, hA⟩, ⟨n', A', hA'⟩, heffect⟩

def hilbert (x y : ℕ) : ℚ := 1 / (x + y + 1)

def hilbertCalls : List (Call ℕ ℕ) :=
  [.insert 0 0 2 0, .commit, .insert 0 1 0 3, .commit, .insert 2 2 5 5, .discard, .remove 1 0]

theorem run_exact_hilbert :
    Obeys (hilbertCalls ++ [.commit]) (empty fun x y => .ok (hilbert x y)) ∧
    ∃ d r d', run hilbertCalls (empty fun x y => .ok (hilbert x y)) = .ok d ∧
      d.call .commit = .ok (r, d') ∧
      (∃ (n : ℕ) (A : Matrix (Fin n) (Fin n) ℚ), d.Exact A) ∧
      (∃ (n : ℕ) (A : Matrix (Fin n) (Fin n) ℚ), d'.Exact A) ∧ d.Effect .commit r d' := by
  have h : Obeys (hilbertCalls ++ [.commit]) (empty fun x y => .ok (hilbert x y)) := by
    decide +kernel
  exact ⟨h, run_exact hilbert hilbertCalls .commit h⟩

end Determinant
end ImpuritySampler
