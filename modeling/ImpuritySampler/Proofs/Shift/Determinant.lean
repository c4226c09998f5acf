import ImpuritySampler.Proofs.Determinant.Exact
import ImpuritySampler.Proofs.Shift.Sign

/-!
# Determinants under another origin

The keys of a color keep their order around the cycle, so that the sorted keys are rotated by the
number of those that pass the end of the axis. The elements of such a row or column change their
sign, as the hybridization function is continued antiperiodically. Together they give the
determinant of `n` rows the sign of one transposition per row for each key that passes.
-/

set_option autoImplicit false

namespace ImpuritySampler

open Time

section Rotation

variable {β : Type} {n : ℕ}

theorem exists_ofFn {l : List β} (h : l.length = n) : ∃ x : Fin n → β, l = List.ofFn x := by
  subst h
  exact ⟨l.get, (List.ofFn_get l).symm⟩

theorem ofFn_rotate_one (x : Fin n → β) :
    (List.ofFn x).rotate 1 = List.ofFn (x ∘ finRotate n) := by
  cases n with
  | zero => simp
  | succ n =>
    apply List.ext_getElem (by simp)
    intro i h₁ h₂
    have hi : i < n + 1 := by simpa using h₂
    rw [List.getElem_rotate, List.getElem_ofFn, List.getElem_ofFn, Function.comp_apply,
      finRotate_apply]
    congr 1
    ext
    simp [Fin.val_add]

theorem ofFn_rotate (x : Fin n → β) (k : ℕ) :
    (List.ofFn x).rotate k = List.ofFn (x ∘ (finRotate n ^ k : Equiv.Perm (Fin n))) := by
  induction k with
  | zero => simp
  | succ k ih =>
    rw [← List.rotate_rotate, ih, ofFn_rotate_one, pow_succ]
    rfl

theorem sign_rotate_pow (n k : ℕ) :
    (finRotate n ^ k : Equiv.Perm (Fin n)).sign = (-1) ^ ((n - 1) * k) := by
  cases n with
  | zero => simp
  | succ n => rw [map_pow, sign_finRotate, Nat.add_sub_cancel, pow_mul]

variable {R : Type} [CommRing R]

theorem det_rotate {A B : Matrix (Fin n) (Fin n) R} {v w : Fin n → R} {a b : ℕ}
    (h : ∀ i j, B i j = v ((finRotate n ^ a) i) * w ((finRotate n ^ b) j) *
      A ((finRotate n ^ a) i) ((finRotate n ^ b) j)) :
    B.det = (-1) ^ ((n - 1) * (a + b)) * ((∏ i, v i) * ∏ j, w j) * A.det := by
  have hsub : B = ((Matrix.of fun i j => v i * (Matrix.of fun i j => w j * A i j) i j).submatrix
      (finRotate n ^ a : Equiv.Perm (Fin n)) id).submatrix id
      (finRotate n ^ b : Equiv.Perm (Fin n)) := by
    ext i j
    exact (h i j).trans (mul_assoc _ _ _)
  rw [hsub, Matrix.det_permute', Matrix.det_permute, sign_rotate_pow, sign_rotate_pow,
    Matrix.det_mul_column, Matrix.det_mul_row, mul_add, pow_add]
  push_cast
  ring

end Rotation

section Keys

variable {β : Type} {key : β → ℕ} {l : List β} {p : β → Bool}

theorem Falling.filter_append (h : Falling key l)
    (hp : ∀ x y, key x < key y → p x = true → p y = true) :
    l.filter p ++ l.filter (fun x => !p x) = l := by
  induction l with
  | nil => rfl
  | cons z l ih =>
    obtain ⟨hz, hl⟩ := List.pairwise_cons.mp h
    cases hpz : p z with
    | true => simpa [hpz] using ih hl
    | false =>
      have hnone : ∀ y ∈ l, p y = false := fun y hy => by
        by_contra hpy
        rw [hp y z (hz y hy) (Bool.eq_true_of_not_eq_false hpy)] at hpz
        cases hpz
      rw [List.filter_eq_nil_iff.mpr fun y hy => ?_, List.nil_append,
        List.filter_eq_self.mpr fun y hy => ?_]
      · rcases List.mem_cons.mp hy with rfl | hy
        · rw [hpz]
          rfl
        · rw [hnone y hy]
          rfl
      · rcases List.mem_cons.mp hy with rfl | hy
        · rw [hpz]
          decide
        · rw [hnone y hy]
          decide

variable {α : Type} {beta : α} {d : ℕ} {keys : List (Key α)} {ticks : List ℕ}

def Key.shift (d : ℕ) (k : Key α) : Key α := ⟨k.time.shift d, k.orbital⟩

def shiftKeys (d : ℕ) (keys : List (Key α)) : List (Key α) :=
  (keys.map (Key.shift d)).mergeSort fun j k => decide (k.time.ticks ≤ j.time.ticks)

theorem shiftKeys_perm (d : ℕ) (keys : List (Key α)) :
    (shiftKeys d keys).Perm (keys.map (Key.shift d)) := List.mergeSort_perm _ _

/-- The keys that do not pass the end of the axis come first. -/
theorem Keyed.falling_shift (h : Keyed beta keys ticks) (d : ℕ) :
    Falling (·.time.ticks) ((keys.filter fun k => !crosses d k.time.ticks).map (Key.shift d) ++
      (keys.filter fun k => crosses d k.time.ticks).map (Key.shift d)) := by
  have hpart : ∀ p : Key α → Bool, (∀ j k, p j = true → p k = true →
        crosses d j.time.ticks = crosses d k.time.ticks) →
      Falling (·.time.ticks) ((keys.filter p).map (Key.shift d)) := by
    intro p hp
    refine List.pairwise_map.mpr ((h.falling.sublist List.filter_sublist).imp_of_mem ?_)
    intro j k hj hk hlt
    obtain ⟨hj, hpj⟩ := List.mem_filter.mp hj
    obtain ⟨hk, hpk⟩ := List.mem_filter.mp hk
    have hsame := hp j k hpj hpk
    show ahead k.time.ticks d < ahead j.time.ticks d
    have h₁ := ahead_cases (h.points j hj).1.lt d
    have h₂ := ahead_cases (h.points k hk).1.lt d
    grind
  refine List.pairwise_append.mpr ⟨hpart _ ?_, hpart _ ?_, ?_⟩
  · intro j k hj hk
    grind
  · intro j k hj hk
    exact hj.trans hk.symm
  · intro j hj k hk
    obtain ⟨j, hj', rfl⟩ := List.mem_map.mp hj
    obtain ⟨k, hk', rfl⟩ := List.mem_map.mp hk
    obtain ⟨hj, hpj⟩ := List.mem_filter.mp hj'
    obtain ⟨hk, hpk⟩ := List.mem_filter.mp hk'
    show ahead k.time.ticks d < ahead j.time.ticks d
    have hlt := (h.points k hk).1.lt
    have h₁ := ahead_cases (h.points j hj).1.lt d
    have h₂ := ahead_cases hlt d
    grind

/-- The keys that pass it have been the first ones. -/
theorem Keyed.rotate_eq (h : Keyed beta keys ticks) (d : ℕ) :
    (keys.map (Key.shift d)).rotate (ticks.countP (crosses d)) =
      (keys.filter fun k => !crosses d k.time.ticks).map (Key.shift d) ++
        (keys.filter fun k => crosses d k.time.ticks).map (Key.shift d) := by
  have hsplit := h.falling.filter_append fun j k hlt hj => crosses_mono (d := d) hlt.le hj
  have hmap : keys.map (Key.shift d) =
      (keys.filter fun k => crosses d k.time.ticks).map (Key.shift d) ++
        (keys.filter fun k => !crosses d k.time.ticks).map (Key.shift d) := by
    rw [← List.map_append, hsplit]
  have hcount : ticks.countP (crosses d) =
      ((keys.filter fun k => crosses d k.time.ticks).map (Key.shift d)).length := by
    rw [List.length_map, ← List.countP_eq_length_filter, ← h.perm.countP_eq, List.countP_map]
    rfl
  rw [hmap, hcount, List.rotate_append_length_eq]

theorem Keyed.shiftKeys_eq (h : Keyed beta keys ticks) (d : ℕ) :
    shiftKeys d keys = (keys.map (Key.shift d)).rotate (ticks.countP (crosses d)) := by
  have hfalling := h.rotate_eq d ▸ h.falling_shift d
  have hperm := List.rotate_perm (keys.map (Key.shift d)) (ticks.countP (crosses d))
  have hnodup : ((keys.map (Key.shift d)).map (·.time.ticks)).Nodup :=
    (hperm.map _).nodup_iff.mp hfalling.nodup
  exact Falling.eq_of_perm (falling_mergeSort hnodup) hfalling
    ((shiftKeys_perm d keys).trans hperm.symm)

theorem Keyed.shiftKeys_ofFn {n : ℕ} {x : Fin n → Key α} (h : Keyed beta keys ticks)
    (hx : keys = List.ofFn x) (d : ℕ) : shiftKeys d keys = List.ofFn fun i =>
      Key.shift d (x ((finRotate n ^ ticks.countP (crosses d) : Equiv.Perm (Fin n)) i)) := by
  rw [h.shiftKeys_eq, hx, List.map_ofFn, ofFn_rotate]
  rfl

theorem Keyed.shift (h : Keyed beta keys ticks) (d : ℕ) :
    Keyed beta (shiftKeys d keys) (ticks.map (ahead · d)) := by
  have hperm := shiftKeys_perm d keys
  refine ⟨?_, ?_, fun k hk => ?_⟩
  · rw [h.shiftKeys_eq, h.rotate_eq]
    exact h.falling_shift d
  · have hticks : (keys.map (Key.shift d)).map (·.time.ticks) =
        (keys.map (·.time.ticks)).map (ahead · d) := by
      rw [List.map_map, List.map_map]
      rfl
    exact (hperm.map _).trans (hticks ▸ h.perm.map _)
  · obtain ⟨j, hj, rfl⟩ := List.mem_map.mp (hperm.mem_iff.mp hk)
    exact ⟨(h.points j hj).1.shift d, (h.points j hj).2⟩

end Keys

section Antiperiodic

variable {α : Type} [ExactScalar α] {beta : α} {delta : ℕ → α} {d : ℕ}

/-- The elements between keys of orbital zero are the values of a function at their cyclic distance,
continued with the other sign if the row is the earlier one. -/
def Antiperiodic (beta : α) (delta : ℕ → α) (element : Key α → Key α → Outcome α α) : Prop :=
  ∀ x y : Key α, x.time.IsPoint beta ∧ x.orbital = 0 → y.time.IsPoint beta ∧ y.orbital = 0 →
    element x y = .ok ((if y.time.ticks ≤ x.time.ticks then 1 else -1) *
      delta (gap x.time.ticks y.time.ticks))

theorem Hybridization.antiperiodic {h : Hybridization α}
    (hv : ∀ k < ticksPerPeriod, ∃ v, h.value (scale k beta) 0 0 = .ok v) :
    ∃ delta, Antiperiodic beta delta h.element := by
  choose! delta hdelta using hv
  refine ⟨delta, fun x y hx hy => ?_⟩
  have hvalue := hdelta _ (gap_lt hx.1.lt y.time.ticks)
  rw [element, Time.sub_eq hx.1 hy.1, Outcome.ok_bind, hx.2, hy.2, Time.value, hvalue]
  split_ifs <;> simp

/-- An element between two keys `d` ticks later changes its sign for each of the two that passes the
end of the axis. -/
def Turning (beta : α) (d : ℕ) (element : Key α → Key α → Outcome α α) : Prop :=
  ∀ x y : Key α, x.time.IsPoint beta ∧ x.orbital = 0 → y.time.IsPoint beta ∧ y.orbital = 0 →
    ∀ a, element x y = .ok a → element (x.shift d) (y.shift d) =
      .ok (turn d x.time.ticks * turn d y.time.ticks * a)

theorem Antiperiodic.turning {element : Key α → Key α → Outcome α α}
    (h : Antiperiodic beta delta element) (d : ℕ) : Turning beta d element := by
  intro x y hx hy a ha
  rw [h x y hx hy, Except.ok.injEq] at ha
  rw [← ha, ← mul_assoc, ← order_ahead hx.1.lt hy.1.lt, ← gap_ahead hx.1.lt hy.1.lt d]
  exact h (x.shift d) (y.shift d) ⟨hx.1.shift d, hx.2⟩ ⟨hy.1.shift d, hy.2⟩

/-- All keys of a determinant `d` ticks later. What is kept of the old order of the keys, the
inverse and the value, is left as it is. -/
def Determinant.shift (d : ℕ) (D : LineDeterminant α) : LineDeterminant α :=
  { D with rowKeys := shiftKeys d D.rowKeys, colKeys := shiftKeys d D.colKeys }

theorem Determinant.hasMatrix_ofFn {X Y : Type} {D : Determinant α X Y} {n : ℕ} {x : Fin n → X}
    {y : Fin n → Y} {A : Matrix (Fin n) (Fin n) α} (hx : D.rowKeys = List.ofFn x)
    (hy : D.colKeys = List.ofFn y) (h : ∀ i j, D.element (x i) (y j) = .ok (A i j)) :
    D.HasMatrix A := by
  refine hasMatrix_iff.mpr ⟨by simp [hx], by simp [hy], fun i j => ⟨x i, y j, ?_, ?_, h i j⟩⟩
  · simp [hx]
  · simp [hy]

theorem Keyed.prod_eq {keys : List (Key α)} {ticks : List ℕ} {n : ℕ} {x : Fin n → Key α}
    (h : Keyed beta keys ticks) (hx : keys = List.ofFn x) (f : ℕ → α) :
    ∏ i, f (x i).time.ticks = (ticks.map f).prod := by
  rw [← (h.perm.map f).prod_eq, hx, List.map_map, List.map_ofFn, List.prod_ofFn]
  rfl

theorem Determinant.HasMatrix.element_ofFn {X Y : Type} {D : Determinant α X Y} {n : ℕ}
    {x : Fin n → X} {y : Fin n → Y} {A : Matrix (Fin n) (Fin n) α} (h : D.HasMatrix A)
    (hx : D.rowKeys = List.ofFn x) (hy : D.colKeys = List.ofFn y) (i j : Fin n) :
    D.element (x i) (y j) = .ok (A i j) := by
  obtain ⟨x', y', hx', hy', he⟩ := (hasMatrix_iff.mp h).2.2 i j
  have hrow : D.rowKeys[(i : ℕ)]? = some (x i) := by simp [hx]
  have hcol : D.colKeys[(j : ℕ)]? = some (y j) := by simp [hy]
  cases hrow.symm.trans hx'
  cases hcol.symm.trans hy'
  exact he

/-- The matrix of the later keys has the rows and columns in the new order, with the signs of those
that have passed the end of the axis. -/
theorem Determinant.HasMatrix.shift {D : LineDeterminant α} {rows cols : List ℕ} {n : ℕ}
    {x y : Fin n → Key α} {A : Matrix (Fin n) (Fin n) α} (hA : D.HasMatrix A)
    (he : Turning beta d D.element) (hr : Keyed beta D.rowKeys rows)
    (hc : Keyed beta D.colKeys cols) (hx : D.rowKeys = List.ofFn x)
    (hy : D.colKeys = List.ofFn y) (B : Matrix (Fin n) (Fin n) α) :
    (D.shift d).HasMatrix B ↔ ∀ i j, B i j =
      turn d (x ((finRotate n ^ rows.countP (crosses d)) i)).time.ticks *
        turn d (y ((finRotate n ^ cols.countP (crosses d)) j)).time.ticks *
        A ((finRotate n ^ rows.countP (crosses d)) i)
          ((finRotate n ^ cols.countP (crosses d)) j) := by
  have hrow : ∀ i, (x i).time.IsPoint beta ∧ (x i).orbital = 0 := fun i =>
    hr.points _ (hx ▸ List.mem_ofFn.mpr ⟨i, rfl⟩)
  have hcol : ∀ j, (y j).time.IsPoint beta ∧ (y j).orbital = 0 := fun j =>
    hc.points _ (hy ▸ List.mem_ofFn.mpr ⟨j, rfl⟩)
  have hshifted := fun i j => he _ _ (hrow i) (hcol j) _ (hA.element_ofFn hx hy i j)
  constructor
  · intro hB i j
    have helement := hB.element_ofFn (hr.shiftKeys_ofFn hx d) (hc.shiftKeys_ofFn hy d) i j
    exact Except.ok.inj (helement.symm.trans (hshifted _ _))
  · intro hB
    refine hasMatrix_ofFn (hr.shiftKeys_ofFn hx d) (hc.shiftKeys_ofFn hy d) ?_
    intro i j
    rw [hB]
    exact hshifted _ _

/-- Each key that passes the end of the axis has its row or column moved past all others and turned
around. -/
theorem Determinant.shift_det {D : LineDeterminant α} {rows cols : List ℕ} {n : ℕ}
    (he : Antiperiodic beta delta D.element) (hr : Keyed beta D.rowKeys rows)
    (hc : Keyed beta D.colKeys cols) (hn : rows.length = n) (hm : cols.length = n) :
    ∃ A A' : Matrix (Fin n) (Fin n) α, D.HasMatrix A ∧ (D.shift d).HasMatrix A' ∧
      A'.det = (-1) ^ (n * (rows.countP (crosses d) + cols.countP (crosses d))) * A.det := by
  obtain ⟨x, hx⟩ := exists_ofFn (n := n) (by rw [← hn, ← hr.perm.length_eq, List.length_map] :
    D.rowKeys.length = n)
  obtain ⟨y, hy⟩ := exists_ofFn (n := n) (by rw [← hm, ← hc.perm.length_eq, List.length_map] :
    D.colKeys.length = n)
  obtain ⟨A, hA⟩ : ∃ A : Matrix (Fin n) (Fin n) α, D.HasMatrix A := by
    refine ⟨Matrix.of fun i j => (if (y j).time.ticks ≤ (x i).time.ticks then 1 else -1) *
      delta (gap (x i).time.ticks (y j).time.ticks), hasMatrix_ofFn hx hy ?_⟩
    intro i j
    exact he _ _ (hr.points _ (hx ▸ List.mem_ofFn.mpr ⟨i, rfl⟩))
      (hc.points _ (hy ▸ List.mem_ofFn.mpr ⟨j, rfl⟩))
  obtain ⟨B, hB⟩ : ∃ B : Matrix (Fin n) (Fin n) α, ∀ i j, B i j =
      turn d (x ((finRotate n ^ rows.countP (crosses d)) i)).time.ticks *
        turn d (y ((finRotate n ^ cols.countP (crosses d)) j)).time.ticks *
        A ((finRotate n ^ rows.countP (crosses d)) i)
          ((finRotate n ^ cols.countP (crosses d)) j) := ⟨Matrix.of _, fun _ _ => rfl⟩
  refine ⟨A, B, hA, (hA.shift (he.turning d) hr hc hx hy B).mpr hB, ?_⟩
  rw [det_rotate (v := fun i => turn d (x i).time.ticks) (w := fun j => turn d (y j).time.ticks) hB,
    hr.prod_eq hx (turn d), hc.prod_eq hy (turn d), Time.prod_turn, Time.prod_turn, ← pow_add,
    ← pow_add]
  congr 2
  cases n with
  | zero => simp [List.length_eq_zero_iff.mp hn, List.length_eq_zero_iff.mp hm]
  | succ n => rw [Nat.add_sub_cancel, Nat.succ_mul]

end Antiperiodic

end ImpuritySampler
