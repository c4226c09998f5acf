import ImpuritySampler.Proofs.Results.Merge

/-!
# Merging many results

The results of a family of runs are pooled if the counts are added up, every histogram is as long as
the longest one, and every entry is the weighted mean over the family. One step of merging pools two
families that have been pooled before; so does every way of merging a family, in any order and with
any brackets, and the outcome is always the same.
-/

set_option autoImplicit false

namespace ImpuritySampler.Results

variable {α : Type}

/-- A way of merging: each merge has a left and a right side. -/
inductive Merging (α : Type) where
  | replica (r : Results α)
  | pair (left right : Merging α)

namespace Merging

def leaves : Merging α → List (Results α)
  | replica r => [r]
  | pair left right => left.leaves ++ right.leaves

def chain (r : Results α) : List (Results α) → Merging α
  | [] => replica r
  | s::rest => pair (replica r) (chain s rest)

theorem leaves_chain (r : Results α) (rest : List (Results α)) :
    (chain r rest).leaves = r::rest := by
  induction rest generalizing r with
  | nil => rfl
  | cons s rest ih =>
    rw [chain, leaves, ih]
    rfl

theorem leaves_ne_nil (t : Merging α) : t.leaves ≠ [] := by
  induction t with
  | replica r => exact List.cons_ne_nil r []
  | pair left right ih _ => exact List.append_ne_nil_of_left_ne_nil ih _

def merged [Scalar α] : Merging α → Outcome α (Results α)
  | replica r => .ok r
  | pair left right => do (← left.merged).merge (← right.merged)

end Merging

variable [ExactScalar α] {a b r : Results α} {rs as bs : List (Results α)}

def total (rs : List (Results α)) (e : Entry) : α := (rs.map (·.weight e)).sum

/-- The results `r` are those of all runs of the family. -/
structure Pools (r : Results α) (rs : List (Results α)) : Prop where
  form : ∀ a ∈ rs, r.form = a.form
  measurements : r.measurements = (rs.map (·.measurements)).sum
  signSum : r.signSum = (rs.map (·.signSum)).sum
  extent : ∀ h, r.extent h = (rs.map (·.extent h)).foldr max 0
  entry : ∀ e, r.entry e = (rs.map fun a => a.weight e * a.entry e).sum / total rs e

def Weighty (rs : List (Results α)) : Prop := ∀ a ∈ rs, 0 < a.signSum ∧ 0 < a.measurements

theorem Weighty.weight (h : Weighty rs) (ha : a ∈ rs) (e : Entry) : 0 < a.weight e := by
  obtain ⟨hz, hn⟩ := h a ha
  cases e with
  | density | green | improved => exact hz
  | averageSign | totalOrder | order => exact Nat.cast_pos.mpr hn

theorem Weighty.total (h : Weighty rs) (hne : rs ≠ []) (e : Entry) : 0 < total rs e := by
  refine List.sum_pos _ (fun x hx => ?_) (by simpa using hne)
  obtain ⟨a, ha, rfl⟩ := List.mem_map.mp hx
  exact h.weight ha e

theorem total_append (as bs : List (Results α)) (e : Entry) :
    total (as ++ bs) e = total as e + total bs e := by
  rw [total, List.map_append, List.sum_append]
  rfl

theorem total_eq (rs : List (Results α)) (e : Entry) : total rs e = match e with
    | .density _ | .green _ _ | .improved _ _ => (rs.map (·.signSum)).sum
    | .averageSign | .totalOrder _ | .order _ _ => ((rs.map (·.measurements)).sum : ℕ) := by
  cases e with
  | density | green | improved => rfl
  | averageSign | totalOrder | order =>
    rw [Nat.cast_list_sum, List.map_map]
    rfl

theorem Pools.weight (h : r.Pools rs) (e : Entry) : r.weight e = total rs e := by
  rw [total_eq]
  cases e with
  | density | green | improved => exact h.signSum
  | averageSign | totalOrder | order => exact congrArg Nat.cast h.measurements

theorem Pools.singleton (h : Weighty [r]) : r.Pools [r] where
  form := fun a ha => by rw [List.mem_singleton.mp ha]
  measurements := (Nat.add_zero _).symm
  signSum := (add_zero _).symm
  extent := fun _ => (max_eq_left (Nat.zero_le _)).symm
  entry := fun e => by
    have hw := (h.weight (List.mem_singleton_self r) e).ne'
    simp only [Results.total, List.map_cons, List.map_nil, List.sum_cons, List.sum_nil, add_zero]
    rw [mul_div_cancel_left₀ _ hw]

theorem Pools.append (ha : a.Pools as) (hb : b.Pools bs) (h : r.Joins a b) (hform : a.form = b.form)
    (hwa : ∀ e, total as e ≠ 0) (hwb : ∀ e, total bs e ≠ 0) : r.Pools (as ++ bs) where
  form := fun c hc => by
    rcases List.mem_append.mp hc with hc | hc
    · exact h.form.trans (ha.form c hc)
    · exact (h.form.trans hform).trans (hb.form c hc)
  measurements := by
    rw [h.measurements, ha.measurements, hb.measurements, List.map_append, List.sum_append]
  signSum := by rw [h.signSum, ha.signSum, hb.signSum, List.map_append, List.sum_append]
  extent := fun k => by
    rw [h.extent, ha.extent, hb.extent, List.map_append, List.foldr_append]
    generalize (bs.map (·.extent k)).foldr max 0 = m
    induction as.map (·.extent k) with
    | nil => exact max_eq_right (Nat.zero_le m)
    | cons n ns ih => rw [List.foldr_cons, List.foldr_cons, max_assoc, ih]
  entry := fun e => by
    rw [h.entry, ha.weight, hb.weight, ha.entry, hb.entry, mean, mul_div_cancel₀ _ (hwa e),
      mul_div_cancel₀ _ (hwb e), List.map_append, List.sum_append, total_append]

theorem Pools.perm (h : r.Pools rs) (hp : rs.Perm as) : r.Pools as where
  form := fun a ha => h.form a (hp.mem_iff.mpr ha)
  measurements := h.measurements.trans (hp.map _).sum_eq
  signSum := h.signSum.trans (hp.map _).sum_eq
  extent := fun k => (h.extent k).trans ((hp.map _).foldr_eq 0)
  entry := fun e => by
    rw [h.entry, (hp.map _).sum_eq, Results.total, (hp.map _).sum_eq]
    rfl

theorem Pools.unique (hne : rs ≠ []) (ha : a.Pools rs) (hb : b.Pools rs) : a = b := by
  obtain ⟨c, hc⟩ := List.exists_mem_of_ne_nil rs hne
  exact eq_of_entries ((ha.form c hc).trans (hb.form c hc).symm)
    (ha.measurements.trans hb.measurements.symm) (ha.signSum.trans hb.signSum.symm)
    (fun k => (ha.extent k).trans (hb.extent k).symm) fun e => (ha.entry e).trans (hb.entry e).symm

/-- What a family has to be like to be merged. -/
structure Mergeable (rs : List (Results α)) : Prop where
  form : ∀ a ∈ rs, ∀ b ∈ rs, a.form = b.form
  beta : ∀ a ∈ rs, 0 ≤ a.beta
  weighty : Weighty rs
  count : (rs.map (·.measurements)).sum < wordLimit

theorem Mergeable.left (h : Mergeable (as ++ bs)) : Mergeable as where
  form := fun a ha b hb =>
    h.form a (List.mem_append_left bs ha) b (List.mem_append_left bs hb)
  beta := fun a ha => h.beta a (List.mem_append_left bs ha)
  weighty := fun a ha => h.weighty a (List.mem_append_left bs ha)
  count := by
    have hcount := h.count
    rw [List.map_append, List.sum_append] at hcount
    omega

theorem Mergeable.perm (h : Mergeable rs) (hp : rs.Perm as) : Mergeable as where
  form := fun a ha b hb => h.form a (hp.mem_iff.mpr ha) b (hp.mem_iff.mpr hb)
  beta := fun a ha => h.beta a (hp.mem_iff.mpr ha)
  weighty := fun a ha => h.weighty a (hp.mem_iff.mpr ha)
  count := by
    rw [← (hp.map Results.measurements).sum_eq]
    exact h.count

theorem Mergeable.right (h : Mergeable (as ++ bs)) : Mergeable bs :=
  (h.perm List.perm_append_comm).left

theorem Merging.merged_pools (t : Merging α) (h : Mergeable t.leaves) :
    ∃ r, t.merged = .ok r ∧ r.Pools t.leaves := by
  induction t with
  | replica r => exact ⟨r, rfl, .singleton h.weighty⟩
  | pair left right ihl ihr =>
    have hl : Mergeable left.leaves := h.left
    have hr : Mergeable right.leaves := h.right
    obtain ⟨a, ha, hpa⟩ := ihl hl
    obtain ⟨b, hb, hpb⟩ := ihr hr
    obtain ⟨c, hc⟩ := List.exists_mem_of_ne_nil _ left.leaves_ne_nil
    obtain ⟨d, hd⟩ := List.exists_mem_of_ne_nil _ right.leaves_ne_nil
    have hform : a.form = b.form := (hpa.form c hc).trans
      ((h.form c (List.mem_append_left _ hc) d (List.mem_append_right _ hd)).trans
        (hpb.form d hd).symm)
    have hbeta : a.beta = c.beta := congrArg Form.beta (hpa.form c hc)
    have hcount := h.count
    rw [leaves, List.map_append, List.sum_append, ← hpa.measurements, ← hpb.measurements] at hcount
    obtain ⟨r, hmerge, hjoins⟩ := merge_joins hform (hbeta ▸ hl.beta c hc) hcount
    refine ⟨r, by rw [merged, ha, Outcome.ok_bind, hb, Outcome.ok_bind, hmerge], ?_⟩
    exact hpa.append hpb hjoins hform (fun e => (hl.weighty.total left.leaves_ne_nil e).ne')
      fun e => (hr.weighty.total right.leaves_ne_nil e).ne'

/-- A family of results of one form, with positive weights, can be merged in any order and with any
brackets, and always gives the same results, with the weighted means over the family. The period
must not be negative, and all measurements together have to be counted in a word. -/
theorem merging_pools (hne : rs ≠ []) (hform : ∀ a ∈ rs, ∀ b ∈ rs, a.form = b.form)
    (hweights : ∀ a ∈ rs, 0 < a.signSum ∧ 0 < a.measurements) (hbeta : ∀ a ∈ rs, 0 ≤ a.beta)
    (hcount : (rs.map (·.measurements)).sum < wordLimit) :
    ∃ r, r.Pools rs ∧ ∀ t : Merging α, t.leaves.Perm rs → t.merged = .ok r := by
  have hrs : Mergeable rs := ⟨hform, hbeta, hweights, hcount⟩
  obtain ⟨a, rest, rfl⟩ := List.exists_cons_of_ne_nil hne
  have hleaves := Merging.leaves_chain a rest
  obtain ⟨r, -, hr⟩ := (Merging.chain a rest).merged_pools (hleaves.symm ▸ hrs)
  rw [hleaves] at hr
  refine ⟨r, hr, fun t ht => ?_⟩
  obtain ⟨b, hb, hpools⟩ := t.merged_pools (hrs.perm ht.symm)
  rw [hb, (hpools.perm ht).unique hne hr]

section Runs

def short : Results ℚ where
  beta := 2
  measurements := 1
  signSum := 1
  averageSign := some 1
  densities := some [1 / 2]
  green := some (Grid.replicate 1 2 (-1 / 2))
  improved := none
  totalOrders := some [1]
  orders := some [[1]]

def long : Results ℚ where
  beta := 2
  measurements := 4
  signSum := 2
  averageSign := some (1 / 2)
  densities := some [3 / 4]
  green := some (Grid.replicate 1 2 (-1 / 4))
  improved := none
  totalOrders := some [1 / 4, 1 / 2, 1 / 4]
  orders := some [[1 / 4, 1 / 2, 1 / 4]]

theorem merging_pools_short_long :
    ∃ r, r.Pools [short, long] ∧
      ∀ t : Merging ℚ, t.leaves.Perm [short, long] → t.merged = .ok r := by
  refine merging_pools (List.cons_ne_nil _ _) ?_ ?_ ?_ (by decide)
  · have hform : short.form = long.form := rfl
    simp [hform]
  · simp [short, long]
  · simp [short, long]

def crowded : Results ℚ := { empty 1 with measurements := Nat.pow 2 63, signSum := 1 }

def backward : Results ℚ := { empty (-1) with measurements := 1, signSum := 1 }

theorem merge_crowded : crowded.merge crowded = .error .overflow := by
  have hnear : Scalar.abs (crowded.beta - crowded.beta) ≤ Scalar.tolerance * crowded.beta :=
    near_self zero_le_one
  rw [merge, Outcome.require_true hnear]
  rfl

theorem merge_backward : backward.merge backward = .error (.mismatch (.beta (-1) (-1))) := by
  have hfar : ¬Scalar.abs (backward.beta - backward.beta) ≤ Scalar.tolerance * backward.beta := by
    rw [sub_self, Scalar.abs, if_neg (lt_irrefl 0), Scalar.tolerance_eq, not_le]
    exact mul_neg_of_pos_of_neg (by norm_num) neg_one_lt_zero
  rw [merge, Outcome.require, if_neg hfar]
  rfl

/-- Two runs with these results are of one form and have positive weights, but no results are those
of every way of merging them. -/
def Unmergeable (r : Results ℚ) : Prop :=
  (∀ a ∈ [r, r], ∀ b ∈ [r, r], a.form = b.form) ∧
  (∀ a ∈ [r, r], 0 < a.signSum ∧ 0 < a.measurements ∧ a.measurements < wordLimit) ∧
  ¬∃ s, ∀ t : Merging ℚ, t.leaves.Perm [r, r] → t.merged = .ok s

theorem unmergeable_of_error {r : Results ℚ} {e : Fault ℚ} (hz : 0 < r.signSum)
    (hn : 0 < r.measurements) (hcount : r.measurements < wordLimit)
    (h : r.merge r = .error e) : Unmergeable r := by
  refine ⟨by simp, by simp [hz, hn, hcount], ?_⟩
  rintro ⟨s, hs⟩
  have hpair : r.merge r = .ok s := hs (.pair (.replica r) (.replica r)) (.refl _)
  cases h.symm.trans hpair

/-- Both conditions are needed: two runs with too many measurements together cannot be merged, nor
can two runs with one negative period. -/
theorem merging_fails : Unmergeable crowded ∧ Unmergeable backward :=
  ⟨unmergeable_of_error one_pos (by decide) (by decide) merge_crowded,
    unmergeable_of_error one_pos one_pos (by decide) merge_backward⟩

end Runs

end ImpuritySampler.Results
