import ImpuritySampler.Proofs.Measure.Collect

/-!
# The distribution of the orders

Every call counts the order of each color and the sum of these orders. A histogram grows when an
order is met that is larger than all before it, so that it ends with an order that was met, and sums
over its entries are sums over the calls. Divided by the number of calls, the histograms are
distributions, and the mean of the total order is the sum of the means of the colors.
-/

set_option autoImplicit false

namespace ImpuritySampler

theorem sum_range_getD {β : Type} [AddCommMonoid β] (f : List β) :
    ∑ k ∈ Finset.range f.length, f.getD k 0 = f.sum := by
  rw [Finset.sum_range, ← Fin.sum_univ_getElem]
  exact Finset.sum_congr rfl fun k _ => List.getD_eq_getElem _ _ k.isLt

namespace Orders

section Histograms

def weigh (w : ℕ → ℕ) (h : List ℕ) : ℕ := ∑ k ∈ Finset.range h.length, w k * h.getD k 0

theorem weigh_eq (w : ℕ → ℕ) {h : List ℕ} {n : ℕ} (hn : h.length ≤ n) :
    ∑ k ∈ Finset.range n, w k * h.getD k 0 = weigh w h := by
  symm
  apply Finset.sum_subset (Finset.range_mono hn)
  intro k _ hk
  rw [Finset.mem_range, not_lt] at hk
  rw [List.getD_eq_default _ _ hk, mul_zero]

theorem weigh_record (w : ℕ → ℕ) (h : List ℕ) (n : ℕ) :
    weigh w (record h n) = weigh w h + w n := by
  have hlength := length_record h n
  have hmem : n ∈ Finset.range (record h n).length := by
    rw [Finset.mem_range]
    omega
  have hnew : ∑ k ∈ Finset.range (record h n).length, w k * (if n = k then 1 else 0) = w n := by
    simp only [mul_ite, mul_one, mul_zero, Finset.sum_ite_eq, if_pos hmem]
  rw [weigh]
  simp only [getD_record, mul_add, Finset.sum_add_distrib]
  rw [hnew, weigh_eq w (by omega)]

/-- How often each order occurs in a list of them, up to the largest. -/
structure Counts (h orders : List ℕ) : Prop where
  entry : ∀ k, h.getD k 0 = orders.count k
  sums : ∀ w, weigh w h = (orders.map w).sum
  last : ∀ k, h.length = k + 1 → h.getD k 0 ≠ 0

theorem counts_nil : Counts [] [] where
  entry := fun _ => rfl
  sums := fun _ => rfl
  last := fun _ h => absurd h.symm (Nat.succ_ne_zero _)

theorem Counts.record {h orders : List ℕ} (hc : Counts h orders) (n : ℕ) :
    Counts (record h n) (orders ++ [n]) where
  entry := fun k => by
    rw [getD_record, hc.entry, List.count_append, List.count_singleton]
    simp only [beq_iff_eq]
  sums := fun w => by
    rw [weigh_record, hc.sums, List.map_append, List.sum_append, List.map_singleton,
      List.sum_singleton]
  last := fun k hk => by
    rw [length_record] at hk
    rw [getD_record]
    by_cases hn : n = k
    · rw [if_pos hn]
      exact Nat.succ_ne_zero _
    · -- The histogram did not grow, so it still ends where it did.
      rw [if_neg hn]
      exact hc.last k (by omega)

end Histograms

section Runs

variable {α : Type} {n : ℕ}

def order (s : State α) : Option ℕ → ℕ
  | none => (s.determinants.map Determinant.size).sum
  | some c => (s.determinants.map Determinant.size).getD c 0

theorem histogram_accumulate {o : Orders} {s : State α} (ho : o.colors.length = n)
    (hs : s.determinants.length = n) {k : Option ℕ} (hk : ∀ c ∈ k, c < n) :
    (o.accumulate s).histogram k = record (o.histogram k) (order s k) := by
  have hsizes : o.sizes s = s.determinants.map Determinant.size := by
    rw [sizes, List.take_of_length_le (by rw [List.length_map, hs, ho])]
  rw [accumulate_eq, hsizes]
  cases k with
  | none => rw [histogram, histogram, order, List.sum_eq_foldl]
  | some c =>
    have hc : c < n := hk c rfl
    rw [histogram, histogram, order, recordAll, List.drop_of_length_le
      (by rw [List.length_map, hs, ho]), List.append_nil]
    simp [List.getD_eq_getElem?_getD, ho, hs, hc]

/-- What the calls with these states have counted, in all and for each of `n` colors. -/
structure Counted (n : ℕ) (o : Orders) (states : List (State α)) : Prop where
  colors : o.colors.length = n
  measurements : o.measurements = states.length
  histogram : ∀ k : Option ℕ, (∀ c ∈ k, c < n) →
    Counts (o.histogram k) (states.map (order · k))

theorem counted_empty (n : ℕ) : Counted n (empty n) ([] : List (State α)) where
  colors := List.length_replicate
  measurements := rfl
  histogram := fun k _ => by
    have hnil : (empty n).histogram k = [] := by
      cases k with
      | none => rfl
      | some c => simp [Orders.histogram, empty]
    rw [hnil]
    exact counts_nil

theorem Counted.accumulate {o : Orders} {states : List (State α)} (h : Counted n o states)
    {s : State α} (hs : s.determinants.length = n) :
    Counted n (o.accumulate s) (states ++ [s]) where
  colors := (length_accumulate o s).trans h.colors
  measurements := by
    rw [List.length_append, ← h.measurements]
    rfl
  histogram := fun k hk => by
    rw [histogram_accumulate h.colors hs hk, List.map_append]
    exact (h.histogram k hk).record _

theorem Counted.accumulate_all {o : Orders} {before states : List (State α)}
    (h : Counted n o before) (hs : ∀ s ∈ states, s.determinants.length = n) :
    Counted n (states.foldl Orders.accumulate o) (before ++ states) := by
  induction states generalizing o before with
  | nil => rwa [List.append_nil]
  | cons s states ih =>
    rw [List.forall_mem_cons] at hs
    rw [List.foldl_cons, List.append_cons]
    exact ih (h.accumulate hs.1) hs.2

theorem order_none_eq {s : State α} (hs : s.determinants.length = n) :
    order s none = ∑ c ∈ Finset.range n, order s (some c) := by
  have hsum := sum_range_getD (s.determinants.map Determinant.size)
  rw [List.length_map, hs] at hsum
  exact hsum.symm

theorem sum_orders {states : List (State α)} (hs : ∀ s ∈ states, s.determinants.length = n) :
    (states.map (order · none)).sum =
      ∑ c ∈ Finset.range n, (states.map (order · (some c))).sum := by
  induction states with
  | nil => simp
  | cons s states ih =>
    rw [List.forall_mem_cons] at hs
    simp only [List.map_cons, List.sum_cons, Finset.sum_add_distrib]
    rw [ih hs.2, order_none_eq hs.1]

end Runs

section Distributions

variable {α : Type} [ExactScalar α]

/-- The fraction of the calls with each order, up to the largest order. -/
structure Distributes (f : List α) (orders : List ℕ) : Prop where
  total : f.sum = 1
  entry : ∀ k, f.getD k 0 = (orders.count k : α) / (orders.length : α)
  last : ∃ x, f.getLast? = some x ∧ x ≠ 0

def mean (f : List α) : α := ∑ k ∈ Finset.range f.length, (k : α) * f.getD k 0

theorem sum_frequencies (w : ℕ → ℕ) (h : List ℕ) (n : ℕ) :
    ∑ k ∈ Finset.range h.length, (w k : α) * (frequencies h n : List α).getD k 0 =
      (weigh w h : α) / n := by
  simp only [getD_frequencies, ← mul_div_assoc, ← Finset.sum_div, weigh, Nat.cast_sum,
    Nat.cast_mul]

theorem length_frequencies (h : List ℕ) (n : ℕ) : (frequencies h n : List α).length = h.length :=
  List.length_map _

theorem Counts.distributes {h orders : List ℕ} (hc : Counts h orders) (hne : orders ≠ []) :
    Distributes (frequencies h orders.length : List α) orders := by
  have hcalls : (orders.length : α) ≠ 0 :=
    Nat.cast_ne_zero.mpr fun h => hne (List.eq_nil_of_length_eq_zero h)
  have hsum := hc.sums fun _ => 1
  rw [List.map_const', List.sum_replicate, smul_eq_mul, mul_one] at hsum
  refine ⟨?_, fun k => by rw [getD_frequencies, hc.entry], ?_⟩
  · have hweigh := sum_frequencies (α := α) (fun _ => 1) h orders.length
    simp only [Nat.cast_one, one_mul] at hweigh
    rw [← sum_range_getD, length_frequencies, hweigh, hsum, div_self hcalls]
  · cases hk : h.length with
    | zero =>
      rw [List.length_eq_zero_iff.mp hk] at hsum
      exact absurd hsum.symm (Nat.cast_ne_zero.mp hcalls)
    | succ k =>
      have hlast := hc.last k hk
      refine ⟨(h.getD k 0 : ℕ) / (orders.length : α), ?_,
        div_ne_zero (Nat.cast_ne_zero.mpr hlast) hcalls⟩
      rw [List.getLast?_eq_getElem?, length_frequencies, hk, Nat.add_sub_cancel, frequencies,
        List.getElem?_map, List.getElem?_eq_getElem (hk ▸ k.lt_succ_self),
        List.getD_eq_getElem _ _ (hk ▸ k.lt_succ_self)]
      rfl

theorem Counts.mean_eq {h orders : List ℕ} (hc : Counts h orders) (n : ℕ) :
    mean (frequencies h n : List α) = (orders.sum : α) / n := by
  rw [mean, length_frequencies, ← List.map_id orders, ← hc.sums]
  exact sum_frequencies id h n

variable {n : ℕ} {o : Orders} {states : List (State α)}

theorem Counted.distributes (h : Counted n o states) (hne : states ≠ []) {k : Option ℕ}
    (hk : ∀ c ∈ k, c < n) :
    Distributes (frequencies (o.histogram k) o.measurements : List α)
      (states.map (order · k)) := by
  have hlength : o.measurements = (states.map (order · k)).length := by
    rw [h.measurements, List.length_map]
  rw [hlength]
  exact (h.histogram k hk).distributes fun hnil => hne (List.map_eq_nil_iff.mp hnil)

theorem Counted.mean_eq (h : Counted n o states) (hs : ∀ s ∈ states, s.determinants.length = n) :
    mean (frequencies (o.histogram none) o.measurements : List α) =
      ∑ c ∈ Finset.range n, mean (frequencies (o.histogram (some c)) o.measurements : List α) := by
  have hcolor : ∀ c ∈ Finset.range n,
      mean (frequencies (o.histogram (some c)) o.measurements : List α) =
        ((states.map (order · (some c))).sum : α) / o.measurements := by
    intro c hc
    apply (h.histogram (some c) _).mean_eq
    rintro _ ⟨⟩
    exact Finset.mem_range.mp hc
  rw [(h.histogram none (by simp)).mean_eq, Finset.sum_congr rfl hcolor, ← Finset.sum_div,
    ← Nat.cast_sum, sum_orders hs]

theorem foldlM_accumulate (o : Orders) (calls : List (State α × Model α × α)) :
    calls.foldlM (fun v c => v.accumulate c.1 c.2.1 c.2.2) (Measure.orders o) =
      .ok (.orders ((calls.map Prod.fst).foldl accumulate o)) := by
  induction calls generalizing o with
  | nil => rfl
  | cons c calls ih =>
    rw [List.foldlM_cons, List.map_cons, List.foldl_cons, ← ih]
    rfl

/-- After any calls with states of as many determinants as colors, at least one, the histogram in
all and that of each color are the distributions of the orders met, without zeros at the end, and
the mean total order is the sum of the mean orders of the colors. -/
theorem collect_distributes {calls : List (State α × Model α × α)} (hne : calls ≠ [])
    (hs : ∀ s ∈ calls.map Prod.fst, s.determinants.length = n) (r : Results α) :
    ∃ v total colors,
      calls.foldlM (fun v c => v.accumulate c.1 c.2.1 c.2.2) (Measure.orders (empty n)) = .ok v ∧
      (v.collect r).totalOrders = some total ∧ (v.collect r).orders = some colors ∧
      colors.length = n ∧
      Distributes total ((calls.map Prod.fst).map (order · none)) ∧
      (∀ c < n, Distributes (colors.getD c []) ((calls.map Prod.fst).map (order · (some c)))) ∧
      mean total = ∑ c ∈ Finset.range n, mean (colors.getD c []) := by
  have hcounted := (counted_empty n).accumulate_all hs
  rw [List.nil_append] at hcounted
  have hstates : calls.map Prod.fst ≠ [] := fun h => hne (List.map_eq_nil_iff.mp h)
  refine ⟨_, _, _, foldlM_accumulate (empty n) calls, rfl, rfl,
    (List.length_map _).trans hcounted.colors, ?_, fun c hc => ?_, ?_⟩
  · exact hcounted.distributes hstates (k := none) (by simp)
  · rw [getD_collect]
    apply hcounted.distributes hstates
    rintro _ ⟨⟩
    exact hc
  · simp only [getD_collect]
    exact hcounted.mean_eq hs

def stateOfOrders (a b : ℕ) : State ℚ where
  config := ⟨1, [[], []]⟩
  determinants := [a, b].map fun k =>
    { Determinant.empty fun _ _ => .ok 0 with rowKeys := List.replicate k ⟨⟨0, 1⟩, 0⟩ }

def twoCalls : List (State ℚ × Model ℚ × ℚ) :=
  [(stateOfOrders 0 1, ⟨1, [0, 0], Grid.ofFn 2 2 fun _ _ => 0, none, none⟩, 1),
    (stateOfOrders 2 1, ⟨1, [0, 0], Grid.ofFn 2 2 fun _ _ => 0, none, none⟩, -1)]

theorem collect_distributes_two_calls :
    twoCalls ≠ [] ∧ (∀ s ∈ twoCalls.map Prod.fst, s.determinants.length = 2) ∧
    ∃ v total colors,
      twoCalls.foldlM (fun v c => v.accumulate c.1 c.2.1 c.2.2) (Measure.orders (empty 2)) =
        .ok v ∧
      (v.collect (Results.empty 1)).totalOrders = some total ∧
      (v.collect (Results.empty 1)).orders = some colors ∧ total.sum = 1 ∧
      total.getD 3 0 = 1 / 2 ∧ mean total = mean (colors.getD 0 []) + mean (colors.getD 1 []) := by
  have hne : twoCalls ≠ [] := List.cons_ne_nil _ _
  have hs : ∀ s ∈ twoCalls.map Prod.fst, s.determinants.length = 2 := by
    simp [twoCalls, stateOfOrders]
  obtain ⟨v, total, colors, hv, htotal, hcolors, -, hdistributes, -, hmean⟩ :=
    collect_distributes hne hs (Results.empty 1)
  refine ⟨hne, hs, v, total, colors, hv, htotal, hcolors, hdistributes.total, ?_, ?_⟩
  · rw [hdistributes.entry]
    simp [twoCalls, stateOfOrders, order, Determinant.size]
  · rw [hmean, Finset.sum_range_succ, Finset.sum_range_one]

end Distributions

end Orders

end ImpuritySampler
