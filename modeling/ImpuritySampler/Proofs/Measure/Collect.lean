import ImpuritySampler.Proofs.Measure.Sum
import ImpuritySampler.Proofs.Results.Merge

/-!
# Normalized results

A measure divides what it has collected by its own count of the signs or of the measurements. That
is the weight with which its observable is merged, so the results of a sum of two measures are those
of both runs together.
-/

set_option autoImplicit false

namespace ImpuritySampler

variable {α : Type} [ExactScalar α]

namespace Results

theorem mean_div {wa wb : α} (ha : wa ≠ 0) (hb : wb ≠ 0) (x y : α) :
    mean wa wb (x / wa) (y / wb) = (x + y) / (wa + wb) := by
  rw [mean, mul_div_cancel₀ _ ha, mul_div_cancel₀ _ hb]

/-- The results `r` are those of the runs of `a` and `b` together, which are of one form and have
weight. -/
structure Joined (r a b : Results α) : Prop where
  joins : r.Joins a b
  form : a.form = b.form
  left : ∀ e, a.weight e ≠ 0
  right : ∀ e, b.weight e ≠ 0

theorem Joined.symm {r a b : Results α} (h : r.Joined a b) : r.Joined b a where
  joins :=
    { form := h.joins.form.trans h.form
      measurements := by rw [h.joins.measurements, add_comm]
      signSum := by rw [h.joins.signSum, add_comm]
      extent := fun k => by rw [h.joins.extent, max_comm]
      entry := fun e => by rw [h.joins.entry, mean, mean, add_comm, add_comm (b.weight e)] }
  form := h.form.symm
  left := h.right
  right := h.left

end Results

namespace Green

def gain (g : Green α) (cols j : ℕ) : α :=
  ((if j = 0 ∨ j + 1 = cols then 2 else 1 : ℕ) : α) / (-g.beta * g.spacing)

theorem entry_normalized (g : Green α) (bins : Grid α) (i j : ℕ) :
    (g.normalized bins).entry i j = bins.entry i j * g.gain bins.cols j / g.signSum := by
  by_cases hij : i < bins.rows ∧ j < bins.cols
  · rw [normalized, Grid.entry_ofFn _ hij.1 hij.2, gain]
    split_ifs <;> push_cast <;> ring
  · rw [Grid.entry_outside hij, zero_mul, zero_div]
    exact Grid.entry_outside (g := g.normalized bins) hij

theorem normalized_add {g h : Green α} (hg : g.Alike h) (hgz : g.signSum ≠ 0)
    (hhz : h.signSum ≠ 0) {e f : Grid α} (hshape : e.shape = f.shape) (i j : ℕ) :
    ((g.add h).normalized (e.add f)).entry i j = Results.mean g.signSum h.signSum
      ((g.normalized e).entry i j) ((h.normalized f).entry i j) := by
  have hcols : f.cols = e.cols := (congrArg Prod.snd hshape).symm
  have hgain : h.gain f.cols j = g.gain e.cols j := by
    rw [gain, gain, hg.beta, hg.spacing, hcols]
  have hsum : (g.add h).gain (e.add f).cols j = g.gain e.cols j := rfl
  rw [entry_normalized, entry_normalized, entry_normalized, hgain, hsum,
    Results.mean_div hgz hhz, Grid.entry_add hshape, add_mul]
  rfl

theorem improved_add {g h : Green α} (hg : g.Alike h) (hgz : g.signSum ≠ 0)
    (hhz : h.signSum ≠ 0) (i j : ℕ) :
    ((g.add h).improved.map (g.add h).normalized).elim 0 (·.entry i j) =
      Results.mean g.signSum h.signSum ((g.improved.map g.normalized).elim 0 (·.entry i j))
        ((h.improved.map h.normalized).elim 0 (·.entry i j)) := by
  rcases hg.add_improved with ⟨hg', hh, hsum⟩ | ⟨e, f, hg', hh, hsum, hshape⟩
  · rw [hg', hh, hsum]
    exact (Results.mean_zero _ _).symm
  · rw [hg', hh, hsum]
    exact normalized_add hg hgz hhz hshape i j

theorem form_collect (g : Green α) (r : Results α) : (g.collect r).form =
    { r.form with green := some g.bins.shape, improved := g.improved.map Grid.shape } := by
  rw [collect, Results.form, Option.map_map]
  rfl

theorem shape_improved_add {g h : Green α} (hg : g.Alike h) :
    (g.add h).improved.map Grid.shape = g.improved.map Grid.shape := by
  rcases hg.add_improved with ⟨hg', -, hsum⟩ | ⟨e, f, hg', -, hsum, -⟩
  · rw [hg', hsum]
  · rw [hg', hsum]
    rfl

end Green

namespace Densities

theorem form_collect (d : Densities α) (r : Results α) : (d.collect r).form =
    { r.form with densities := some d.sums.length } := by
  rw [← List.length_map (f := (· / d.signSum))]
  rfl

theorem entry_collect (d : Densities α) (r : Results α) (c : ℕ) :
    (d.collect r).entry (.density c) = d.sums.getD c 0 / d.signSum := by
  have hzero : (0 : α) / d.signSum = 0 := zero_div _
  show (d.sums.map (· / d.signSum)).getD c 0 = _
  rw [← hzero, List.getD_map, hzero]

end Densities

namespace Orders

def histogram (o : Orders) : Option ℕ → List ℕ
  | none => o.total
  | some c => o.colors.getD c []

theorem histogram_add {o p : Orders} (h : o.colors.length = p.colors.length) (k : Option ℕ) :
    (o.add p).histogram k = addHistograms (o.histogram k) (p.histogram k) := by
  cases k with
  | none => rfl
  | some c =>
    show (List.zipWith addHistograms o.colors p.colors).getD c [] = _
    rw [← addHistograms_nil [], getD_zipWith h]
    rfl

theorem getD_frequencies (h : List ℕ) (n k : ℕ) :
    (frequencies h n : List α).getD k 0 = (h.getD k 0 : ℕ) / n := by
  have hzero : ((0 : ℕ) : α) / (n : α) = 0 := by rw [Nat.cast_zero, zero_div]
  rw [frequencies, ← hzero, List.getD_map]

theorem frequency_add {o p : Orders} (h : o.colors.length = p.colors.length)
    (ho : (o.measurements : α) ≠ 0) (hp : (p.measurements : α) ≠ 0) (k : Option ℕ) (i : ℕ) :
    (((o.add p).histogram k).getD i 0 : ℕ) / ((o.add p).measurements : α) =
      Results.mean (o.measurements : α) (p.measurements : α)
        (((o.histogram k).getD i 0 : ℕ) / (o.measurements : α))
        (((p.histogram k).getD i 0 : ℕ) / (p.measurements : α)) := by
  have hcount : ((o.add p).measurements : α) = (o.measurements : α) + (p.measurements : α) :=
    Nat.cast_add _ _
  rw [Results.mean_div ho hp, histogram_add h, getD_addHistograms, Nat.cast_add, hcount]

theorem form_collect (o : Orders) (r : Results α) : (o.collect r).form =
    { r.form with totalOrders := true, orders := some o.colors.length } := by
  rw [← List.length_map (f := fun h => (frequencies h o.measurements : List α))]
  rfl

theorem getD_collect (o : Orders) (c : ℕ) :
    (o.colors.map fun h => (frequencies h o.measurements : List α)).getD c [] =
      frequencies (o.histogram (some c)) o.measurements :=
  List.getD_map o.colors [] fun h => (frequencies h o.measurements : List α)

theorem extent_collect (o : Orders) (r : Results α) (k : Option ℕ) :
    (o.collect r).extent k = (o.histogram k).length := by
  cases k with
  | none => exact List.length_map _
  | some c =>
    show (List.getD _ c []).length = _
    rw [getD_collect]
    exact List.length_map _

theorem entry_totalOrder (o : Orders) (r : Results α) (i : ℕ) :
    (o.collect r).entry (.totalOrder i) =
      ((o.histogram none).getD i 0 : ℕ) / (o.measurements : α) := getD_frequencies o.total _ i

theorem entry_order (o : Orders) (r : Results α) (c i : ℕ) : (o.collect r).entry (.order c i) =
    ((o.histogram (some c)).getD i 0 : ℕ) / (o.measurements : α) := by
  show (List.getD _ c []).getD i 0 = _
  rw [getD_collect, getD_frequencies]

end Orders

namespace Measure

/-- The measure has collected this often, and with this sum of the signs. -/
def Tallied (n : ℕ) (z : α) : Measure α → Prop
  | .green g => g.signSum = z
  | .densities d => d.signSum = z
  | .orders o => o.measurements = n
  | .sign a => a.measurements = n

variable {u v w : Measure α} {r a b : Results α}

theorem weight_collect (v : Measure α) (a : Results α) (e : Results.Entry) :
    (v.collect a).weight e = a.weight e := by
  cases v <;> cases e <;> rfl

theorem measurements_collect (v : Measure α) (a : Results α) :
    (v.collect a).measurements = a.measurements := by
  cases v <;> rfl

theorem signSum_collect (v : Measure α) (a : Results α) : (v.collect a).signSum = a.signSum := by
  cases v <;> rfl

/-- What has to be shown of one measure: the form, the extents and the entries. -/
theorem collect_joined (h : r.Joined a b) (hform : (u.collect r).form = (v.collect a).form)
    (hform' : (v.collect a).form = (w.collect b).form)
    (hextent : ∀ k, (u.collect r).extent k = max ((v.collect a).extent k) ((w.collect b).extent k))
    (hentry : ∀ e, (u.collect r).entry e = Results.mean (a.weight e) (b.weight e)
      ((v.collect a).entry e) ((w.collect b).entry e)) :
    (u.collect r).Joined (v.collect a) (w.collect b) where
  joins := by
    refine ⟨hform, ?_, ?_, hextent, fun e => ?_⟩
    · rw [measurements_collect, measurements_collect, measurements_collect, h.joins.measurements]
    · rw [signSum_collect, signSum_collect, signSum_collect, h.joins.signSum]
    · rw [weight_collect, weight_collect, hentry]
  form := hform'
  left := fun e => by
    rw [weight_collect]
    exact h.left e
  right := fun e => by
    rw [weight_collect]
    exact h.right e

theorem collect_green {g k : Green α} (hr : r.Joined a b) (hg : g.Alike k)
    (hgz : g.signSum = a.signSum) (hkz : k.signSum = b.signSum) :
    ((green (g.add k)).collect r).Joined ((green g).collect a) ((green k).collect b) := by
  have hgw : g.signSum ≠ 0 := hgz ▸ hr.left (.green 0 0)
  have hkw : k.signSum ≠ 0 := hkz ▸ hr.right (.green 0 0)
  refine collect_joined hr ?_ ?_ (fun n => ?_) (fun e => ?_)
  · show ((g.add k).collect r).form = (g.collect a).form
    rw [Green.form_collect, Green.form_collect, Green.shape_improved_add hg, hr.joins.form]
    rfl
  · show (g.collect a).form = (k.collect b).form
    rw [Green.form_collect, Green.form_collect, hg.bins, hg.improved, hr.form]
  · have hother := hr.joins.extent n
    cases n with
    | none | some => exact hother
  · have hother := hr.joins.entry e
    cases e with
    | green i j =>
      have hmean := Green.normalized_add hg hgw hkw hg.bins i j
      rwa [hgz, hkz] at hmean
    | improved i j =>
      have hmean := Green.improved_add hg hgw hkw i j
      rwa [hgz, hkz] at hmean
    | averageSign | density | totalOrder | order => exact hother

theorem collect_densities {d e : Densities α} (hr : r.Joined a b)
    (hd : d.sums.length = e.sums.length) (hdz : d.signSum = a.signSum)
    (hez : e.signSum = b.signSum) :
    ((densities (d.add e)).collect r).Joined ((densities d).collect a)
      ((densities e).collect b) := by
  refine collect_joined hr ?_ ?_ (fun n => ?_) (fun p => ?_)
  · show ((d.add e).collect r).form = (d.collect a).form
    rw [Densities.form_collect, Densities.form_collect, Densities.add, List.length_zipWith, ← hd,
      min_self, hr.joins.form]
  · show (d.collect a).form = (e.collect b).form
    rw [Densities.form_collect, Densities.form_collect, hd, hr.form]
  · have hother := hr.joins.extent n
    cases n with
    | none | some => exact hother
  · have hother := hr.joins.entry p
    cases p with
    | density c =>
      have hdw : d.signSum ≠ 0 := hdz ▸ hr.left (.density c)
      have hew : e.signSum ≠ 0 := hez ▸ hr.right (.density c)
      have hsum : (d.add e).sums.getD c 0 = d.sums.getD c 0 + e.sums.getD c 0 := by
        rw [Densities.add, ← getD_zipWith (f := (· + ·)) hd, add_zero]
      show ((d.add e).collect r).entry (.density c) = Results.mean a.signSum b.signSum
        ((d.collect a).entry (.density c)) ((e.collect b).entry (.density c))
      rw [Densities.entry_collect, Densities.entry_collect, Densities.entry_collect, hsum, ← hdz,
        ← hez, Results.mean_div hdw hew]
      rfl
    | averageSign | green | improved | totalOrder | order => exact hother

theorem collect_orders {o p : Orders} (hr : r.Joined a b)
    (ho : o.colors.length = p.colors.length) (hon : o.measurements = a.measurements)
    (hpn : p.measurements = b.measurements) :
    ((orders (o.add p) : Measure α).collect r).Joined ((orders o).collect a)
      ((orders p).collect b) := by
  have how : (o.measurements : α) ≠ 0 := hon ▸ hr.left .averageSign
  have hpw : (p.measurements : α) ≠ 0 := hpn ▸ hr.right .averageSign
  refine collect_joined hr ?_ ?_ (fun k => ?_) (fun e => ?_)
  · show ((o.add p).collect r).form = (o.collect a).form
    rw [Orders.form_collect, Orders.form_collect, Orders.add, List.length_zipWith, ← ho, min_self,
      hr.joins.form]
  · show (o.collect a).form = (p.collect b).form
    rw [Orders.form_collect, Orders.form_collect, ho, hr.form]
  · show ((o.add p).collect r).extent k = max ((o.collect a).extent k) ((p.collect b).extent k)
    rw [Orders.extent_collect, Orders.extent_collect, Orders.extent_collect,
      Orders.histogram_add ho, Orders.length_addHistograms]
  · have hother := hr.joins.entry e
    cases e with
    | totalOrder i =>
      show ((o.add p).collect r).entry (.totalOrder i) = Results.mean (a.measurements : α)
        (b.measurements : α) ((o.collect a).entry (.totalOrder i))
        ((p.collect b).entry (.totalOrder i))
      rw [Orders.entry_totalOrder, Orders.entry_totalOrder, Orders.entry_totalOrder, ← hon, ← hpn]
      exact Orders.frequency_add ho how hpw none i
    | order c i =>
      show ((o.add p).collect r).entry (.order c i) = Results.mean (a.measurements : α)
        (b.measurements : α) ((o.collect a).entry (.order c i)) ((p.collect b).entry (.order c i))
      rw [Orders.entry_order, Orders.entry_order, Orders.entry_order, ← hon, ← hpn]
      exact Orders.frequency_add ho how hpw (some c) i
    | averageSign | density | green | improved => exact hother

theorem collect_sign {x y : AverageSign α} (hr : r.Joined a b)
    (hxn : x.measurements = a.measurements) (hyn : y.measurements = b.measurements) :
    ((sign (x.add y)).collect r).Joined ((sign x).collect a) ((sign y).collect b) := by
  refine collect_joined hr ?_ ?_ (fun k => ?_) (fun e => ?_)
  · exact congrArg (fun f : Results.Form α => { f with averageSign := true }) hr.joins.form
  · exact congrArg (fun f : Results.Form α => { f with averageSign := true }) hr.form
  · have hother := hr.joins.extent k
    cases k with
    | none | some => exact hother
  · have hother := hr.joins.entry e
    cases e with
    | averageSign =>
      have hxw : (x.measurements : α) ≠ 0 := hxn ▸ hr.left .averageSign
      have hyw : (y.measurements : α) ≠ 0 := hyn ▸ hr.right .averageSign
      show (x.sum + y.sum) / ((x.measurements + y.measurements : ℕ) : α) =
        Results.mean (a.measurements : α) (b.measurements : α) (x.sum / (x.measurements : α))
          (y.sum / (y.measurements : α))
      rw [← hxn, ← hyn, Results.mean_div hxw hyw, Nat.cast_add]
    | density | green | improved | totalOrder | order => exact hother

theorem collect_add (h : v.Alike w) (hv : v.Tallied a.measurements a.signSum)
    (hw : w.Tallied b.measurements b.signSum) (hr : r.Joined a b) :
    ((v.add w).collect r).Joined (v.collect a) (w.collect b) := by
  cases h with
  | green hg => exact collect_green hr hg hv hw
  | densities h => exact collect_densities hr h hv hw
  | orders h => exact collect_orders hr h hv hw
  | sign x y => exact collect_sign hr hv hw

def addAll (vs ws : List (Measure α)) : List (Measure α) := List.zipWith add vs ws

theorem collectAll_add {vs ws : List (Measure α)} (h : List.Forall₂ Alike vs ws)
    (hv : ∀ v ∈ vs, v.Tallied a.measurements a.signSum)
    (hw : ∀ w ∈ ws, w.Tallied b.measurements b.signSum) (hr : r.Joined a b) :
    (collectAll (addAll vs ws) r).Joined (collectAll vs a) (collectAll ws b) := by
  induction h generalizing r a b with
  | nil => exact hr
  | @cons v w vs ws h hs ih =>
    have hjoined := collect_add h (hv v List.mem_cons_self) (hw w List.mem_cons_self) hr
    refine ih (fun u hu => ?_) (fun u hu => ?_) hjoined
    · rw [measurements_collect, signSum_collect]
      exact hv u (List.mem_cons_of_mem v hu)
    · rw [measurements_collect, signSum_collect]
      exact hw u (List.mem_cons_of_mem w hu)

end Measure

end ImpuritySampler
