import ImpuritySampler.Proofs.LocalRatio.Defined
import ImpuritySampler.Proofs.LocalRatio.Weight

/-!
# What the loops of a ratio compute

On valid lines and with a readable kernel, every value that the loops over segments need exists. The
instantaneous part of a ratio is what the occupied ticks of a color gain by an interval, and its
retarded part is what a pair of operators adds.
-/

set_option autoImplicit false

namespace ImpuritySampler

variable {α : Type} [ExactScalar α]

variable {m : Model α} {c : Configuration α} {color : ℕ}

theorem foldl_sub {β : Type} (f : β → α) (l : List β) (x : α) :
    l.foldl (fun x b => x - f b) x = x - (l.map f).sum := by
  induction l generalizing x with
  | nil => simp
  | cons b l ih => rw [List.foldl_cons, ih, List.map_cons, List.sum_cons, sub_sub]

theorem foldl_add_map {β : Type} (f : β → α) (l : List β) (x : α) :
    l.foldl (fun x b => x + f b) x = x + (l.map f).sum := by
  induction l generalizing x with
  | nil => simp
  | cons b l ih => rw [List.foldl_cons, ih, List.map_cons, List.sum_cons, add_assoc]

namespace LocalRatio

theorem density_eq (hm : m.Regular) (hv : Readable m c color) (hn : c.colors = m.colors)
    (hc : color < m.colors) {s : Segment α} (hs : s.OnCycle m.beta) :
    density c m color s = .ok (m.gain c.ticks color s.ticks) := by
  have hmu : (Outcome.nth m.mu color : Outcome α α) = .ok (m.mu.getD color 0) := by
    rw [Outcome.nth_of_lt hc, List.getD_eq_getElem?_getD, List.getElem?_eq_getElem hc,
      Option.getD_some]
  have hstep : ∀ k ∈ List.range c.colors, ∀ total : α,
      (if k = color then pure total
      else do
        let u ← m.coupling color k
        pure (total - u * (← (c.lineAt k).overlap s))) =
      (.ok (total - if k = color then 0 else
        m.interaction.entry color k * Time.scale (s.ticks ∩ c.ticks k).card m.beta) :
          Outcome α α) := by
    intro k hk total
    have hk := List.mem_range.mp hk
    split_ifs with h
    · rw [sub_zero, Outcome.pure_eq]
    · rw [Model.coupling_eq hm.shape hc (hn ▸ hk), Outcome.ok_bind,
        Line.overlap_eq hm.beta (hv.onCycle.lineAt hk) hs (hv.others k hk h)]
      rfl
  have hothers : (otherColors m.colors color).map (fun k => if k = color then 0 else
        m.interaction.entry color k * Time.scale (s.ticks ∩ c.ticks k).card m.beta) =
      (otherColors m.colors color).map fun k =>
        m.interaction.entry color k * Time.scale (s.ticks ∩ c.ticks k).card m.beta :=
    List.map_congr_left fun k hk => if_neg (mem_otherColors.mp hk).1
  rw [density, hmu, Outcome.ok_bind, hs.length, Outcome.ok_bind, Configuration.zipIdx_lines,
    List.foldlM_map, Outcome.foldlM_eq_ok hstep, foldl_sub, hn, sum_range _ hc, if_pos rfl,
    zero_add, hothers, Model.gain, Time.value]

section Retarded

variable {r : Retarded α} {l : Line α} {t annihilation creation : Time α}

theorem apply_sum {β : Type} (charge : Sign) (f : β → α) (l : List β) :
    charge.apply (l.map f).sum = (l.map fun b => charge.apply (f b)).sum := by
  induction l with
  | nil => cases charge <;> simp [Sign.apply]
  | cons b l ih =>
    rw [List.map_cons, List.sum_cons, List.map_cons, List.sum_cons, ← ih]
    cases charge with
    | plus => rfl
    | minus => exact neg_add _ _

theorem sum_ends (f : Operator → α) (l : Line α) (k : ℕ) : ((l.ends k).map f).sum =
    (l.map fun s => if s.Whole then 0
      else f ⟨s.creation.ticks, k, .plus⟩ + f ⟨s.annihilation.ticks, k, .minus⟩).sum := by
  induction l with
  | nil => rfl
  | cons s l ih =>
    rw [Line.ends, List.flatMap_cons, List.map_append, List.sum_append, List.map_cons,
      List.sum_cons, ← ih, Line.ends]
    split_ifs <;> simp

theorem kernel_value (hm : m.Regular) (hr : m.retarded = some r) (ht : t.IsPoint m.beta)
    (u : ℕ) {a b : ℕ} (ha : a < m.colors) (hb : b < m.colors) :
    r.kernel.value (Time.value ⟨Time.gap t.ticks u, m.beta⟩) a b =
      .ok (r.kernel.reading (Time.scale (Time.gap t.ticks u) m.beta) a b) :=
  (hm.kernel r hr).value (Time.gap_lt ht.lt _) ha hb

theorem coupling_eq (hm : m.Regular) (hr : m.retarded = some r)
    (hl : ∀ s ∈ l, s.OnCycle m.beta) (ht : t.IsPoint m.beta) (charge : Sign) {a b : ℕ}
    (ha : a < m.colors) (hb : b < m.colors) :
    l.coupling t charge r.kernel a b =
      .ok ((l.ends b).map (m.exchange ⟨t.ticks, a, charge⟩)).sum := by
  let reading (u : ℕ) : α := r.kernel.reading (Time.scale (Time.gap t.ticks u) m.beta) a b
  have hstep : ∀ s ∈ l, ∀ total : α,
      (do
        if ← s.isFull then pure total
        else
          let toCreation ← r.kernel.value (← t.sub s.creation).value a b
          let toAnnihilation ← r.kernel.value (← t.sub s.annihilation).value a b
          pure (total + (toCreation - toAnnihilation))) =
      (.ok (total + if s.Whole then 0
        else reading s.creation.ticks - reading s.annihilation.ticks) : Outcome α α) := by
    intro s hs total
    have hcycle := hl s hs
    rw [hcycle.isFull hm.beta, Outcome.ok_bind]
    by_cases hw : s.Whole
    · rw [decide_eq_true hw, if_pos rfl, if_pos hw, add_zero, Outcome.pure_eq]
    · obtain ⟨ha', hc'⟩ := hcycle.points hw
      rw [decide_eq_false hw, if_neg (by decide), if_neg hw, Time.sub_eq ht hc',
        Outcome.ok_bind, kernel_value hm hr ht _ ha hb, Outcome.ok_bind,
        Time.sub_eq ht ha', Outcome.ok_bind, kernel_value hm hr ht _ ha hb]
      rfl
  have hcharge : ∀ s : Segment α,
      charge.apply (if s.Whole then 0
        else reading s.creation.ticks - reading s.annihilation.ticks) =
      if s.Whole then 0
      else m.exchange ⟨t.ticks, a, charge⟩ ⟨s.creation.ticks, b, .plus⟩ +
        m.exchange ⟨t.ticks, a, charge⟩ ⟨s.annihilation.ticks, b, .minus⟩ := by
    intro s
    simp only [Model.exchange, hr]
    split_ifs
    · cases charge <;> simp [Sign.apply]
    · cases charge with
      | plus => exact sub_eq_add_neg _ _
      | minus => exact (neg_sub _ _).trans (sub_eq_neg_add _ _)
  rw [Line.coupling, Outcome.foldlM_eq_ok hstep, Outcome.ok_bind, foldl_add_map, zero_add,
    apply_sum, sum_ends]
  simp only [hcharge, Outcome.pure_eq]

theorem pairCoupling_eq (hm : m.Regular) (hr : m.retarded = some r)
    (hl : ∀ s ∈ l, s.OnCycle m.beta) (ha : annihilation.IsPoint m.beta)
    (hc : creation.IsPoint m.beta) {a b : ℕ} (han : a < m.colors) (hbn : b < m.colors) :
    l.pairCoupling annihilation creation r.kernel a b =
      .ok ((l.ends b).map fun z => m.exchange ⟨creation.ticks, a, .plus⟩ z +
        m.exchange ⟨annihilation.ticks, a, .minus⟩ z).sum := by
  rw [Line.pairCoupling, coupling_eq hm hr hl hc .plus han hbn, Outcome.ok_bind,
    coupling_eq hm hr hl ha .minus han hbn, Outcome.ok_bind, List.sum_map_add, Outcome.pure_eq]

theorem retarded_eq (hm : m.Regular) (hv : c.OnCycle m.beta) (hn : c.colors = m.colors)
    (hcolor : color < m.colors) (ha : annihilation.IsPoint m.beta) (hc : creation.IsPoint m.beta) :
    retarded c m color annihilation creation none =
      .ok (m.attraction ⟨creation.ticks, color, .plus⟩ ⟨annihilation.ticks, color, .minus⟩
        c.ends) := by
  cases hr : m.retarded with
  | none => simp [retarded, Model.attraction, Model.exchange, hr]
  | some r =>
    have hstep : ∀ k ∈ List.range c.colors, ∀ total : α,
        (do pure (total + (← (c.lineAt k).pairCoupling annihilation creation r.kernel color k))) =
        (.ok (total + (((c.lineAt k).ends k).map fun z =>
          m.exchange ⟨creation.ticks, color, .plus⟩ z +
            m.exchange ⟨annihilation.ticks, color, .minus⟩ z).sum) : Outcome α α) := by
      intro k hk total
      have hk := List.mem_range.mp hk
      rw [pairCoupling_eq hm hr (hv.lineAt hk) ha hc hcolor (hn ▸ hk),
        Outcome.ok_bind, Outcome.pure_eq]
    have hself : m.exchange ⟨annihilation.ticks, color, .minus⟩ ⟨creation.ticks, color, .plus⟩ =
        -r.kernel.reading (Time.scale (Time.gap annihilation.ticks creation.ticks) m.beta)
          color color := by
      rw [Model.exchange, hr]
      rfl
    simp only [retarded, hr]
    rw [Configuration.zipIdx_lines, List.foldlM_map, Outcome.foldlM_eq_ok hstep, foldl_add_map,
      Outcome.ok_bind, Time.sub_eq ha hc, Outcome.ok_bind, kernel_value hm hr ha _ hcolor hcolor,
      Outcome.ok_bind, Model.attraction, hself, Configuration.ends, List.map_flatMap,
      List.flatMap_def, List.sum_flatten, List.map_map, zero_add, sub_eq_neg_add, Outcome.pure_eq]
    rfl

end Retarded

end LocalRatio
end ImpuritySampler
