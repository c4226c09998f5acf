import ImpuritySampler.Proofs.LocalRatio.Ends
import ImpuritySampler.Proofs.Params

/-!
# The local weight

The logarithm of the local weight of a configuration: occupied lengths of each color, lengths that
two colors occupy together, and the retarded interaction of each pair of operators. It is defined by
ticks and operators alone. Occupying more ticks of one color, or adding a pair of operators, changes
it by a sum over what is there.
-/

set_option autoImplicit false

namespace ImpuritySampler

section Pairs

variable {α β : Type} [AddCommGroup α] {g : β → β → α}

def pairSum (g : β → β → α) : List β → α
  | [] => 0
  | x::l => (l.map (g x)).sum + pairSum g l

theorem pairSum_perm {l m : List β} (h : l.Perm m) (hg : ∀ x ∈ l, ∀ y ∈ l, g x y = g y x) :
    pairSum g l = pairSum g m := by
  induction h with
  | nil => rfl
  | cons x hlm ih =>
    rw [pairSum, pairSum, (hlm.map (g x)).sum_eq, ih fun y hy z hz =>
      hg y (List.mem_cons_of_mem x hy) z (List.mem_cons_of_mem x hz)]
  | swap x y l =>
    have hxy := hg x (by simp) y (by simp)
    simp only [pairSum, List.map_cons, List.sum_cons, hxy]
    abel
  | trans hlm hmn ih₁ ih₂ =>
    rw [ih₁ hg, ih₂ fun x hx y hy => hg x (hlm.mem_iff.mpr hx) y (hlm.mem_iff.mpr hy)]

theorem pairSum_cons_cons (x y : β) (l : List β) :
    pairSum g (x::y::l) = pairSum g l + (g x y + (l.map fun z => g x z + g y z).sum) := by
  simp only [pairSum, List.map_cons, List.sum_cons, List.sum_map_add]
  abel

theorem pairSum_congr {g' : β → β → α} {l : List β} (h : ∀ x ∈ l, ∀ y ∈ l, g x y = g' x y) :
    pairSum g l = pairSum g' l := by
  induction l with
  | nil => rfl
  | cons x l ih =>
    rw [pairSum, pairSum, ih fun y hy z hz =>
      h y (List.mem_cons_of_mem x hy) z (List.mem_cons_of_mem x hz)]
    congr 2
    exact List.map_congr_left fun y hy => h x List.mem_cons_self y (List.mem_cons_of_mem x hy)

theorem pairSum_zero (h : ∀ x y, g x y = 0) (l : List β) : pairSum g l = 0 := by
  induction l with
  | nil => rfl
  | cons x l ih =>
    have hx : g x = fun _ => 0 := funext (h x)
    simp [pairSum, ih, hx]

end Pairs

variable {α : Type} [ExactScalar α]

namespace Model

variable (m : Model α)

def repulsion (occupied : ℕ → Finset ℕ) (k d : ℕ) : α :=
  m.interaction.entry k d * Time.scale (occupied k ∩ occupied d).card m.beta

def exchange (x y : Operator) : α :=
  match m.retarded with
  | none => 0
  | some r => (x.charge * y.charge).apply
    (r.kernel.reading (Time.scale (Time.gap x.ticks y.ticks) m.beta) x.color y.color)

/-- The part of the logarithm of the local weight that depends on the occupied ticks. -/
def occupationLog (occupied : ℕ → Finset ℕ) : α :=
  ((List.range m.colors).map fun k => m.mu.getD k 0 * Time.scale (occupied k).card m.beta).sum -
    pairSum (m.repulsion occupied) (List.range m.colors)

def weightLog (c : Configuration α) : α := m.occupationLog c.ticks + pairSum m.exchange c.ends

/-- What the occupied ticks of one color add when they grow by `u`. -/
def gain (occupied : ℕ → Finset ℕ) (color : ℕ) (u : Finset ℕ) : α :=
  m.mu.getD color 0 * Time.scale u.card m.beta -
    ((otherColors m.colors color).map fun k =>
      m.interaction.entry color k * Time.scale (u ∩ occupied k).card m.beta).sum

def attraction (x y : Operator) (others : List Operator) : α :=
  m.exchange y x + (others.map fun z => m.exchange x z + m.exchange y z).sum

variable {m}

theorem exchange_none (h : m.retarded = none) (x y : Operator) : m.exchange x y = 0 := by
  rw [exchange, h]

theorem repulsion_symm {occupied : ℕ → Finset ℕ} {k d : ℕ}
    (h : m.interaction.entry k d = m.interaction.entry d k) :
    m.repulsion occupied k d = m.repulsion occupied d k := by
  rw [repulsion, repulsion, h, Finset.inter_comm]

theorem occupationLog_grow {occupied occupied' : ℕ → Finset ℕ} {color : ℕ} {u : Finset ℕ}
    (hc : color < m.colors)
    (hsymm : ∀ k < m.colors, ∀ d < m.colors, m.interaction.entry k d = m.interaction.entry d k)
    (hd : Disjoint (occupied color) u)
    (hgrow : ∀ k, occupied' k = if k = color then occupied color ∪ u else occupied k) :
    m.occupationLog occupied' = m.occupationLog occupied + m.gain occupied color u := by
  have hself : occupied' color = occupied color ∪ u := (hgrow color).trans (if_pos rfl)
  have hother : ∀ k ∈ otherColors m.colors color, occupied' k = occupied k := fun k hk =>
    (hgrow k).trans (if_neg (mem_otherColors.mp hk).1)
  have hpairs : ∀ f : ℕ → Finset ℕ, pairSum (m.repulsion f) (List.range m.colors) =
      ((otherColors m.colors color).map (m.repulsion f color)).sum +
        pairSum (m.repulsion f) (otherColors m.colors color) := fun f =>
    pairSum_perm (range_perm hc) fun k hk d hd =>
      repulsion_symm (hsymm k (List.mem_range.mp hk) d (List.mem_range.mp hd))
  have hrest : pairSum (m.repulsion occupied') (otherColors m.colors color) =
      pairSum (m.repulsion occupied) (otherColors m.colors color) :=
    pairSum_congr fun k hk d hd => by rw [repulsion, repulsion, hother k hk, hother d hd]
  -- the ticks that a color shares with the grown one are old or lie in `u`
  have hshared : (otherColors m.colors color).map (m.repulsion occupied' color) =
      (otherColors m.colors color).map fun k => m.repulsion occupied color k +
        m.interaction.entry color k * Time.scale (u ∩ occupied k).card m.beta :=
    List.map_congr_left fun k hk => by
      rw [repulsion, repulsion, hself, hother k hk, Finset.union_inter_distrib_right,
        Finset.card_union_of_disjoint (hd.mono Finset.inter_subset_left Finset.inter_subset_left),
        Time.scale_add, mul_add]
  have hlengths : (otherColors m.colors color).map (fun k =>
        m.mu.getD k 0 * Time.scale (occupied' k).card m.beta) =
      (otherColors m.colors color).map fun k =>
        m.mu.getD k 0 * Time.scale (occupied k).card m.beta :=
    List.map_congr_left fun k hk => by rw [hother k hk]
  rw [occupationLog, occupationLog, hpairs, hpairs, hrest, hshared, sum_range _ hc,
    sum_range _ hc, hlengths, hself, Finset.card_union_of_disjoint hd, Time.scale_add,
    List.sum_map_add, gain]
  ring

/-- The kernel is a symmetric matrix at each distance, and the same for both ways around the
cycle. -/
structure SymmetricKernel (m : Model α) : Prop where
  matrix : ∀ r, m.retarded = some r → ∀ a < m.colors, ∀ b < m.colors,
    ∀ tau, 0 ≤ tau → tau < m.beta → r.kernel.value tau a b = r.kernel.value tau b a
  reflection : ∀ r, m.retarded = some r → ∀ a < m.colors, ∀ b < m.colors,
    ∀ tau, 0 < tau → tau < m.beta → r.kernel.value (m.beta - tau) a b = r.kernel.value tau a b

theorem exchange_symm (hb : 0 < m.beta) (h : m.SymmetricKernel) {x y : Operator}
    (hx : x.ticks < ticksPerPeriod ∧ x.color < m.colors)
    (hy : y.ticks < ticksPerPeriod ∧ y.color < m.colors) : m.exchange x y = m.exchange y x := by
  cases hr : m.retarded with
  | none => simp only [exchange, hr]
  | some r =>
    suffices hv : r.kernel.value (Time.scale (Time.gap x.ticks y.ticks) m.beta) x.color y.color =
        r.kernel.value (Time.scale (Time.gap y.ticks x.ticks) m.beta) y.color x.color by
      simp only [exchange, hr, MeshFunction.reading, hv, Sign.mul_comm x.charge]
    by_cases he : x.ticks = y.ticks
    · rw [he, Time.gap_self, Time.scale_zero]
      exact h.matrix r hr _ hx.2 _ hy.2 0 le_rfl hb
    · have hpos := Time.scale_strictMono hb (Time.gap_pos hx.1 (Ne.symm he))
      have hlt := Time.scale_strictMono hb (Time.gap_lt hy.1 x.ticks)
      have hway := Time.scale_add (Time.gap x.ticks y.ticks) (Time.gap y.ticks x.ticks)
        m.beta
      rw [Time.gap_add_gap hx.1 hy.1 he, Time.scale_final] at hway
      rw [Time.scale_zero] at hpos
      rw [Time.scale_final] at hlt
      rw [eq_sub_of_add_eq hway.symm, h.reflection r hr _ hx.2 _ hy.2 _ hpos hlt]
      exact h.matrix r hr _ hx.2 _ hy.2 _ hpos.le hlt

theorem pairSum_ends {c c' : Configuration α} {x y : Operator} (hb : 0 < m.beta)
    (h : m.SymmetricKernel) (hv : c.Valid m.beta) (hn : c.colors = m.colors)
    (hx : x.ticks < ticksPerPeriod ∧ x.color < m.colors)
    (hy : y.ticks < ticksPerPeriod ∧ y.color < m.colors)
    (hends : c'.ends.Perm (x::y::c.ends)) :
    pairSum m.exchange c'.ends = pairSum m.exchange c.ends + m.attraction x y c.ends := by
  have hmem : ∀ z ∈ x::y::c.ends, z.ticks < ticksPerPeriod ∧ z.color < m.colors := by
    intro z hz
    rcases List.mem_cons.mp hz with rfl | hz
    · exact hx
    rcases List.mem_cons.mp hz with rfl | hz
    · exact hy
    · exact hn ▸ Configuration.mem_ends hv hz
  rw [← pairSum_perm hends.symm fun z hz w hw => exchange_symm hb h (hmem z hz) (hmem w hw),
    pairSum_cons_cons, attraction, exchange_symm hb h hx hy]

end Model

end ImpuritySampler
