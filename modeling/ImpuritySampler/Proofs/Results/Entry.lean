import ImpuritySampler.Proofs.Determinant.Undo
import ImpuritySampler.Results

/-!
# Entries of results

Results have a form, which says what was observed and how large the tables are, and numbers in it.
Each number is an entry, zero where there is none; histograms have an extent besides. Results with
equal forms, counts, extents and entries are equal.
-/

set_option autoImplicit false

namespace ImpuritySampler

theorem getD_zipWith {β γ δ : Type} {f : β → γ → δ} {l : List β} {m : List γ}
    (h : l.length = m.length) (b : β) (c : γ) (k : ℕ) :
    (List.zipWith f l m).getD k (f b c) = f (l.getD k b) (m.getD k c) := by
  simp only [List.getD_eq_getElem?_getD, List.getElem?_zipWith]
  rcases lt_or_ge k l.length with hk | hk
  · rw [List.getElem?_eq_getElem hk, List.getElem?_eq_getElem (h ▸ hk)]
    rfl
  · rw [List.getElem?_eq_none hk, List.getElem?_eq_none (h ▸ hk)]
    rfl

theorem ext_getD {β : Type} {l m : List β} (d : β) (hlength : l.length = m.length)
    (h : ∀ k < l.length, l.getD k d = m.getD k d) : l = m := by
  refine List.ext_getElem hlength fun k hk hk' => ?_
  have hd := h k hk
  rwa [List.getD_eq_getElem _ _ hk, List.getD_eq_getElem _ _ hk'] at hd

theorem getD_map_range {β : Type} {f : ℕ → β} {n : ℕ} {d : β} (h : ∀ k, n ≤ k → f k = d) (k : ℕ) :
    ((List.range n).map f).getD k d = f k := by
  rw [List.getD_eq_getElem?_getD, List.getElem?_map]
  rcases lt_or_ge k n with hk | hk
  · rw [List.getElem?_range hk]
    rfl
  · rw [List.getElem?_eq_none (by rwa [List.length_range]), h k hk]
    rfl

namespace Grid

variable {α : Type} [Zero α]

def shape (g : Grid α) : ℕ × ℕ := (g.rows, g.cols)

theorem entry_outside {g : Grid α} {i j : ℕ} (h : ¬(i < g.rows ∧ j < g.cols)) :
    g.entry i j = 0 := by
  rw [entry, get?, if_neg h, Option.getD_none]

theorem entry_zipWith {f : α → α → α} {g h : Grid α} (hshape : g.shape = h.shape)
    (hf : f 0 0 = 0) (i j : ℕ) : (zipWith f g h).entry i j = f (g.entry i j) (h.entry i j) := by
  by_cases hij : i < g.rows ∧ j < g.cols
  · exact entry_ofFn _ hij.1 hij.2
  · obtain ⟨hrows, hcols⟩ := Prod.ext_iff.mp hshape
    have hout : ¬(i < h.rows ∧ j < h.cols) := fun hin =>
      hij ⟨hin.1.trans_eq hrows.symm, hin.2.trans_eq hcols.symm⟩
    rw [entry_outside hij, entry_outside hout, hf]
    exact entry_outside (g := zipWith f g h) hij

theorem eq_of_shape {g h : Grid α} (hshape : g.shape = h.shape)
    (he : ∀ i j, g.entry i j = h.entry i j) : g = h :=
  ext_entry (Prod.ext_iff.mp hshape).1 (Prod.ext_iff.mp hshape).2 fun i _ j _ => he i j

end Grid

namespace Results

variable {α : Type}

/-- What was observed at which period, and the sizes that all runs of one model share. -/
structure Form (α : Type) where
  beta : α
  averageSign : Bool
  densities : Option ℕ
  green : Option (ℕ × ℕ)
  improved : Option (ℕ × ℕ)
  totalOrders : Bool
  orders : Option ℕ

inductive Entry where
  | averageSign
  | density (color : ℕ)
  | green (color point : ℕ)
  | improved (color point : ℕ)
  | totalOrder (n : ℕ)
  | order (color n : ℕ)

section Read

variable [Zero α]

def form (r : Results α) : Form α where
  beta := r.beta
  averageSign := r.averageSign.isSome
  densities := r.densities.map List.length
  green := r.green.map Grid.shape
  improved := r.improved.map Grid.shape
  totalOrders := r.totalOrders.isSome
  orders := r.orders.map List.length

def entry (r : Results α) : Entry → α
  | .averageSign => r.averageSign.elim 0 id
  | .density c => r.densities.elim 0 (·.getD c 0)
  | .green c k => r.green.elim 0 (·.entry c k)
  | .improved c k => r.improved.elim 0 (·.entry c k)
  | .totalOrder n => r.totalOrders.elim 0 (·.getD n 0)
  | .order c n => r.orders.elim 0 fun h => (h.getD c []).getD n 0

def extent (r : Results α) : Option ℕ → ℕ
  | none => r.totalOrders.elim 0 List.length
  | some c => r.orders.elim 0 fun h => (h.getD c []).length

end Read

theorem option_eq {β γ : Type} {x y : Option β} {shape : β → γ} (h : x.map shape = y.map shape)
    (heq : ∀ a b, x = some a → y = some b → shape a = shape b → a = b) : x = y := by
  cases x with
  | none =>
    cases y with
    | none => rfl
    | some b => cases h
  | some a =>
    cases y with
    | none => cases h
    | some b => rw [heq a b rfl rfl (Option.some.inj h)]

theorem map_unit_eq {β : Type} {x y : Option β} (h : x.isSome = y.isSome) :
    x.map (fun _ => ()) = y.map fun _ => () := by
  cases x <;> cases y <;> simp_all

theorem eq_of_entries [Zero α] {a b : Results α} (hform : a.form = b.form)
    (hmeasurements : a.measurements = b.measurements) (hsum : a.signSum = b.signSum)
    (hextent : ∀ h, a.extent h = b.extent h) (hentry : ∀ e, a.entry e = b.entry e) : a = b := by
  obtain ⟨beta, n, z, sign, densities, green, improved, total, orders⟩ := a
  obtain ⟨beta', n', z', sign', densities', green', improved', total', orders'⟩ := b
  obtain ⟨hbeta, hsign, hdensities, hgreen, himproved, htotal, horders⟩ := Form.mk.inj hform
  dsimp only at hbeta hsign hdensities hgreen himproved htotal horders hmeasurements hsum
  have hsign : sign = sign' := option_eq (map_unit_eq hsign) fun x y hx hy _ => by
    subst hx hy
    exact hentry .averageSign
  have hdensities : densities = densities' := option_eq hdensities fun l m hl hm hlength => by
    subst hl hm
    exact ext_getD 0 hlength fun c _ => hentry (.density c)
  have hgreen : green = green' := option_eq hgreen fun g h hg hh hshape => by
    subst hg hh
    exact Grid.eq_of_shape hshape fun c k => hentry (.green c k)
  have himproved : improved = improved' := option_eq himproved fun g h hg hh hshape => by
    subst hg hh
    exact Grid.eq_of_shape hshape fun c k => hentry (.improved c k)
  have htotal : total = total' := option_eq (map_unit_eq htotal) fun l m hl hm _ => by
    subst hl hm
    exact ext_getD 0 (hextent none) fun n _ => hentry (.totalOrder n)
  have horders : orders = orders' := option_eq horders fun l m hl hm hlength => by
    subst hl hm
    exact ext_getD [] hlength fun c _ =>
      ext_getD 0 (hextent (some c)) fun n _ => hentry (.order c n)
  rw [hbeta, hmeasurements, hsum, hsign, hdensities, hgreen, himproved, htotal, horders]

end Results

end ImpuritySampler
