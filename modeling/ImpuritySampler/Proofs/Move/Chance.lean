import ImpuritySampler.Proofs.Move.Preserve

/-!
# Chances of proposals

The factor by which a proposal corrects for the chances to propose it and its reverse is their
exact ratio. A segment is proposed in one window only, and a hole in one segment only, by two
draws of distances that are put in order, or by one draw where the order is free. The reverse
proposal looks up the same length.
-/

set_option autoImplicit false

namespace ImpuritySampler

open Line

variable {α : Type}

section Draws

variable {w : Window α} {inOrder : Prop} [Decidable inOrder] {u : Segment α}
variable {near far near' far' : ℕ}

theorem Time.behind_inj {left : ℕ} (hl : left ≤ ticksPerPeriod) (hn : near < ticksPerPeriod)
    (hf : far < ticksPerPeriod) (h : behind left near = behind left far) : near = far := by
  by_contra hne
  rcases Nat.lt_or_eq_of_le hl with hlt | rfl
  · rw [behind_eq hlt, behind_eq hlt] at h
    unfold gap at h
    split_ifs at h <;> omega
  · exact behind_final_ne hn hf hne h

theorem Window.segment_inj (hl : w.left.ticks ≤ ticksPerPeriod) (hn : near < ticksPerPeriod)
    (hf : far < ticksPerPeriod) (hn' : near' < ticksPerPeriod) (hf' : far' < ticksPerPeriod)
    (h : w.segment near far = w.segment near' far') : near = near' ∧ far = far' := by
  obtain ⟨hann, hcre⟩ := Segment.mk.inj h
  exact ⟨Time.behind_inj hl hn hn' (congrArg Time.ticks hann),
    Time.behind_inj hl hf hf' (congrArg Time.ticks hcre)⟩

/-- Two distances below the length of the window that span the segment `u`. -/
def Window.Draws (w : Window α) (inOrder : Prop) [Decidable inOrder] (u : Segment α) :
    Set (ℕ × ℕ) :=
  {x | x.1 < w.length.ticks ∧ x.2 < w.length.ticks ∧ x.1 ≠ x.2 ∧ w.spanned inOrder x.1 x.2 = u}

theorem Window.mem_draws {left : Time α} {n : ℕ} {b : α} {x : ℕ × ℕ} :
    x ∈ Window.Draws ⟨left, ⟨n, b⟩⟩ inOrder u ↔
      x.1 < n ∧ x.2 < n ∧ x.1 ≠ x.2 ∧ Window.spanned ⟨left, ⟨n, b⟩⟩ inOrder x.1 x.2 = u :=
  Iff.rfl

theorem Window.draws_eq (hl : w.left.ticks ≤ ticksPerPeriod)
    (hlength : w.length.ticks ≤ ticksPerPeriod) {x : ℕ × ℕ} (hx : x ∈ w.Draws inOrder u) :
    w.Draws inOrder u = if inOrder then {x, x.swap} else {x} := by
  obtain ⟨h₁, h₂, hne, hu⟩ := hx
  have hcases : ∀ y ∈ w.Draws inOrder u, y = x ∨ (inOrder ∧ y = x.swap) := by
    rintro y ⟨hy₁, hy₂, hyne, hy⟩
    have hinj : ∀ {a b c d : ℕ}, a < w.length.ticks → b < w.length.ticks → c < w.length.ticks →
        d < w.length.ticks → w.segment a b = w.segment c d → a = c ∧ b = d :=
      fun ha hb hc hd => segment_inj hl (by omega) (by omega) (by omega) (by omega)
    have hsame := hy.trans hu.symm
    unfold spanned at hsame
    split_ifs at hsame with h h' h'
    · obtain ⟨h₂, h₁⟩ := hinj hy₂ hy₁ h₂ h₁ hsame
      exact .inl (Prod.ext h₁ h₂)
    · obtain ⟨h₂, h₁⟩ := hinj hy₂ hy₁ h₁ h₂ hsame
      exact .inr ⟨h.1, Prod.ext h₁ h₂⟩
    · obtain ⟨h₁, h₂⟩ := hinj hy₁ hy₂ h₂ h₁ hsame
      exact .inr ⟨h'.1, Prod.ext h₁ h₂⟩
    · obtain ⟨h₁, h₂⟩ := hinj hy₁ hy₂ h₁ h₂ hsame
      exact .inl (Prod.ext h₁ h₂)
  split_ifs with ho
  · ext y
    constructor
    · intro hy
      rcases hcases y hy with rfl | ⟨-, rfl⟩
      · exact .inl rfl
      · exact .inr rfl
    · rintro (rfl | rfl)
      · exact ⟨h₁, h₂, hne, hu⟩
      · exact ⟨h₂, h₁, hne.symm, (spanned_comm w ho _ _).trans hu⟩
  · ext y
    constructor
    · intro hy
      exact (hcases y hy).resolve_right fun h => ho h.1
    · rintro rfl
      exact ⟨h₁, h₂, hne, hu⟩

theorem Window.ncard_draws (hl : w.left.ticks ≤ ticksPerPeriod)
    (hlength : w.length.ticks ≤ ticksPerPeriod) {x : ℕ × ℕ} (hx : x ∈ w.Draws inOrder u) :
    (w.Draws inOrder u).ncard = if inOrder then 2 else 1 := by
  have hne : x ≠ x.swap := fun h => hx.2.2.1 (congrArg Prod.fst h)
  rw [draws_eq hl hlength hx]
  split_ifs
  · exact Set.ncard_pair hne
  · exact Set.ncard_singleton x

/-- The draws of a segment have the same two distances, so none of them is at the end of the window
if one is not. -/
theorem Window.ends_of_draws (hl : w.left.ticks ≤ ticksPerPeriod)
    (hlength : w.length.ticks ≤ ticksPerPeriod) {x y : ℕ × ℕ} (hx : x ∈ w.Draws inOrder u)
    (hy : y ∈ w.Draws inOrder u) (h : inOrder → x.1 ≠ 0 ∧ x.2 ≠ 0) :
    inOrder → y.1 ≠ 0 ∧ y.2 ≠ 0 := by
  intro ho
  rw [draws_eq hl hlength hx, if_pos ho] at hy
  rcases hy with rfl | rfl
  · exact h ho
  · exact (h ho).symm

/-- Draws that all choose the same place are counted by their distances. -/
theorem Window.ncard_draws_at {ι : Type} {draws : Set (ι × ℕ × ℕ)} {i : ι}
    (hindex : ∀ y ∈ draws, y.1 = i) (hmem : ∀ y, (i, y) ∈ draws ↔ y ∈ w.Draws inOrder u) :
    draws.ncard = (w.Draws inOrder u).ncard := by
  have himage : draws = Prod.mk i '' w.Draws inOrder u := by
    ext ⟨j, y⟩
    constructor
    · intro hy
      obtain rfl : j = i := hindex _ hy
      exact ⟨y, (hmem y).mp hy, rfl⟩
    · rintro ⟨z, hz, he⟩
      exact he ▸ (hmem z).mpr hz
  rw [himage, Set.ncard_image_of_injective _ (Prod.mk_right_injective i)]

end Draws

theorem Line.Hole.mem {u : Segment α} {a c : Time α} (h : Hole u a c) : a.ticks ∈ u.ticks := by
  unfold Hole at h
  split_ifs at h with hw
  · rw [Segment.ticks_whole hw, Finset.mem_range]
    exact h.1
  · exact Segment.mem_ticks_gap.mpr ⟨h.annihilation, h.order.trans_lt h.last⟩

theorem Line.Valid.hole_index {beta : α} {l : Line α} {i j : ℕ} {u v : Segment α} {a c : Time α}
    (h : l.Valid beta) (hi : l[i]? = some u) (hj : l[j]? = some v) (hu : Hole u a c)
    (hv : Hole v a c) : i = j := by
  obtain ⟨hil, rfl⟩ := List.getElem?_eq_some_iff.mp hi
  obtain ⟨hjl, rfl⟩ := List.getElem?_eq_some_iff.mp hj
  have hapart := List.pairwise_iff_getElem.mp h.apart
  rcases lt_trichotomy i j with hlt | rfl | hlt
  · exact absurd hv.mem (Finset.disjoint_left.mp (hapart i j hil hjl hlt) hu.mem)
  · rfl
  · exact absurd hu.mem (Finset.disjoint_left.mp (hapart j i hjl hil hlt) hv.mem)

variable [ExactScalar α]

/-- Chance of one of `count` draws, each of one of `n` places, or none, and two of `ticks` points.
-/
def drawChance (count n ticks : ℕ) : α :=
  (count : α) / (((max 1 n : ℕ) : α) * ((ticks : α) * (ticks : α)))

section Balance

/-- Square of the distance of two neighbouring points of the cycle. -/
def cell (beta : α) : α := (beta / (ticksPerPeriod : α)) ^ 2

theorem insertion_balance (beta : α) (n : ℕ) {ticks : ℕ} (ht : ticks ≠ 0) :
    drawChance (if 0 < n then 2 else 1) n ticks * insertionChance n (Time.scale ticks beta) =
      1 / ((n : α) + 1) * cell beta := by
  have hticks : (ticks : α) ≠ 0 := Nat.cast_ne_zero.mpr ht
  have hperiod : (ticksPerPeriod : α) ≠ 0 := Nat.cast_ne_zero.mpr ticksPerPeriod_pos.ne'
  have hsucc : ((n : α) + 1) ≠ 0 := Nat.cast_add_one_ne_zero n
  rcases Nat.eq_zero_or_pos n with rfl | hn
  · rw [drawChance, insertionChance, cell, Time.scale, if_neg (lt_irrefl 0), if_pos rfl]
    simp only [max_eq_left zero_le_one, max_eq_right zero_le_one, Nat.cast_one, Nat.cast_zero]
    field_simp
  · have hcast : (n : α) ≠ 0 := Nat.cast_ne_zero.mpr hn.ne'
    rw [drawChance, insertionChance, cell, Time.scale, if_pos hn, if_neg hn.ne', max_eq_right hn,
      max_eq_left hn]
    field_simp

theorem split_balance (beta : α) (full : Bool) {n ticks : ℕ} (hn : 0 < n) (ht : ticks ≠ 0)
    (hfull : full = true → n = 1) :
    drawChance (if full then 1 else 2) n ticks * splitChance full n (Time.scale ticks beta) =
      1 / ((if full then 1 else n + 1 : ℕ) : α) * cell beta := by
  have hticks : (ticks : α) ≠ 0 := Nat.cast_ne_zero.mpr ht
  have hperiod : (ticksPerPeriod : α) ≠ 0 := Nat.cast_ne_zero.mpr ticksPerPeriod_pos.ne'
  have hcast : (n : α) ≠ 0 := Nat.cast_ne_zero.mpr hn.ne'
  have hsucc : ((n : α) + 1) ≠ 0 := Nat.cast_add_one_ne_zero n
  rw [drawChance, splitChance, cell, Time.scale, max_eq_right hn]
  cases full with
  | true =>
    rw [hfull rfl]
    simp only [if_true, Nat.cast_one]
    field_simp
  | false =>
    simp only [Bool.false_eq_true, if_false, Nat.cast_succ]
    field_simp

end Balance

section Windows

variable {beta : α} {s : State α} {color : ℕ} {l : Line α} {u : Segment α}

theorem Window.left_le {index : Option ℕ} {w : Window α} (hb : 0 < beta)
    (hbeta : s.config.beta = beta) (hl : s.config.line color = .ok l) (hv : l.Valid beta)
    (hindex : Offered l index) (hw : insertion s color index = .ok w) :
    w.left.ticks ≤ ticksPerPeriod := by
  cases index with
  | none =>
    cases (insertion_none hb hbeta hl).symm.trans hw
    exact le_rfl
  | some i =>
    have hi : i < l.length := hindex
    have hp := List.getElem?_eq_getElem hi
    cases (insertion_some hl hv hp (List.getElem?_eq_getElem (nextPlace_lt hi))).symm.trans hw
    exact (hv.onCycle _ (List.mem_of_getElem? hp)).placed.bounds.2.le

theorem Window.index_unique {index index' : Option ℕ} {w w' : Window α} {x y : ℕ × ℕ}
    (hl : s.config.line color = .ok l) (hv : l.Valid beta) (hi : Offered l index)
    (hi' : Offered l index') (hw : insertion s color index = .ok w)
    (hw' : insertion s color index' = .ok w') (hx : x ∈ w.Draws (0 < l.length) u)
    (hy : y ∈ w'.Draws (0 < l.length) u) : index = index' := by
  cases index with
  | none =>
    obtain rfl : l = [] := hi
    cases index' with
    | none => rfl
    | some j => exact absurd hi' (Nat.not_lt_zero j)
  | some i =>
    cases index' with
    | none =>
      obtain rfl : l = [] := hi'
      exact absurd hi (Nat.not_lt_zero i)
    | some j =>
      obtain ⟨hx₁, hx₂, hxne, hxu⟩ := hx
      obtain ⟨hy₁, hy₂, hyne, hyu⟩ := hy
      obtain ⟨p, p', hp, ht, -, hplaces⟩ := neighbours_put hl hv hi hw hx₁ hx₂ hxne hxu
      obtain ⟨q, q', hq, -, -, hplaces'⟩ := neighbours_put hl hv hi' hw' hy₁ hy₂ hyne hyu
      have hput := put_place l u
      obtain rfl : p = q :=
        Option.some.inj ((hplaces _ hput).2.symm.trans (hplaces' _ hput).2)
      rw [ht.index_unique hp hq rfl]

end Windows

namespace Proposal

-- the number of ticks of a segment is not to be computed where it is compared
attribute [local irreducible] Segment.ticks

variable {beta : α} {m : Model α} {s : State α} {color : ℕ} {u : Segment α} {a c : Time α}

/-- All draws by which a segment is proposed: a place of the line, or none if it is empty, and two
distances in ticks. -/
def insertionDraws (s : State α) (m : Model α) (beta : α) (color : ℕ) (u : Segment α) :
    Set (Option ℕ × ℕ × ℕ) :=
  {x | Window.Offered (s.config.lineAt color) x.1 ∧ ∃ w o sign,
    Window.insertion s color x.1 = .ok w ∧ x.2.1 < w.length.ticks ∧ x.2.2 < w.length.ticks ∧
    insert s m color w ⟨x.2.1, beta⟩ ⟨x.2.2, beta⟩ = .ok o ∧
    o.proposal = some ⟨color, .insert u, sign⟩}

def splitDraws (s : State α) (m : Model α) (beta : α) (color : ℕ) (a c : Time α) :
    Set (ℕ × ℕ × ℕ) :=
  {x | ∃ w o sign, Window.split s color x.1 = .ok w ∧
    x.2.1 < w.length.ticks ∧ x.2.2 < w.length.ticks ∧
    split s m color x.1 ⟨x.2.1, beta⟩ ⟨x.2.2, beta⟩ = .ok o ∧
    o.proposal = some ⟨color, .split x.1 a c, sign⟩}

/-- The segment `u` is drawn in the window `w` at `index` alone, by two draws or by one. Its removal
finds the length of the window again, and the factor for the chances is their ratio. -/
structure InsertionBalance (s : State α) (m : Model α) (beta : α) (color : ℕ) (u : Segment α)
    (index : Option ℕ) (w : Window α) (place : ℕ) (after : Configuration α) : Prop where
  window : Window.insertion s color index = .ok w
  inserted : s.config.insert color u = .ok (place, after)
  alone : ∀ y ∈ insertionDraws s m beta color u, y.1 = index
  count : (insertionDraws s m beta color u).ncard =
    if 0 < (s.config.lineAt color).length then 2 else 1
  length : (after.lineAt color).length = (s.config.lineAt color).length + 1
  found : ∀ j, (after.lineAt color)[j]? = some u ↔ j = place
  removal : ∀ t : State α, t.config = after → Window.removalLength t color place = .ok w.length
  price : ∀ y ∈ insertionDraws s m beta color u, ∃ trace ratio trial,
    LocalRatio.insert s.config m color u = .ok trace ∧
    s.tryPair color u.annihilation u.creation = .ok (ratio, trial) ∧
    insert s m color w ⟨y.2.1, beta⟩ ⟨y.2.2, beta⟩ =
      .ok (offer trial color (.insert u) trace ratio
        (insertionChance (s.config.lineAt color).length w.length.value))
  balance : drawChance (insertionDraws s m beta color u).ncard (s.config.lineAt color).length
      w.length.ticks * insertionChance (s.config.lineAt color).length w.length.value =
    1 / (((after.lineAt color).length : ℕ) : α) * cell beta

/-- The hole from `a` to `c` is drawn in the segment at `index` alone, by two draws or, in the full
line, by one. Closing it at the piece that starts at `c` finds the length of the segment again, and
the factor for the chances is their ratio. -/
structure SplitBalance (s : State α) (m : Model α) (beta : α) (color : ℕ) (a c : Time α)
    (index : ℕ) (w : Window α) (full : Bool) (piece : ℕ) (after : Configuration α) : Prop where
  window : Window.split s color index = .ok w
  line : s.config.isFull color = .ok full
  cut : s.config.split color index a c = .ok after
  alone : ∀ y ∈ splitDraws s m beta color a c, y.1 = index
  count : (splitDraws s m beta color a c).ncard = if full then 1 else 2
  length : (after.lineAt color).length = if full then 1 else (s.config.lineAt color).length + 1
  found : ∀ j, (∃ p, (after.lineAt color)[j]? = some p ∧ p.creation = c) ↔ j = piece
  closing : ∀ (t : State α) (o : Offer α), t.config = after →
    (regroup t m color piece = .ok o ↔ ∃ trace ratio trial,
      LocalRatio.regroup t.config m color piece = .ok trace ∧
      t.tryDrop color (nextPlace piece (after.lineAt color).length) c = .ok (ratio, trial) ∧
      o = offer trial color (.regroup piece) trace ratio
        (closingChance (after.lineAt color).length w.length.value))
  price : ∀ y ∈ splitDraws s m beta color a c, ∃ trace ratio trial,
    LocalRatio.split s.config m color a c = .ok trace ∧
    s.tryPair color a c = .ok (ratio, trial) ∧
    split s m color index ⟨y.2.1, beta⟩ ⟨y.2.2, beta⟩ =
      .ok (offer trial color (.split index a c) trace ratio
        (splitChance full (s.config.lineAt color).length w.length.value))
  balance : drawChance (splitDraws s m beta color a c).ncard (s.config.lineAt color).length
      w.length.ticks * splitChance full (s.config.lineAt color).length w.length.value =
    1 / (((after.lineAt color).length : ℕ) : α) * cell beta

def Priced (s : State α) (m : Model α) (color : ℕ) (u : Segment α) : Prop :=
  ∃ trace ratio trial, LocalRatio.insert s.config m color u = .ok trace ∧
    s.tryPair color u.annihilation u.creation = .ok (ratio, trial)

theorem mem_insertionDraws {index : Option ℕ} {w : Window α} {x : ℕ × ℕ} (hb : 0 < beta)
    (hbeta : s.config.beta = beta) (hc : color < s.config.colors)
    (hv : (s.config.lineAt color).Valid beta)
    (hindex : Window.Offered (s.config.lineAt color) index)
    (hw : Window.insertion s color index = .ok w) :
    (index, x) ∈ insertionDraws s m beta color u ↔
      x ∈ w.Draws (0 < (s.config.lineAt color).length) u ∧ Priced s m color u := by
  have hline := Configuration.line_eq hc
  obtain ⟨w', hw', hinserts⟩ := Window.insertion_defined hb hbeta hline hv hindex
  cases hw'.symm.trans hw
  constructor
  · rintro ⟨-, v, o, sign, hv, h₁, h₂, ho, hproposal⟩
    cases hw.symm.trans hv
    have hne : x.1 ≠ x.2 := fun he => by
      rw [insert, if_pos he] at ho
      cases ho
      cases hproposal
    obtain ⟨trace, ratio, trial, htrace, htrial, rfl⟩ :=
      (insert_eq_ok hline hinserts rfl rfl h₁ h₂ hne rfl).mp ho
    cases hproposal
    exact ⟨⟨h₁, h₂, hne, rfl⟩, trace, ratio, trial, htrace, htrial⟩
  · rintro ⟨⟨h₁, h₂, hne, hu⟩, trace, ratio, trial, htrace, htrial⟩
    exact ⟨hindex, w, _, _, hw, h₁, h₂, (insert_eq_ok hline hinserts rfl rfl h₁ h₂ hne hu).mpr
      ⟨trace, ratio, trial, htrace, htrial, rfl⟩, rfl⟩

theorem insertion_balanced {x : Option ℕ × ℕ × ℕ} (hb : 0 < beta) (hbeta : s.config.beta = beta)
    (hv : s.config.Valid beta) (hc : color < s.config.colors)
    (hx : x ∈ insertionDraws s m beta color u) :
    ∃ w place after, InsertionBalance s m beta color u x.1 w place after := by
  have hline := Configuration.line_eq hc
  have hvalid := hv.lineAt hc
  obtain ⟨index, x⟩ := x
  obtain ⟨hindex, w, -, -, hw, -⟩ := id hx
  obtain ⟨w', hw', hinserts⟩ := Window.insertion_defined hb hbeta hline hvalid hindex
  cases hw'.symm.trans hw
  obtain ⟨hdraw, hpriced⟩ := (mem_insertionDraws hb hbeta hc hvalid hindex hw).mp hx
  obtain ⟨h₁, h₂, hne, hu⟩ := id hdraw
  have hunique : ∀ y ∈ insertionDraws s m beta color u, y.1 = index := by
    rintro ⟨i, y⟩ hy
    obtain ⟨hi, v, -, -, hv, -⟩ := id hy
    exact Window.index_unique hline hvalid hi hindex hv hw
      ((mem_insertionDraws hb hbeta hc hvalid hi hv).mp hy).1 hdraw
  have hmem : ∀ y, (index, y) ∈ insertionDraws s m beta color u ↔
      y ∈ w.Draws (0 < (s.config.lineAt color).length) u := fun y =>
    (mem_insertionDraws hb hbeta hc hvalid hindex hw).trans (and_iff_left hpriced)
  have hleft := Window.left_le hb hbeta hline hvalid hindex hw
  have hcount := (Window.ncard_draws_at hunique hmem).trans
    (Window.ncard_draws hleft hinserts.le hdraw)
  have hfits := hinserts.fits_spanned h₁ h₂ hne
  rw [show w.spanned _ x.1 x.2 = u from hu] at hfits
  have hput := put_place (s.config.lineAt color) u
  have htidy := hfits.tidy_put hvalid
  have hafter := Configuration.line_setLine hc ((s.config.lineAt color).put u)
  have hcafter : color < (s.config.setLine color ((s.config.lineAt color).put u)).colors := by
    rwa [Configuration.colors_setLine]
  refine ⟨w, _, _, hw, Configuration.insert_eq hc u, hunique, hcount, ?_, fun j => ?_, ?_, ?_, ?_⟩
  · rw [hafter, length_put]
  · rw [hafter]
    constructor
    · intro hj
      exact htidy.index_unique hj hput rfl
    · rintro rfl
      exact hput
  · intro t ht
    exact Window.removalLength_put hb hbeta (by rw [ht]; exact hbeta) hline hvalid hindex hw h₁ h₂
      hne hu (by rw [ht, Configuration.line_eq hcafter, hafter]) hput
  · rintro ⟨i, y⟩ hy
    obtain rfl : i = index := hunique _ hy
    obtain ⟨hy₁, hy₂, hyne, hyu⟩ := (hmem y).mp hy
    obtain ⟨trace, ratio, trial, htrace, htrial⟩ := hpriced
    exact ⟨trace, ratio, trial, htrace, htrial,
      (insert_eq_ok hline hinserts rfl rfl hy₁ hy₂ hyne hyu).mpr
        ⟨trace, ratio, trial, htrace, htrial, rfl⟩⟩
  · rw [hcount, Time.value, hinserts.length, hafter, length_put, Nat.cast_succ]
    exact insertion_balance _ _ (Nat.zero_lt_of_lt h₁).ne'

theorem of_mem_splitDraws {i : ℕ} {x : ℕ × ℕ} (hb : 0 < beta) (hv : s.config.Valid beta)
    (hc : color < s.config.colors) (hx : (i, x) ∈ splitDraws s m beta color a c) :
    ∃ u trace ratio trial, (s.config.lineAt color)[i]? = some u ∧
      x ∈ Window.Draws ⟨u.annihilation, ⟨u.ticks.card, beta⟩⟩ (¬u.Whole) ⟨c, a⟩ ∧
      (¬u.Whole → x.1 ≠ 0 ∧ x.2 ≠ 0) ∧ LocalRatio.split s.config m color a c = .ok trace ∧
      s.tryPair color a c = .ok (ratio, trial) := by
  have hline := Configuration.line_eq hc
  obtain ⟨w, o, sign, hw, h₁, h₂, ho, hproposal⟩ := hx
  obtain ⟨u, hu, hcycle, rfl⟩ := Window.of_split (hv.lineAt hc) hline hw
  dsimp only at h₁ h₂
  have hfull := Configuration.isFull_eq hb hv hc hu
  have hsplits : x.1 ≠ x.2 ∧ (¬u.Whole → x.1 ≠ 0 ∧ x.2 ≠ 0) := by
    by_contra hd
    rw [split_degenerate hline hfull hd] at ho
    cases ho
    cases hproposal
  obtain ⟨⟨c', a'⟩, hac⟩ : ∃ h, Window.spanned ⟨u.annihilation, ⟨u.ticks.card, beta⟩⟩ (¬u.Whole)
      x.1 x.2 = h := ⟨_, rfl⟩
  obtain ⟨trace, ratio, trial, htrace, htrial, rfl⟩ :=
    (split_eq_ok hline hu hcycle hfull rfl rfl h₁ h₂ hsplits.1 hsplits.2 hac).mp ho
  cases hproposal
  exact ⟨u, trace, ratio, trial, hu, Window.mem_draws.mpr ⟨h₁, h₂, hsplits.1, hac⟩, hsplits.2,
    htrace, htrial⟩

/-- Every draw that spans the hole proposes it, at the same price. -/
theorem split_of_draw {i : ℕ} {x : ℕ × ℕ} {trace ratio : α} {trial : State α} (hb : 0 < beta)
    (hv : s.config.Valid beta) (hc : color < s.config.colors)
    (hu : (s.config.lineAt color)[i]? = some u)
    (hx : x ∈ Window.Draws ⟨u.annihilation, ⟨u.ticks.card, beta⟩⟩ (¬u.Whole) ⟨c, a⟩)
    (hends : ¬u.Whole → x.1 ≠ 0 ∧ x.2 ≠ 0)
    (htrace : LocalRatio.split s.config m color a c = .ok trace)
    (htrial : s.tryPair color a c = .ok (ratio, trial)) :
    split s m color i ⟨x.1, beta⟩ ⟨x.2, beta⟩ = .ok (offer trial color (.split i a c) trace ratio
      (splitChance (decide u.Whole) (s.config.lineAt color).length
        (Time.scale u.ticks.card beta))) := by
  obtain ⟨h₁, h₂, hne, hac⟩ := Window.mem_draws.mp hx
  have hcycle := (hv.lineAt hc).onCycle u (List.mem_of_getElem? hu)
  exact (split_eq_ok (Configuration.line_eq hc) hu hcycle (Configuration.isFull_eq hb hv hc hu) rfl
    rfl h₁ h₂ hne hends hac).mpr ⟨trace, ratio, trial, htrace, htrial, rfl⟩

/-- One draw of a hole shows which segment it is cut into; the other draws are those of the same two
points of this segment. -/
theorem mem_splitDraws {i : ℕ} {x : ℕ × ℕ} {trace ratio : α} {trial : State α} (hb : 0 < beta)
    (hv : s.config.Valid beta) (hc : color < s.config.colors)
    (hu : (s.config.lineAt color)[i]? = some u)
    (hx : x ∈ Window.Draws ⟨u.annihilation, ⟨u.ticks.card, beta⟩⟩ (¬u.Whole) ⟨c, a⟩)
    (hends : ¬u.Whole → x.1 ≠ 0 ∧ x.2 ≠ 0)
    (htrace : LocalRatio.split s.config m color a c = .ok trace)
    (htrial : s.tryPair color a c = .ok (ratio, trial)) {y : ℕ × ℕ} :
    (i, y) ∈ splitDraws s m beta color a c ↔
      y ∈ Window.Draws ⟨u.annihilation, ⟨u.ticks.card, beta⟩⟩ (¬u.Whole) ⟨c, a⟩ := by
  have hcycle := (hv.lineAt hc).onCycle u (List.mem_of_getElem? hu)
  constructor
  · intro hy
    obtain ⟨v, -, -, -, hv, hdraw, -⟩ := of_mem_splitDraws hb hv hc hy
    cases hu.symm.trans hv
    exact hdraw
  · intro hy
    obtain ⟨h₁, h₂, -⟩ := Window.mem_draws.mp hy
    have hends := Window.ends_of_draws hcycle.placed.bounds.1 u.card_ticks_le hx hy hends
    exact ⟨_, _, _, Window.split_eq (Configuration.line_eq hc) hu hcycle, h₁, h₂,
      split_of_draw hb hv hc hu hy hends htrace htrial, rfl⟩

theorem splitDraws_index {i : ℕ} (hb : 0 < beta) (hv : s.config.Valid beta)
    (hc : color < s.config.colors) (hu : (s.config.lineAt color)[i]? = some u) (hhole : Hole u a c)
    {y : ℕ × ℕ × ℕ} (hy : y ∈ splitDraws s m beta color a c) : y.1 = i := by
  obtain ⟨j, y⟩ := y
  obtain ⟨v, -, -, -, hvj, hdraw, hends, -, -⟩ := of_mem_splitDraws hb hv hc hy
  obtain ⟨h₁, h₂, hne, hac⟩ := Window.mem_draws.mp hdraw
  have hcycle := (hv.lineAt hc).onCycle v (List.mem_of_getElem? hvj)
  exact (hv.lineAt hc).hole_index hvj hu (hcycle.hole_spanned h₁ h₂ hne hends hac).1 hhole

theorem split_balanced {x : ℕ × ℕ × ℕ} (hb : 0 < beta) (hbeta : s.config.beta = beta)
    (hv : s.config.Valid beta) (hc : color < s.config.colors)
    (hx : x ∈ splitDraws s m beta color a c) :
    ∃ w full piece after, SplitBalance s m beta color a c x.1 w full piece after := by
  have hline := Configuration.line_eq hc
  have hvalid := hv.lineAt hc
  obtain ⟨i, x⟩ := x
  obtain ⟨u, trace, ratio, trial, hu, hdraw, hends, htrace, htrial⟩ := of_mem_splitDraws hb hv hc hx
  obtain ⟨h₁, h₂, hne, hac⟩ := Window.mem_draws.mp hdraw
  have hul := List.mem_of_getElem? hu
  have hcycle := hvalid.onCycle u hul
  obtain ⟨hhole, ha, hcp⟩ := hcycle.hole_spanned h₁ h₂ hne hends hac
  have hindex : ∀ y ∈ splitDraws s m beta color a c, y.1 = i := fun y =>
    splitDraws_index hb hv hc hu hhole
  have hmem : ∀ y, (i, y) ∈ splitDraws s m beta color a c ↔
      y ∈ Window.Draws ⟨u.annihilation, ⟨u.ticks.card, beta⟩⟩ (¬u.Whole) ⟨c, a⟩ := fun _ =>
    mem_splitDraws hb hv hc hu hdraw hends htrace htrial
  have hcount : (splitDraws s m beta color a c).ncard = if u.Whole then 1 else 2 := by
    rw [Window.ncard_draws_at hindex hmem,
      Window.ncard_draws hcycle.placed.bounds.1 u.card_ticks_le hdraw]
    exact ite_not ..
  have htidy := hvalid.tidy_holed hu hhole
  have hafter := Configuration.line_setLine hc ((s.config.lineAt color).holed i u a c)
  have hcafter : color <
      (s.config.setLine color ((s.config.lineAt color).holed i u a c)).colors := by
    rwa [Configuration.colors_setLine]
  have hlength := hvalid.length_holed hu a c
  obtain ⟨j, p, q, hp, hq, hmerged, -, hpc, -⟩ := hvalid.closed_holed hu ha hcp hhole
  refine ⟨_, _, j, _, Window.split_eq hline hu hcycle, Configuration.isFull_eq hb hv hc hu,
    Configuration.split_eq hb hv hc hu, hindex, ?_, ?_, fun k => ?_, fun t o ht => ?_, ?_, ?_⟩
  · simpa only [decide_eq_true_eq] using hcount
  · rw [hafter]
    simpa only [decide_eq_true_eq] using hlength
  · rw [hafter]
    constructor
    · rintro ⟨r, hr, hrc⟩
      exact htidy.creation_unique hr hp (by rw [hrc, hpc])
    · rintro rfl
      exact ⟨p, hp, hpc⟩
  · rw [regroup_eq_ok (by rw [ht, Configuration.line_eq hcafter, hafter])
      (hvalid.holed hu ha hcp hhole) htidy hp hq (by rw [ht]; exact hbeta), hafter, hpc,
      closedLength_holed hvalid hu hmerged]
    rfl
  · rintro ⟨k, y⟩ hy
    obtain rfl : k = i := hindex _ hy
    have hy := (hmem y).mp hy
    have hends := Window.ends_of_draws hcycle.placed.bounds.1 u.card_ticks_le hdraw hy hends
    exact ⟨trace, ratio, trial, htrace, htrial,
      split_of_draw hb hv hc hu hy hends htrace htrial⟩
  · have hbalance := split_balance beta (decide u.Whole)
      (List.length_pos_of_mem hul) (Nat.zero_lt_of_lt h₁).ne' fun hwhole => by
        rw [(holed_whole (a := a) (c := c) hvalid hu (of_decide_eq_true hwhole)).1,
          List.length_singleton]
    simp only [decide_eq_true_eq] at hbalance
    rw [hcount, hafter, hlength]
    exact hbalance

/-- On valid lines, whatever the model and the determinants, the factor for the chances of every
insertion is the ratio of the chances to draw it and to draw its removal, and so it is for every
split and the closing of its hole. -/
theorem chances_balance (hb : 0 < s.config.beta) (hv : s.config.Valid s.config.beta)
    (hc : color < s.config.colors) :
    (∀ u, ∀ x ∈ insertionDraws s m s.config.beta color u,
      ∃ w place after, InsertionBalance s m s.config.beta color u x.1 w place after) ∧
    ∀ a c, ∀ x ∈ splitDraws s m s.config.beta color a c,
      ∃ w full piece after, SplitBalance s m s.config.beta color a c x.1 w full piece after :=
  ⟨fun _ _ hx => insertion_balanced hb rfl hv hc hx, fun _ _ _ hx => split_balanced hb rfl hv hc hx⟩

theorem chances_balance_touching :
    0 < touching.config.beta ∧ touching.config.Valid touching.config.beta ∧
    0 < touching.config.colors ∧
    (∃ u, (some 0, 0, 1) ∈ insertionDraws touching LocalRatio.flatModel 1 0 u ∧
      ∃ w place after,
        InsertionBalance touching LocalRatio.flatModel 1 0 u (some 0) w place after) ∧
    ∃ a c, (1, 1, 5) ∈ splitDraws touching LocalRatio.flatModel 1 0 a c ∧
      ∃ w full piece after,
        SplitBalance touching LocalRatio.flatModel 1 0 a c 1 w full piece after := by
  have hmatched := (State.consistent_iff one_pos).mp touching_consistent
  have hset := Setting.of_ofParams LocalRatio.ofParams_flat LocalRatio.flat_kernels
    LocalRatio.flat_tables touching_consistent touching_run
    (Nat.zero_lt_one : 0 < LocalRatio.flat.colors)
  have hline : touching.config.line 0 = .ok (touching.config.lineAt 0) :=
    Configuration.line_eq hset.lt
  have hindex : Window.Offered (touching.config.lineAt 0) (some 0) := Nat.zero_lt_two
  obtain ⟨hinsertions, hsplits⟩ :=
    chances_balance (m := LocalRatio.flatModel) (one_pos : (0 : ℝ) < touching.config.beta)
      hmatched.valid hset.lt
  have hinsertion : ∃ u, (some 0, 0, 1) ∈ insertionDraws touching LocalRatio.flatModel 1 0 u := by
    obtain ⟨w, hw, hinserts⟩ := Window.insertion_defined one_pos rfl hline hset.line hindex
    have hlength : w.length.ticks = 2 :=
      congrArg (fun w : Window ℝ => w.length.ticks)
        (Except.ok.inj (hw.symm.trans (Window.insertion_some hline hset.line rfl rfl)))
    have hzero : 0 < w.length.ticks := by rw [hlength]; decide
    have hone : 1 < w.length.ticks := by rw [hlength]; decide
    obtain ⟨o, ho, u, -, sign, after, hproposal, -⟩ := hset.insert_moves hinserts
      (rfl : (⟨0, 1⟩ : Time ℝ).period = 1) (rfl : (⟨1, 1⟩ : Time ℝ).period = 1) hzero hone
      (by decide)
    exact ⟨u, hindex, w, o, sign, hw, hzero, hone, ho, hproposal⟩
  have hsplit : ∃ a c, (1, 1, 5) ∈ splitDraws touching LocalRatio.flatModel 1 0 a c := by
    have hu : (touching.config.lineAt 0)[1]? = some ⟨⟨3, 1⟩, ⟨10, 1⟩⟩ := rfl
    have hcycle := hset.line.onCycle _ (List.mem_of_getElem? hu)
    have hcard : (Segment.mk (⟨3, 1⟩ : Time ℝ) ⟨10, 1⟩).ticks.card = Time.gap 3 10 :=
      Segment.card_ticks hcycle.placed
    have hone : 1 < (Segment.mk (⟨3, 1⟩ : Time ℝ) ⟨10, 1⟩).ticks.card := by rw [hcard]; decide
    have hfive : 5 < (Segment.mk (⟨3, 1⟩ : Time ℝ) ⟨10, 1⟩).ticks.card := by rw [hcard]; decide
    obtain ⟨o, ho, a, c, -, -, sign, after, hproposal, -⟩ := hset.split_moves hu
      (rfl : (⟨1, 1⟩ : Time ℝ).period = 1) (rfl : (⟨5, 1⟩ : Time ℝ).period = 1) hone hfive
      ⟨by decide, fun _ => by decide⟩
    exact ⟨a, c, _, o, sign, Window.split_eq hline hu hcycle, hone, hfive, ho, hproposal⟩
  obtain ⟨u, hu⟩ := hinsertion
  obtain ⟨a, c, hac⟩ := hsplit
  exact ⟨one_pos, hmatched.valid, hset.lt, ⟨u, hu, hinsertions u _ hu⟩, a, c, hac,
    hsplits a c _ hac⟩

end Proposal

end ImpuritySampler
