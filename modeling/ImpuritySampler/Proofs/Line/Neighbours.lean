import ImpuritySampler.Proofs.Move.Window

/-!
# Neighbours of a changed segment

A segment that is put into the window next to another one comes to stand between the two ends of
the window. The two pieces of a segment that has been cut are neighbours, and the gap between them
is the hole. Where a segment stands is fixed by its annihilation time, so a place can be looked up
again.
-/

set_option autoImplicit false

namespace ImpuritySampler

namespace Line

open Time

variable {α : Type} {beta : α} {l : Line α} {s u p q : Segment α} {a c : Time α} {i j : ℕ}

def previousPlace (i n : ℕ) : ℕ := if i = 0 then n - 1 else i - 1

theorem previous_eq (hi : i < l.length) :
    (previous i l.length : Outcome α ℕ) = .ok (previousPlace i l.length) := by
  rw [previous, Outcome.require_true hi]
  rfl

theorem previousPlace_nextPlace (i n : ℕ) : previousPlace (nextPlace i n) n = i := by
  by_cases h : i + 1 = n
  · rw [nextPlace, if_pos h, previousPlace, if_pos rfl, ← h, Nat.add_sub_cancel]
  · rw [nextPlace, if_neg h, previousPlace, if_neg (Nat.succ_ne_zero i), Nat.add_sub_cancel]

theorem Tidy.index_unique (h : Tidy l) (hi : l[i]? = some p) (hj : l[j]? = some q)
    (he : p.annihilation.ticks = q.annihilation.ticks) : i = j :=
  Falling.index_unique h.sorted hi hj he

theorem Tidy.creation_unique (h : Tidy l) (hi : l[i]? = some p) (hj : l[j]? = some q)
    (he : p.creation.ticks = q.creation.ticks) : i = j := by
  have hget : ∀ {k : ℕ} {r : Segment α}, l[k]? = some r →
      (l.map (·.creation.ticks))[k]? = some r.creation.ticks := fun hk => by
    rw [List.getElem?_map, hk, Option.map_some]
  have hlt := (List.getElem?_eq_some_iff.mp (hget hi)).1
  exact (List.getElem?_inj hlt h.creations_nodup).mp (by rw [hget hi, hget hj, he])

section Put

theorem put_place (l : Line α) (s : Segment α) : (l.put s)[l.place s]? = some s := by
  rw [put, List.getElem?_insertIdx_self, if_pos (place_le l s)]

theorem eraseIdx_put (l : Line α) (s : Segment α) : (l.put s).eraseIdx (l.place s) = l :=
  List.eraseIdx_insertIdx_self ..

theorem length_put (l : Line α) (s : Segment α) : (l.put s).length = l.length + 1 :=
  (put_perm l s).length_eq

theorem Fits.tidy_put (h : Fits beta l s) (hv : l.Valid beta) : Tidy (l.put s) :=
  (h.valid_put hv).tidy (List.mem_of_getElem? (put_place l s)) h.not_whole

/-- What a segment leaves of its window: neither part shares a tick with it. -/
theorem window_parts {left x near far : ℕ} {b : α} (hl : left < ticksPerPeriod)
    (hx : x < ticksPerPeriod) (hn : near < far) (hf : far < gap left x) {u : Segment α}
    (hu : u = ⟨⟨left, b⟩, ⟨behind left near, b⟩⟩ ∨ u = ⟨⟨behind left far, b⟩, ⟨x, b⟩⟩) :
    u.ticks ⊆ (Segment.mk (⟨left, b⟩ : Time α) ⟨x, b⟩).ticks ∧
      Disjoint (Segment.mk (⟨behind left near, b⟩ : Time α) ⟨behind left far, b⟩).ticks
        u.ticks := by
  have h₁ := gap_behind hl hx (hn.trans hf).le
  have h₂ := gap_behind hl hx hf.le
  have hwindow : (Segment.mk (⟨left, b⟩ : Time α) ⟨x, b⟩).Regular := ⟨hl, hx⟩
  have hmiddle : ∀ {t : ℕ},
      t ∈ (Segment.mk (⟨behind left near, b⟩ : Time α) ⟨behind left far, b⟩).ticks ↔
        t < ticksPerPeriod ∧ gap left x - far ≤ gap t x ∧ gap t x < gap left x - near := by
    intro t
    rw [Segment.mem_part hwindow (behind_lt _ _) (behind_lt _ _) (by dsimp only; omega)]
    dsimp only
    rw [h₁, h₂]
  rcases hu with rfl | rfl
  · have hu : ∀ {t : ℕ}, t ∈ (Segment.mk (⟨left, b⟩ : Time α) ⟨behind left near, b⟩).ticks ↔
        t < ticksPerPeriod ∧ gap left x - near ≤ gap t x ∧ gap t x < gap left x := fun {t} => by
      rw [Segment.mem_part hwindow (behind_lt _ _) hl (by dsimp only; omega)]
      dsimp only
      rw [h₁]
    refine ⟨fun t ht => ?_, Finset.disjoint_left.mpr fun t ht htu => ?_⟩
    · exact Segment.mem_mk.mpr ⟨(hu.mp ht).1, (hu.mp ht).2.2⟩
    · exact absurd (hmiddle.mp ht).2.2 (not_lt.mpr (hu.mp htu).2.1)
  · have hu : ∀ {t : ℕ}, t ∈ (Segment.mk (⟨behind left far, b⟩ : Time α) ⟨x, b⟩).ticks ↔
        t < ticksPerPeriod ∧ gap t x < gap left x - far := fun {t} => by
      rw [Segment.mem_mk]
      dsimp only
      rw [h₂]
    refine ⟨fun t ht => ?_, Finset.disjoint_left.mpr fun t ht htu => ?_⟩
    · exact Segment.mem_mk.mpr ⟨(hu.mp ht).1, (hu.mp ht).2.trans_le (Nat.sub_le _ _)⟩
    · exact absurd (hu.mp htu).2 (not_lt.mpr (hmiddle.mp ht).2.1)

/-- A segment that is put into a window stands between the two ends of the window. -/
theorem Tidy.put_neighbours (h : Tidy l) (hp : l[i]? = some p)
    (hq : l[nextPlace i l.length]? = some q) {near far : ℕ} (hn : near < far)
    (hf : far < gap p.creation.ticks q.annihilation.ticks)
    (hs : s = ⟨⟨behind p.creation.ticks near, beta⟩, ⟨behind p.creation.ticks far, beta⟩⟩)
    (hj : (l.put s)[j]? = some s) :
    (l.put s)[nextPlace j (l.put s).length]? = some q ∧
      (l.put s)[previousPlace j (l.put s).length]? = some p := by
  have hpl := List.mem_of_getElem? hp
  have hql := List.mem_of_getElem? hq
  have hpc := (h.regular p hpl).2
  have hqa := (h.regular q hql).1
  have hfits : Fits beta l s := hs ▸ h.fits hp hq hn hf
  have htidy := h.put hfits.regular hfits.positive hfits.apart
  have hperm := put_perm l s
  -- the outer parts of the window are free of the new segment, and of the old ones
  have hclear : ∀ u : Finset ℕ, Disjoint s.ticks u →
      u ⊆ (Segment.mk p.creation q.annihilation).ticks → Disjoint (ticks (l.put s)) u := by
    intro u hsu hu
    rw [ticks_perm hperm, ticks_cons, Finset.disjoint_union_left]
    exact ⟨hsu, (disjoint_ticks fun r hr => h.gap_free hp hq r hr).mono_right hu⟩
  have hafter : Disjoint (ticks (l.put s)) (Segment.mk s.creation q.annihilation).ticks := by
    obtain ⟨hsub, hd⟩ := window_parts (b := beta) hpc hqa hn hf (.inr rfl)
    subst hs
    exact hclear _ hd hsub
  have hbefore : Disjoint (ticks (l.put s)) (Segment.mk p.creation s.annihilation).ticks := by
    obtain ⟨hsub, hd⟩ := window_parts (b := beta) hpc hqa hn hf (.inl rfl)
    subst hs
    exact hclear _ hd hsub
  obtain ⟨k, hk⟩ := List.mem_iff_getElem?.mp (hperm.mem_iff.mpr (List.mem_cons_of_mem s hpl))
  have hks := htidy.next_of_gap hk (List.mem_of_getElem? hj) hbefore
  refine ⟨htidy.next_of_gap hj (hperm.mem_iff.mpr (List.mem_cons_of_mem s hql)) hafter, ?_⟩
  rw [← htidy.index_unique hks hj rfl,
    previousPlace_nextPlace, hk]

end Put

theorem length_holed (hu : l[i]? = some u) (hw : ¬u.Whole) (a c : Time α) :
    (l.holed i u a c).length = l.length + 1 := by
  have hcut := (cut_perm (l.eraseIdx i) u a c).length_eq
  have hrest := (perm_eraseIdx hu).length_eq
  rw [List.length_cons] at hrest
  rw [holed, if_neg hw, hcut, List.length_cons, List.length_cons, hrest]

theorem Valid.length_holed (h : l.Valid beta) (hu : l[i]? = some u) (a c : Time α) :
    (l.holed i u a c).length = if u.Whole then 1 else l.length + 1 := by
  split_ifs with hw
  · rw [(holed_whole h hu hw).2, List.length_singleton]
  · exact Line.length_holed hu hw a c

/-- The piece that starts where a hole ends is followed by the piece that ends where the hole
starts, and closing the gap between them gives the line back. -/
theorem Valid.piece_holed (h : l.Valid beta) (hu : l[i]? = some u) (ha : a.IsPoint beta)
    (hc : c.IsPoint beta) (hh : Hole u a c) (hp : (l.holed i u a c)[j]? = some p)
    (he : p.creation.ticks = c.ticks) :
    ∃ q, (l.holed i u a c)[nextPlace j (l.holed i u a c).length]? = some q ∧
      p.creation = c ∧ q.annihilation = a ∧
      (if (l.holed i u a c).length = 1 then whole beta else joined p q) = u ∧
      Line.closed beta (l.holed i u a c) j p q = l := by
  obtain ⟨k, p', q, hp', hq, hmerged, hback, hcreation, hannihilation⟩ :=
    h.closed_holed hu ha hc hh
  obtain rfl : k = j := (h.tidy_holed hu hh).creation_unique hp' hp (by rw [hcreation, he])
  cases hp'.symm.trans hp
  exact ⟨q, hq, hcreation, hannihilation, hmerged, hback⟩

end Line

end ImpuritySampler
