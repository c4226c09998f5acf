import ImpuritySampler.Proofs.Line.Sorted

/-!
# Places among equal times

A sequence of times that never rises may hold a time more than once. The search for a place stops
before the first time that is not later, so before all that are equal. A new time keeps the sequence
from rising there. The first strictly smaller time comes after the equal ones, so it is at the place
found only if the time is new.
-/

set_option autoImplicit false

namespace ImpuritySampler

namespace Search

/-- The search as a loop over its two bounds. Each pass looks at one place, which may have nothing
to show, and `passes` have to be enough. -/
def narrow (look : ℕ → Option ℕ) (value : ℕ) : ℕ → ℕ → ℕ → Option ℕ
  | 0, lo, hi => if lo < hi then none else some lo
  | passes + 1, lo, hi =>
    if lo < hi then do
      let ticks ← look (lo + (hi - lo) / 2)
      if value < ticks then narrow look value passes (lo + (hi - lo) / 2 + 1) hi
      else narrow look value passes lo (lo + (hi - lo) / 2)
    else some lo

section Narrow

variable {look : ℕ → Option ℕ} {value passes lo hi : ℕ}

theorem narrow_done (h : ¬lo < hi) : narrow look value passes lo hi = some lo := by
  cases passes with
  | zero => rw [narrow, if_neg h]
  | succ passes => rw [narrow, if_neg h]

theorem narrow_step {x : ℕ} (h : lo < hi) (hlook : look (lo + (hi - lo) / 2) = some x) :
    narrow look value (passes + 1) lo hi =
      if value < x then narrow look value passes (lo + (hi - lo) / 2 + 1) hi
      else narrow look value passes lo (lo + (hi - lo) / 2) := by
  rw [narrow, if_pos h, hlook]
  rfl

theorem narrow_eq {n : ℕ} {ticks : Fin n → ℕ} (hlook : ∀ i : Fin n, look i = some (ticks i))
    (h : hi ≤ n) : ∀ passes, hi - lo < 2 ^ passes →
      narrow look value passes lo hi = some (lowerBoundFrom ticks value lo hi h) := by
  fun_induction lowerBoundFrom ticks value lo hi h with
  | case1 lo hi h hlt mid hm hv ih =>
    intro passes hpasses
    cases passes with
    | zero => omega
    | succ passes =>
      rw [narrow_step hlt (hlook ⟨mid, by omega⟩), if_pos hv]
      exact ih passes (by omega)
  | case2 lo hi h hlt mid hm hv ih =>
    intro passes hpasses
    cases passes with
    | zero => omega
    | succ passes =>
      rw [narrow_step hlt (hlook ⟨mid, by omega⟩), if_neg hv]
      exact ih passes (by omega)
  | case3 lo hi h hlt => exact fun _ _ => narrow_done hlt

end Narrow

end Search

namespace Line

variable {α : Type} {times : List (Time α)} {t : Time α}

def NeverRising (times : List (Time α)) : Prop := times.Pairwise fun s u => u.ticks ≤ s.ticks

instance (times : List (Time α)) : Decidable (NeverRising times) :=
  inferInstanceAs (Decidable (times.Pairwise _))

structure Parts (times : List (Time α)) (t : Time α) (above level below : List (Time α)) :
    Prop where
  eq : times = above ++ (level ++ below)
  above : ∀ s ∈ above, t.ticks < s.ticks
  level : ∀ s ∈ level, s.ticks = t.ticks
  below : ∀ s ∈ below, s.ticks < t.ticks

theorem NeverRising.exists_parts (h : NeverRising times) (t : Time α) :
    ∃ above level below, Parts times t above level below := by
  induction times with
  | nil => exact ⟨[], [], [], rfl, by simp, by simp, by simp⟩
  | cons s l ih =>
    obtain ⟨hs, hl⟩ := List.pairwise_cons.mp h
    obtain ⟨above, level, below, rfl, habove, hlevel, hbelow⟩ := ih hl
    rcases lt_trichotomy t.ticks s.ticks with hlt | heq | hgt
    · exact ⟨s :: above, level, below, rfl, by simpa using ⟨hlt, habove⟩, hlevel, hbelow⟩
    · have hnone : above = [] := List.eq_nil_iff_forall_not_mem.mpr fun u hu =>
        absurd (habove u hu) (not_lt.mpr (heq ▸ hs u (List.mem_append_left _ hu)))
      subst hnone
      exact ⟨[], s :: level, below, rfl, by simp, by simpa using ⟨heq.symm, hlevel⟩, hbelow⟩
    · exact ⟨[], [], s :: (above ++ (level ++ below)), rfl, by simp, by simp,
        List.forall_mem_cons.mpr ⟨hgt, fun u hu => (hs u hu).trans_lt hgt⟩⟩

theorem findIdx_of_split {β : Type} {p : β → Bool} {l m : List β} (hl : ∀ x ∈ l, p x = false)
    (hm : ∀ x ∈ m, p x = true) : (l ++ m).findIdx p = l.length := by
  rw [List.findIdx_append, List.findIdx_eq_length.mpr hl, if_neg (lt_irrefl _)]
  cases m with
  | nil => rw [List.findIdx_nil, Nat.zero_add]
  | cons x m => rw [List.findIdx_cons, hm x List.mem_cons_self, cond_true, Nat.zero_add]

namespace Parts

variable {above level below : List (Time α)}

theorem not_above (h : Parts times t above level below) : ∀ s ∈ level ++ below, s.ticks ≤ t.ticks :=
  fun s hs => (List.mem_append.mp hs).elim (fun hs => (h.level s hs).le) fun hs => (h.below s hs).le

theorem not_below (h : Parts times t above level below) : ∀ s ∈ above ++ level, t.ticks ≤ s.ticks :=
  fun s hs => (List.mem_append.mp hs).elim (fun hs => (h.above s hs).le) fun hs => (h.level s hs).ge

theorem lowerBound_eq (h : Parts times t above level below) :
    lowerBound times t = above.length := by
  have hrest := h.not_above
  obtain ⟨rfl, habove, -, -⟩ := h
  apply Search.lowerBound_eq (by simp)
  · intro k hk
    have hget : (above ++ (level ++ below))[k] = above[(k : ℕ)] := List.getElem_append_left hk
    rw [hget]
    exact habove _ (List.getElem_mem hk)
  · intro k hk
    rw [Fin.getElem_fin, List.getElem_append_right hk]
    exact hrest _ (List.getElem_mem _)

theorem findIdx_le (h : Parts times t above level below) :
    (times.findIdx fun s => s.ticks ≤ t.ticks) = above.length := by
  rw [h.eq]
  exact findIdx_of_split (fun s hs => decide_eq_false (not_le.mpr (h.above s hs)))
    fun s hs => decide_eq_true (h.not_above s hs)

theorem findIdx_lt (h : Parts times t above level below) :
    (times.findIdx fun s => s.ticks < t.ticks) = above.length + level.length := by
  rw [h.eq, ← List.append_assoc, ← List.length_append]
  exact findIdx_of_split (fun s hs => decide_eq_false (not_lt.mpr (h.not_below s hs)))
    fun s hs => decide_eq_true (h.below s hs)

theorem countP_eq (h : Parts times t above level below) :
    (times.countP fun s => s.ticks = t.ticks) = level.length := by
  have habove : (above.countP fun s => s.ticks = t.ticks) = 0 :=
    List.countP_eq_zero.mpr fun s hs => by simpa using (h.above s hs).ne'
  have hlevel : (level.countP fun s => s.ticks = t.ticks) = level.length :=
    List.countP_eq_length.mpr fun s hs => by simpa using h.level s hs
  have hbelow : (below.countP fun s => s.ticks = t.ticks) = 0 :=
    List.countP_eq_zero.mpr fun s hs => by simpa using (h.below s hs).ne
  rw [h.eq, List.countP_append, List.countP_append, habove, hlevel, hbelow, Nat.zero_add,
    Nat.add_zero]

theorem neverRising_insert (h : Parts times t above level below) (hl : NeverRising times) :
    NeverRising (times.insertIdx above.length t) := by
  have hbelow := h.not_above
  rw [insertIdx_eq_append (by rw [h.eq]; simp), h.eq, List.take_left, List.drop_left]
  rw [h.eq] at hl
  obtain ⟨ha, hb, hab⟩ := List.pairwise_append.mp hl
  refine List.pairwise_append.mpr ⟨ha, List.pairwise_cons.mpr ⟨hbelow, hb⟩, fun s hs u hu => ?_⟩
  rcases List.mem_cons.mp hu with rfl | hu
  · exact (h.above s hs).le
  · exact hab s hs u hu

end Parts

/-- In a sequence that never rises, the search ends, looks at no place beyond the sequence and finds
the first time that is not later. With the new time there the sequence still never rises. The first
time that is strictly earlier comes after all that are equal. -/
theorem lowerBound_first_not_later (h : NeverRising times) (t : Time α) :
    (∀ (look : ℕ → Option ℕ) (passes : ℕ),
      (∀ i : Fin times.length, look i = some (times.get i).ticks) → times.length < 2 ^ passes →
      Search.narrow look t.ticks passes 0 times.length = some (lowerBound times t)) ∧
    lowerBound times t = (times.findIdx fun s => s.ticks ≤ t.ticks) ∧
    (times.findIdx fun s => s.ticks < t.ticks) =
      lowerBound times t + times.countP (fun s => s.ticks = t.ticks) ∧
    ((times.findIdx fun s => s.ticks < t.ticks) = lowerBound times t ↔
      ∀ s ∈ times, s.ticks ≠ t.ticks) ∧
    NeverRising (times.insertIdx (lowerBound times t) t) := by
  obtain ⟨above, level, below, hparts⟩ := h.exists_parts t
  have hcount := hparts.countP_eq
  refine ⟨fun look passes hlook hpasses => ?_, ?_, ?_, ?_, ?_⟩
  · exact Search.narrow_eq hlook (le_refl _) passes hpasses
  · rw [hparts.lowerBound_eq, hparts.findIdx_le]
  · rw [hparts.lowerBound_eq, hparts.findIdx_lt, hcount]
  · rw [hparts.lowerBound_eq, hparts.findIdx_lt, Nat.add_eq_left, ← hcount, List.countP_eq_zero]
    simp
  · rw [hparts.lowerBound_eq]
    exact hparts.neverRising_insert h

theorem lowerBound_first_not_later_twice :
    NeverRising (α := ℚ) [⟨9, 1⟩, ⟨5, 1⟩, ⟨5, 1⟩, ⟨2, 1⟩] ∧
      lowerBound (α := ℚ) [⟨9, 1⟩, ⟨5, 1⟩, ⟨5, 1⟩, ⟨2, 1⟩] ⟨5, 1⟩ = 1 ∧
      ([⟨9, 1⟩, ⟨5, 1⟩, ⟨5, 1⟩, ⟨2, 1⟩] : List (Time ℚ)).findIdx (fun s => s.ticks < 5) = 3 := by
  have hfalling : NeverRising (α := ℚ) [⟨9, 1⟩, ⟨5, 1⟩, ⟨5, 1⟩, ⟨2, 1⟩] := by decide
  obtain ⟨-, hplace, hlater, -⟩ := lowerBound_first_not_later hfalling ⟨5, 1⟩
  exact ⟨hfalling, hplace, hlater.trans (by rw [hplace]; rfl)⟩

end Line
end ImpuritySampler
