import ImpuritySampler.Proofs.Line.Alternate
import ImpuritySampler.Proofs.Move.Regroup

/-!
# Interleaved keys

The keys of a determinant that passes the check interleave, in one of two ways, and determine the
segments of the line. If no segment wraps, the latest operator is an annihilation and each segment
joins an annihilation with the creation of the same place. If one wraps, the latest operator is its
creation, and all other creations come one place later. Conversely, keys that interleave with the
segments that they determine pass the check.
-/

set_option autoImplicit false

namespace ImpuritySampler

namespace Line

section Patterns

variable {α : Type}

/-- Creations `x` and annihilations `y` that interleave from an annihilation on, and join at equal
places. -/
structure Plain (l : Line α) (x y : List ℕ) : Prop where
  annihilations : l.map (·.annihilation.ticks) = y
  creations : l.map (·.creation.ticks) = x
  below : ∀ (k a c : ℕ), y[k]? = some a → x[k]? = some c → c < a
  above : ∀ (k a c : ℕ), x[k]? = some c → y[k + 1]? = some a → a ≤ c

/-- Creations `x` and annihilations `y` that interleave from a creation on. An annihilation joins
the next creation, and the last one the first. -/
structure Wrapping (l : Line α) (x y : List ℕ) : Prop where
  occupied : 1 ≤ l.length
  annihilations : l.map (·.annihilation.ticks) = y
  creations : l.map (·.creation.ticks) = x.rotate 1
  above : ∀ (k a c : ℕ), x[k]? = some c → y[k]? = some a → a ≤ c
  below : ∀ (k a c : ℕ), y[k]? = some a → x[k + 1]? = some c → c < a
  proper : l.length = 1 → ∀ (a c : ℕ), x[0]? = some c → y[0]? = some a → a < c

/-- The determinant waits for no decision, and its keys interleave as the segments join them; it is
empty if the color is occupied everywhere. -/
def Interleaved (l : Line α) (d : LineDeterminant α) : Prop :=
  d.isIdle = true ∧
    ((∃ s, l = [s] ∧ s.Whole ∧ d.rowKeys = [] ∧ d.colKeys = []) ∨
      l.Plain (d.rowKeys.map (·.time.ticks)) (d.colKeys.map (·.time.ticks)) ∨
      l.Wrapping (d.rowKeys.map (·.time.ticks)) (d.colKeys.map (·.time.ticks)))

end Patterns

section Steps

variable {x : List ℕ} {i a : ℕ}

theorem falling_of_steps (h : ∀ (k a b : ℕ), x[k]? = some a → x[k + 1]? = some b → b < a) :
    Falling id x := by
  refine List.isChain_iff_pairwise.mp (List.isChain_iff_getElem.mpr fun k hk => ?_)
  exact h k _ _ (List.getElem?_eq_getElem (Nat.lt_of_succ_lt hk)) (List.getElem?_eq_getElem hk)

theorem get?_of_length {y : List ℕ} (h : y.length = x.length) (hi : x[i]? = some a) :
    ∃ b, y[i]? = some b :=
  ⟨_, List.getElem?_eq_getElem (h ▸ (List.getElem?_eq_some_iff.mp hi).1)⟩

end Steps

variable {α : Type} {l : Line α} {x y : List ℕ} {s p : Segment α} {i : ℕ}

theorem Tidy.plain_or_wrapping (h : Tidy l) :
    l.Plain l.creations (l.map (·.annihilation.ticks)) ∨
      l.Wrapping l.creations (l.map (·.annihilation.ticks)) := by
  have hcompare : ∀ (i j a c : ℕ), l.creations[i]? = some c →
      (l.map (·.annihilation.ticks))[j]? = some a →
        (a ≤ c ↔ if l.wraps then i ≤ j else i < j) :=
    fun _ _ _ _ hc ha => h.annihilation_le_creations hc ha
  cases hw : l.wraps with
  | false =>
    simp only [hw, Bool.false_eq_true, if_false] at hcompare
    refine .inl ⟨rfl, (creations_straight hw).symm, fun k a c ha hc => ?_, fun k a c hc ha => ?_⟩
    · exact not_le.mp fun hle => lt_irrefl k ((hcompare k k a c hc ha).mp hle)
    · exact (hcompare k (k + 1) a c hc ha).mpr (Nat.lt_succ_self k)
  | true =>
    simp only [hw, if_true] at hcompare
    obtain ⟨m, s, rfl, hs⟩ := exists_wrap hw
    refine .inr ⟨by simp, rfl, ?_, fun k a c hc ha => ?_, fun k a c ha hc => ?_,
      fun hone a c hc ha => ?_⟩
    · rw [creations_wrap hs, List.rotate_cons_succ, List.rotate_zero, List.map_append]
      rfl
    · exact (hcompare k k a c hc ha).mpr le_rfl
    · exact not_le.mp fun hle => Nat.not_succ_le_self k ((hcompare (k + 1) k a c hc ha).mp hle)
    · obtain rfl : m = [] := by simpa using hone
      rw [creations_wrap hs] at hc
      cases hc
      cases ha
      exact of_decide_eq_true hs

namespace Plain

theorem falling (h : l.Plain x y) : Falling id x := by
  have hlength : y.length = x.length := by simp [← h.annihilations, ← h.creations]
  refine falling_of_steps fun k c d hc hd => ?_
  obtain ⟨a, ha⟩ := get?_of_length hlength hd
  exact (h.below _ a d ha hd).trans_le (h.above _ a c hc ha)

theorem segment (h : l.Plain x y) (hp : l[i]? = some p) :
    y[i]? = some p.annihilation.ticks ∧ x[i]? = some p.creation.ticks := by
  rw [← h.annihilations, ← h.creations, List.getElem?_map, List.getElem?_map, hp]
  exact ⟨rfl, rfl⟩

theorem straight (h : l.Plain x y) (hs : s ∈ l) : s.creation.ticks < s.annihilation.ticks := by
  obtain ⟨i, hi⟩ := List.mem_iff_getElem?.mp hs
  obtain ⟨ha, hc⟩ := h.segment hi
  exact h.below i _ _ ha hc

theorem tidy (h : l.Plain x y) (hr : ∀ s ∈ l, s.Regular) : Tidy l := by
  refine tidy_of_before hr (fun s hs => (h.straight hs).ne') ?_
  refine List.pairwise_iff_getElem.mpr fun i j hi hj hij => ?_
  obtain ⟨-, hci⟩ := h.segment (List.getElem?_eq_getElem hi)
  obtain ⟨haj, -⟩ := h.segment (List.getElem?_eq_getElem hj)
  refine ⟨h.straight (List.getElem_mem hi), ?_, fun hlt => ?_⟩
  · -- the creation of the place before the later one lies in between
    obtain ⟨k, rfl⟩ : ∃ k, j = k + 1 := ⟨j - 1, by omega⟩
    obtain ⟨-, hck⟩ := h.segment (List.getElem?_eq_getElem (Nat.lt_of_succ_lt hj))
    exact (h.above k _ _ hck haj).trans
      (h.falling.le_of_le (Nat.le_of_lt_succ hij) hci hck)
  · exact absurd hlt (h.straight (List.getElem_mem hj)).asymm

end Plain

namespace Wrapping

theorem length_eq (h : l.Wrapping x y) : x.length = l.length ∧ y.length = l.length := by
  have hx := congrArg List.length h.creations
  rw [List.length_map, List.length_rotate] at hx
  exact ⟨hx.symm, by rw [← h.annihilations, List.length_map]⟩

theorem falling (h : l.Wrapping x y) : Falling id x ∧ Falling id y := by
  obtain ⟨hx, hy⟩ := h.length_eq
  refine ⟨falling_of_steps fun k c d hc hd => ?_, falling_of_steps fun k a b ha hb => ?_⟩
  · obtain ⟨a, ha⟩ := get?_of_length (hy.trans hx.symm) hc
    exact (h.below k a d ha hd).trans_le (h.above k a c hc ha)
  · obtain ⟨c, hc⟩ := get?_of_length (hx.trans hy.symm) hb
    exact (h.above _ b c hc hb).trans_lt (h.below k a c ha hc)

theorem segment (h : l.Wrapping x y) (hp : l[i]? = some p) : y[i]? = some p.annihilation.ticks ∧
    x[nextPlace i l.length]? = some p.creation.ticks := by
  have hi := (List.getElem?_eq_some_iff.mp hp).1
  obtain ⟨hx, -⟩ := h.length_eq
  refine ⟨by rw [← h.annihilations, List.getElem?_map, hp, Option.map_some], ?_⟩
  have hc : (x.rotate 1)[i]? = some p.creation.ticks := by
    rw [← h.creations, List.getElem?_map, hp, Option.map_some]
  rw [List.getElem?_rotate (hx ▸ hi), hx] at hc
  rw [← hc, nextPlace]
  split_ifs with hlast
  · rw [hlast, Nat.mod_self]
  · rw [Nat.mod_eq_of_lt (by omega)]

theorem le_first (h : l.Wrapping x y) {a c : ℕ} (hc : x[0]? = some c) (ha : y[i]? = some a) :
    a ≤ c := by
  obtain ⟨hx, hy⟩ := h.length_eq
  obtain ⟨b, hb⟩ := get?_of_length (hy.trans hx.symm) hc
  exact (h.falling.2.le_of_le (Nat.zero_le i) hb ha).trans (h.above 0 b c hc hb)

theorem straight (h : l.Wrapping x y) (hp : l[i]? = some p) (hi : i + 1 ≠ l.length) :
    p.creation.ticks < p.annihilation.ticks := by
  obtain ⟨ha, hc⟩ := h.segment hp
  rw [nextPlace, if_neg hi] at hc
  exact h.below i _ _ ha hc

theorem positive (h : l.Wrapping x y) (hs : s ∈ l) :
    s.annihilation.ticks ≠ s.creation.ticks := by
  obtain ⟨i, hi⟩ := List.mem_iff_getElem?.mp hs
  by_cases hlast : i + 1 = l.length
  · obtain ⟨ha, hc⟩ := h.segment hi
    rw [nextPlace, if_pos hlast] at hc
    rcases Nat.eq_zero_or_pos i with rfl | hpos
    · exact (h.proper hlast.symm _ _ hc ha).ne
    · obtain ⟨hx, hy⟩ := h.length_eq
      obtain ⟨b, hb⟩ := get?_of_length (hy.trans hx.symm) hc
      exact ((h.falling.2.lt_of_lt hpos hb ha).trans_le (h.above 0 b _ hc hb)).ne
  · exact (h.straight hi hlast).ne'

theorem tidy (h : l.Wrapping x y) (hr : ∀ s ∈ l, s.Regular) : Tidy l := by
  obtain ⟨hx, hy⟩ := h.length_eq
  refine tidy_of_before hr (fun s => h.positive)
    (List.pairwise_iff_getElem.mpr fun i j hi hj hij => ?_)
  have hlast : i + 1 ≠ l.length := by omega
  obtain ⟨hai, hci⟩ := h.segment (List.getElem?_eq_getElem hi)
  obtain ⟨haj, hcj⟩ := h.segment (List.getElem?_eq_getElem hj)
  rw [nextPlace, if_neg hlast] at hci
  refine ⟨h.straight (List.getElem?_eq_getElem hi) hlast, ?_, fun hlt => ?_⟩
  · obtain ⟨c, hc⟩ := get?_of_length (hx.trans hy.symm) haj
    exact (h.above j _ c hc haj).trans (h.falling.1.le_of_le hij hci hc)
  · -- a segment that wraps is the last one, and its creation the first
    have hend : j + 1 = l.length := by
      by_contra hne
      exact absurd hlt (h.straight (List.getElem?_eq_getElem hj) hne).asymm
    rw [nextPlace, if_pos hend] at hcj
    exact h.le_first hcj hai

end Wrapping

end Line

namespace State

open Line

variable {α : Type} [ExactScalar α] {beta : α}

theorem checkColor_iff_interleaved {rule : Line.Rule α} {color : ℕ} {l : Line α}
    {d : LineDeterminant α} (hrule : Line.Strict rule) (hb : 0 < beta)
    (hl : ∀ s ∈ l, s.OnCycle beta) (hkeys : ∀ k ∈ d.colKeys, k.time.ticks < ticksPerPeriod) :
    checkColor rule color l d = .ok () ↔ l.Interleaved d := by
  rw [checkColor_eq_ok hrule hb hl, Interleaved]
  constructor
  · rintro ⟨hv, hidle, hcols, hrows⟩
    refine ⟨hidle, ?_⟩
    rcases hv.shape with ⟨s, rfl, hw⟩ | ht
    · rw [bounded_whole hw, List.map_nil] at hcols hrows
      rw [decreasing, List.mergeSort_nil] at hrows
      exact .inl ⟨s, rfl, hw, List.map_eq_nil_iff.mp hrows, List.map_eq_nil_iff.mp hcols⟩
    · rw [ht.bounded] at hcols hrows
      rw [hcols, hrows, ht.decreasing_creations]
      exact .inr ht.plain_or_wrapping
  · rintro ⟨hidle, ⟨s, rfl, hw, hrows, hcols⟩ | hpattern⟩
    · refine ⟨⟨hl, .inl ⟨s, rfl, hw⟩⟩, hidle, ?_, ?_⟩
      · rw [hcols, bounded_whole hw, List.map_nil, List.map_nil]
      · rw [hrows, bounded_whole hw, List.map_nil, List.map_nil, decreasing, List.mergeSort_nil]
    · have hann : l.map (·.annihilation.ticks) = d.colKeys.map (·.time.ticks) :=
        hpattern.elim Plain.annihilations Wrapping.annihilations
      -- all annihilations are keys, so that no segment is whole
      have hregular : ∀ s ∈ l, s.Regular := fun s hs => by
        refine (hl s hs).regular fun hw => ?_
        have hmem := List.mem_map_of_mem (f := (·.annihilation.ticks)) hs
        rw [hann, List.mem_map] at hmem
        obtain ⟨k, hk, hks⟩ := hmem
        exact absurd (hks.trans hw.2) (hkeys k hk).ne
      obtain ⟨ht, hcreations⟩ : Tidy l ∧
          decreasing (l.map (·.creation.ticks)) = d.rowKeys.map (·.time.ticks) := by
        rcases hpattern with h | h
        · exact ⟨h.tidy hregular, decreasing_eq h.falling (.of_eq h.creations.symm)⟩
        · exact ⟨h.tidy hregular, decreasing_eq h.falling.1
            (h.creations ▸ (List.rotate_perm _ _).symm)⟩
      rw [ht.bounded]
      exact ⟨⟨hl, .inr ht⟩, hidle, hann.symm, hcreations.symm⟩

/-- The states that pass the check are those of which the keys interleave and determine the
segments. -/
theorem check_iff_interleaved {s : State α} (hb : 0 < s.config.beta)
    (hcount : s.determinants.length = s.config.colors)
    (htimes : ∀ l ∈ s.config.lines, ∀ t ∈ l, t.OnCycle s.config.beta)
    (hkeys : ∀ d ∈ s.determinants, ∀ k ∈ d.rowKeys ++ d.colKeys, k.time.IsPoint s.config.beta) :
    s.check = .ok () ↔ ∀ color d, s.determinants[color]? = some d →
      (s.config.lineAt color).Interleaved d := by
  rw [State.check_eq_ok, and_iff_right hcount]
  refine forall_congr' fun color => forall_congr' fun d => forall_congr' fun hd => ?_
  have hcolor : color < s.config.colors := hcount ▸ (List.getElem?_eq_some_iff.mp hd).1
  exact checkColor_iff_interleaved s.violation_strict hb
    (htimes _ (List.mem_of_getElem? (Configuration.getElem?_lines hcolor)))
    fun k hk => (hkeys d (List.mem_of_getElem? hd) k (List.mem_append_right _ hk)).lt

theorem check_iff_interleaved_touching : Proposal.touching.check = .ok () ∧
    (Proposal.touching.config.lineAt 0).Wrapping [10, 5] [10, 3] := by
  have hs := Proposal.touching_consistent
  have hcheck := (check_iff_interleaved (s := Proposal.touching) one_pos rfl hs.times
    fun d hd k hk => (hs.keys d hd k hk).1).mp hs.checked 0 _ rfl
  obtain ⟨-, ⟨s, hone, -⟩ | hplain | hwrapping⟩ := hcheck
  · cases hone
  · have hstraight := hplain.straight (List.mem_cons_of_mem _ List.mem_cons_self)
    exact absurd hstraight (by decide)
  · exact ⟨hs.checked, hwrapping⟩

end State

end ImpuritySampler
