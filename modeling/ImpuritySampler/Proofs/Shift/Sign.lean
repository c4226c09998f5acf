import ImpuritySampler.Proofs.Shift.Line

/-!
# Operators that pass the end of the axis

When the origin of time moves, the order of two times changes if one of them passes the end of the
axis and the other one does not. A segment starts or stops to wrap with it, and the sign of a line
of `n` segments changes by one transposition per segment for each of its operators that passes.
-/

set_option autoImplicit false

namespace ImpuritySampler

namespace Time

variable {t u d : ℕ}

theorem ahead_le_iff (ht : t < ticksPerPeriod) (hu : u < ticksPerPeriod) :
    ahead u d ≤ ahead t d ↔ (u ≤ t ↔ crosses d t = crosses d u) := by
  have hd : d % ticksPerPeriod < ticksPerPeriod := Nat.mod_lt _ ticksPerPeriod_pos
  rcases ahead_cases ht d with ⟨ht', h₁, h₂⟩ | ⟨ht', h₁, h₂⟩ <;>
    rcases ahead_cases hu d with ⟨hu', h₃, h₄⟩ | ⟨hu', h₃, h₄⟩ <;>
    rw [ht', hu'] <;> simp only [iff_true, iff_false, Bool.true_eq_false, Bool.false_eq_true] <;>
    omega

variable {α : Type} [ExactScalar α]

def turn (d t : ℕ) : α := if crosses d t then -1 else 1

theorem order_ahead (ht : t < ticksPerPeriod) (hu : u < ticksPerPeriod) :
    (if ahead u d ≤ ahead t d then 1 else -1 : α) =
      turn d t * turn d u * if u ≤ t then 1 else -1 := by
  rw [if_congr (ahead_le_iff ht hu) rfl rfl, turn, turn]
  cases crosses d t <;> cases crosses d u <;> by_cases h : u ≤ t <;> simp [h]

theorem prod_turn (d : ℕ) (ticks : List ℕ) :
    (ticks.map (turn d)).prod = (-1 : α) ^ ticks.countP (crosses d) := by
  induction ticks with
  | nil => simp
  | cons t ticks ih =>
    rw [List.map_cons, List.prod_cons, ih, List.countP_cons, turn]
    split_ifs with h <;> simp [pow_succ']

end Time

namespace Sign

variable {α : Type} [ExactScalar α]

theorem apply_eq_mul (s : Sign) (a : α) : s.apply a = s.toScalar * a := by
  cases s with
  | plus => exact (one_mul a).symm
  | minus => exact (neg_one_mul a).symm

theorem toScalar_mul (s t : Sign) : ((s * t).toScalar : α) = s.toScalar * t.toScalar := by
  cases s with
  | plus => exact (one_mul _).symm
  | minus =>
    cases t with
    | plus => exact (mul_one _).symm
    | minus => exact (one_mul 1).symm.trans (neg_mul_neg 1 1).symm

theorem toScalar_ofParity (n : ℕ) : ((ofParity n).toScalar : α) = (-1) ^ n :=
  (apply_parity n 1).trans (mul_one _)

end Sign

open Time

variable {α : Type} {beta : α} {s : Segment α} {l : Line α}

/-- A segment starts or stops to wrap if exactly one of its ends passes the end of the axis. -/
theorem Segment.cyclic_parity (h : s.Regular) (d : ℕ) :
    Even ((if (s.shift d).isCyclic then 1 else 0) + (if s.isCyclic then 1 else 0) +
      ((if crosses d s.creation.ticks then 1 else 0) +
        if crosses d s.annihilation.ticks then 1 else 0)) := by
  have horder := ahead_le_iff (d := d) h.1 h.2
  rw [shift_ends fun hw => hw.not_regular h]
  simp only [isCyclic, Time.shift, decide_eq_true_eq, ← not_le, horder]
  generalize crosses d s.creation.ticks = b
  generalize crosses d s.annihilation.ticks = b'
  by_cases hle : s.creation.ticks ≤ s.annihilation.ticks <;> cases b <;> cases b' <;>
    simp [hle, Nat.even_iff]

namespace Line

theorem cyclic_parity (h : ∀ s ∈ l, s.Regular) (d : ℕ) :
    Even ((l.map (Segment.shift d)).countP Segment.isCyclic + l.countP Segment.isCyclic +
      ((l.map (·.creation.ticks)).countP (crosses d) +
        (l.map (·.annihilation.ticks)).countP (crosses d))) := by
  induction l with
  | nil => exact Even.zero
  | cons s l ih =>
    have hs := Segment.cyclic_parity (h s List.mem_cons_self) d
    have hl := ih fun t ht => h t (List.mem_cons_of_mem s ht)
    simp only [List.map_cons, List.countP_cons, Nat.even_iff] at *
    omega

theorem Valid.traceSign (h : l.Valid beta) :
    l.traceSign = .ofParity (l.length * l.countP Segment.isCyclic) := by
  rcases h.shape with ⟨s, rfl, hw⟩ | ht
  · simp [Line.traceSign, hw.not_cyclic, Sign.ofParity]
  · rcases List.eq_nil_or_concat l with rfl | ⟨m, s, rfl⟩
    · rfl
    · rw [List.concat_eq_append] at ht ⊢
      have hm : m.countP Segment.isCyclic = 0 := by
        refine List.countP_eq_zero.mpr fun t htm hc => ?_
        have hbefore := (List.pairwise_append.mp ht.before).2.2 t htm s (List.mem_singleton_self s)
        have hstraight := hbefore.straight
        rw [Segment.isCyclic, decide_eq_true_iff] at hc
        omega
      rw [Line.traceSign, List.getLast?_concat, List.countP_append, hm, List.countP_singleton]
      by_cases hc : s.isCyclic = true
      · simp [hc]
      · simp [hc, Sign.ofParity]

/-- Each operator that passes the end of the axis costs one transposition per segment. -/
theorem Valid.traceSign_shift [ExactScalar α] (h : l.Valid beta) (d : ℕ) :
    ((l.shift d).traceSign.toScalar : α) =
      (-1) ^ (l.bounded.length * ((l.bounded.map (·.creation.ticks)).countP (crosses d) +
        (l.bounded.map (·.annihilation.ticks)).countP (crosses d))) * l.traceSign.toScalar := by
  rcases h.shape with ⟨s, rfl, hw⟩ | ht
  · rw [shift_singleton, Segment.shift_whole hw, bounded_whole hw, List.length_nil, zero_mul,
      pow_zero, one_mul]
  · have hperm := shift_perm d l
    have hlength : (l.shift d).length = l.length := by
      rw [hperm.length_eq, List.length_map]
    have hparity := (cyclic_parity ht.regular d).mul_left l.length
    rw [mul_add, mul_add] at hparity
    rw [(h.shift d).traceSign, h.traceSign, hlength, hperm.countP_eq, Sign.toScalar_ofParity,
      Sign.toScalar_ofParity, ← pow_add, ht.bounded]
    apply neg_one_pow_congr
    grind

end Line

end ImpuritySampler
