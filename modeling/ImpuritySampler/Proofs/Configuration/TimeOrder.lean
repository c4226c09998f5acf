import Mathlib.Data.Fin.Tuple.Sort
import Mathlib.GroupTheory.Perm.Sign
import ImpuritySampler.Proofs.Line.Alternate

/-!
# The sign of the time order

The operators of a color are written in pairs, the annihilations and the creations each by
decreasing time. The permutation that sorts this word into decreasing time exchanges the two
operators of every pair if the last segment wraps, and is the identity otherwise, because the two
kinds alternate. So its sign is the one that is read off the last segment.
-/

set_option autoImplicit false

namespace ImpuritySampler

namespace Sign

def toUnits : Sign → ℤˣ
  | plus => 1
  | minus => -1

theorem toUnits_mul (s t : Sign) : (s * t).toUnits = s.toUnits * t.toUnits := by
  cases s <;> cases t <;> rfl

theorem toUnits_ofParity (n : ℕ) : (ofParity n).toUnits = (-1) ^ n := by
  rcases Nat.even_or_odd n with h | h
  · rw [ofParity, if_pos (Nat.even_iff.mp h), h.neg_one_pow]
    rfl
  · rw [ofParity, if_neg (by rw [Nat.odd_iff.mp h]; decide), h.neg_one_pow]
    rfl

end Sign

/-- An operator of one color: its time, and whether it creates. At the same tick, a creation is
later than an annihilation. -/
abbrev Letter : Type := ℕ ×ₗ Bool

namespace Letter

def annihilation (t : ℕ) : Letter := toLex (t, false)

def creation (t : ℕ) : Letter := toLex (t, true)

section Order

variable {a b : ℕ}

theorem annihilation_lt_annihilation : annihilation a < annihilation b ↔ a < b := by
  simp [annihilation, Prod.Lex.toLex_lt_toLex]

theorem creation_lt_creation : creation a < creation b ↔ a < b := by
  simp [creation, Prod.Lex.toLex_lt_toLex]

theorem annihilation_lt_creation : annihilation a < creation b ↔ a ≤ b := by
  simp [annihilation, creation, Prod.Lex.toLex_lt_toLex, le_iff_lt_or_eq]

theorem creation_lt_annihilation : creation a < annihilation b ↔ a < b := by
  simp [annihilation, creation, Prod.Lex.toLex_lt_toLex]

end Order

section Word

variable {n : ℕ} {x y : Fin n → ℕ}

def pairs (y x : Fin n → ℕ) : Fin n × Fin 2 → Letter
  | (i, 0) => annihilation (y i)
  | (i, 1) => creation (x i)

def word (y x : Fin n → ℕ) : Fin (n * 2) → Letter := pairs y x ∘ finProdFinEquiv.symm

def exchange (n : ℕ) : Equiv.Perm (Fin (n * 2)) :=
  finProdFinEquiv.permCongr (Equiv.prodCongrRight fun _ => Equiv.swap 0 1)

theorem sign_exchange (n : ℕ) : Equiv.Perm.sign (exchange n) = (-1) ^ n := by
  rw [exchange, Equiv.Perm.sign_permCongr, Equiv.Perm.sign_prodCongrRight]
  simp

theorem strictAnti_pairs {f : Fin n × Fin 2 → Letter} (hpair : ∀ i, f (i, 1) < f (i, 0))
    (hlater : ∀ i j, i < j → ∀ e g, f (j, g) < f (i, e)) :
    StrictAnti (f ∘ finProdFinEquiv.symm) := by
  intro a b hab
  obtain ⟨⟨i, e⟩, rfl⟩ := finProdFinEquiv.surjective a
  obtain ⟨⟨j, g⟩, rfl⟩ := finProdFinEquiv.surjective b
  have hplaces : (e : ℕ) + 2 * i < g + 2 * j := hab
  simp only [Function.comp_apply, Equiv.symm_apply_apply]
  rcases lt_trichotomy i j with hij | rfl | hij
  · exact hlater i j hij e g
  · obtain ⟨rfl, rfl⟩ : e = 0 ∧ g = 1 := by omega
    exact hpair i
  · omega

theorem strictAnti_word (hx : StrictAnti x) (hy : StrictAnti y)
    (h : ∀ i j, y j ≤ x i ↔ i < j) : StrictAnti (word y x) := by
  have hcreation : ∀ i j, i ≤ j → x j < y i := fun i j hij =>
    not_le.mp fun hle => hij.not_gt ((h j i).mp hle)
  refine strictAnti_pairs (fun i => creation_lt_annihilation.mpr (hcreation i i le_rfl)) ?_
  intro i j hij e g
  match e, g with
  | 0, 0 => exact annihilation_lt_annihilation.mpr (hy hij)
  | 0, 1 => exact creation_lt_annihilation.mpr (hcreation i j hij.le)
  | 1, 0 => exact annihilation_lt_creation.mpr ((h i j).mpr hij)
  | 1, 1 => exact creation_lt_creation.mpr (hx hij)

theorem strictAnti_word_exchange (hx : StrictAnti x) (hy : StrictAnti y)
    (h : ∀ i j, y j ≤ x i ↔ i ≤ j) : StrictAnti (word y x ∘ exchange n) := by
  have hcreation : ∀ i j, i < j → x j < y i := fun i j hij =>
    not_le.mp fun hle => hij.not_ge ((h j i).mp hle)
  have hword : word y x ∘ exchange n =
      (pairs y x ∘ Equiv.prodCongrRight fun _ => Equiv.swap 0 1) ∘ finProdFinEquiv.symm := by
    funext k
    simp [word, exchange]
  rw [hword]
  refine strictAnti_pairs (fun i => annihilation_lt_creation.mpr ((h i i).mpr le_rfl)) ?_
  intro i j hij e g
  match e, g with
  | 0, 0 => exact creation_lt_creation.mpr (hx hij)
  | 0, 1 => exact annihilation_lt_creation.mpr ((h i j).mpr hij.le)
  | 1, 0 => exact creation_lt_annihilation.mpr (hcreation i j hij)
  | 1, 1 => exact annihilation_lt_annihilation.mpr (hy hij)

theorem sort_eq {m : ℕ} {f : Fin m → Letter} {σ : Equiv.Perm (Fin m)}
    (h : StrictAnti (f ∘ σ)) : Tuple.sort (OrderDual.toDual ∘ f) = σ := by
  rw [eq_comm, Tuple.eq_sort_iff]
  exact ⟨fun _ _ hij => h.antitone hij, fun _ _ hij he => absurd he (h hij).ne'⟩

end Word

end Letter

namespace Line

variable {α : Type} {beta : α} {l : Line α}

def word (l : Line α) : Fin (l.bounded.length * 2) → Letter :=
  Letter.word (fun i => (State.decreasing (l.bounded.map (·.annihilation.ticks))).getD i 0)
    fun i => (State.decreasing (l.bounded.map (·.creation.ticks))).getD i 0

def timeOrder (l : Line α) : Equiv.Perm (Fin (l.bounded.length * 2)) :=
  Tuple.sort (OrderDual.toDual ∘ l.word)

section Order

variable {x : List ℕ} {n i : ℕ}

theorem get?_getD (h : i < x.length) : x[i]? = some (x.getD i 0) := by
  rw [List.getD_eq_getElem _ _ h, List.getElem?_eq_getElem h]

theorem strictAnti_getD (h : Falling id x) (hn : x.length = n) :
    StrictAnti fun k : Fin n => x.getD k 0 :=
  fun i j hij => h.lt_of_lt hij (get?_getD (hn ▸ i.isLt)) (get?_getD (hn ▸ j.isLt))

end Order

/-- A tidy line is brought into order by exchanging all pairs or none. -/
theorem Tidy.exists_order (h : Tidy l) : ∃ σ : Equiv.Perm (Fin (l.bounded.length * 2)),
    StrictAnti (l.word ∘ σ) ∧ Equiv.Perm.sign σ = l.traceSign.toUnits := by
  have hann : State.decreasing (l.bounded.map (·.annihilation.ticks)) =
      l.map (·.annihilation.ticks) := by
    rw [h.bounded]
    exact State.decreasing_eq h.falling_annihilations (.refl _)
  have hcre : State.decreasing (l.bounded.map (·.creation.ticks)) = l.creations := by
    rw [h.bounded]
    exact h.decreasing_creations
  have hlength : l.bounded.length = l.length := congrArg List.length h.bounded
  have hcreations : l.creations.length = l.bounded.length := by
    rw [creations, List.length_rotate, List.length_map, hlength]
  have hannihilations : (l.map (·.annihilation.ticks)).length = l.bounded.length := by
    rw [List.length_map, hlength]
  have hx := strictAnti_getD h.creations_falling hcreations
  have hy := strictAnti_getD h.falling_annihilations hannihilations
  have hcompare : ∀ i j : Fin l.bounded.length,
      (l.map (·.annihilation.ticks)).getD j 0 ≤ l.creations.getD i 0 ↔
        if l.wraps then i ≤ j else i < j := fun i j =>
    h.annihilation_le_creations (get?_getD (lt_of_lt_of_eq i.isLt hcreations.symm))
      (get?_getD (lt_of_lt_of_eq j.isLt hannihilations.symm))
  rw [word, hann, hcre, traceSign_eq]
  cases hw : l.wraps with
  | false =>
    simp only [hw, Bool.false_eq_true, if_false] at hcompare
    exact ⟨Equiv.refl _, Letter.strictAnti_word hx hy hcompare, Equiv.Perm.sign_refl⟩
  | true =>
    simp only [hw, if_true] at hcompare
    refine ⟨Letter.exchange _, Letter.strictAnti_word_exchange hx hy hcompare, ?_⟩
    rw [Letter.sign_exchange, if_pos rfl, Sign.toUnits_ofParity, hlength]

theorem isEmpty_places (h : l.bounded = []) : IsEmpty (Fin (l.bounded.length * 2)) := by
  rw [h]
  exact Fin.isEmpty

theorem sign_timeOrder_empty (h : l.bounded = []) : Equiv.Perm.sign l.timeOrder = 1 := by
  have hempty := isEmpty_places h
  rw [Subsingleton.elim l.timeOrder 1, Equiv.Perm.sign_one]

theorem Valid.sign_timeOrder (h : l.Valid beta) : StrictAnti (l.word ∘ l.timeOrder) ∧
    Equiv.Perm.sign l.timeOrder = l.traceSign.toUnits := by
  rcases h.shape with ⟨s, rfl, hw⟩ | ht
  · have hnone := bounded_whole hw
    refine ⟨fun a => (isEmpty_places hnone).elim a, ?_⟩
    rw [sign_timeOrder_empty hnone, h.traceSign_bounded hnone]
    rfl
  · obtain ⟨σ, hsorted, hsign⟩ := ht.exists_order
    have hσ : l.timeOrder = σ := Letter.sort_eq hsorted
    rw [hσ]
    exact ⟨hsorted, hsign⟩

end Line

namespace Configuration

variable {α : Type} {beta : α} {c : Configuration α}

theorem toUnits_foldl (lines : List (Line α)) (a : Sign) :
    (lines.foldl (fun sign l => sign * l.traceSign) a).toUnits =
      a.toUnits * (lines.map fun l => l.traceSign.toUnits).prod := by
  induction lines generalizing a with
  | nil => rw [List.foldl_nil, List.map_nil, List.prod_nil, mul_one]
  | cons l lines ih =>
    rw [List.foldl_cons, ih, Sign.toUnits_mul, List.map_cons, List.prod_cons, mul_assoc]

theorem toUnits_traceSign (c : Configuration α) :
    c.traceSign.toUnits = ∏ k : Fin c.colors, (c.lineAt k).traceSign.toUnits := by
  have hlines : ∀ k : Fin c.lines.length, c.lines[k.1] = c.lineAt k := fun k =>
    Option.some.inj ((List.getElem?_eq_getElem k.isLt).symm.trans (getElem?_lines k.isLt))
  rw [traceSign, toUnits_foldl, ← Fin.prod_univ_fun_getElem]
  simp only [hlines]
  exact one_mul _

/-- The sign of a configuration is the product of the signs of the permutations that sort the
operators of each color into decreasing time. -/
theorem traceSign_eq_timeOrder (h : c.Valid beta) :
    (∀ k < c.colors, StrictAnti ((c.lineAt k).word ∘ (c.lineAt k).timeOrder)) ∧
      c.traceSign.toUnits = ∏ k : Fin c.colors, Equiv.Perm.sign (c.lineAt k).timeOrder ∧
      ∀ k, (c.lineAt k = [] ∨ ∃ s, c.lineAt k = [s] ∧ s.Whole) →
        Equiv.Perm.sign (c.lineAt k).timeOrder = 1 := by
  refine ⟨fun k hk => (h.lineAt hk).sign_timeOrder.1, ?_, ?_⟩
  · rw [toUnits_traceSign]
    exact Finset.prod_congr rfl fun k _ => (h.lineAt k.isLt).sign_timeOrder.2.symm
  · rintro k (hk | ⟨s, hk, hw⟩)
    · exact Line.sign_timeOrder_empty (by rw [hk]; rfl)
    · exact Line.sign_timeOrder_empty (by rw [hk]; exact Line.bounded_whole hw)

def turned : Configuration ℚ := ⟨1, [[⟨⟨3, 1⟩, ⟨10, 1⟩⟩], [Line.whole 1]]⟩

theorem turned_valid : turned.Valid 1 := by
  intro l hl
  rcases List.mem_pair.mp hl with rfl | rfl
  · exact Line.singleton_valid ⟨rfl, rfl, .inl (by decide)⟩ (by decide)
  · exact Line.singleton_valid (Line.whole_onCycle 1) ticksPerPeriod_pos.ne'

theorem traceSign_eq_timeOrder_turned : turned.Valid 1 ∧ turned.traceSign = .minus ∧
    Equiv.Perm.sign (turned.lineAt 0).timeOrder = -1 ∧
    Equiv.Perm.sign (turned.lineAt 1).timeOrder = 1 := by
  obtain ⟨-, hsign, hempty⟩ := traceSign_eq_timeOrder turned_valid
  have hfull := hempty 1 (.inr ⟨Line.whole 1, rfl, Line.whole_isWhole 1⟩)
  have hminus : turned.traceSign = .minus := rfl
  have hproduct := hsign.trans (Fin.prod_univ_two _)
  rw [hminus] at hproduct
  refine ⟨turned_valid, hminus, ?_, hfull⟩
  calc Equiv.Perm.sign (turned.lineAt 0).timeOrder
      = Equiv.Perm.sign (turned.lineAt 0).timeOrder *
          Equiv.Perm.sign (turned.lineAt 1).timeOrder := by rw [hfull, mul_one]
    _ = -1 := hproduct.symm

end Configuration

end ImpuritySampler
