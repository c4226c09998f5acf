import Mathlib
import ImpuritySampler.Fault

/-!
# Computations that can fail

What loops over lists and tables return when each of their steps succeeds.
-/

set_option autoImplicit false

namespace ImpuritySampler

namespace Outcome

variable {α β γ δ ε : Type}

@[simp] theorem ok_bind (b : β) (f : β → Outcome α γ) : (Except.ok b >>= f) = f b := rfl

@[simp] theorem error_bind (e : Fault α) (f : β → Outcome α γ) :
    (Except.error e >>= f) = .error e := rfl

@[simp] theorem pure_eq (b : β) : (pure b : Outcome α β) = .ok b := rfl

theorem require_true {p : Prop} [Decidable p] {f : Fault α} (h : p) : require p f = .ok () :=
  if_pos h

theorem exists_bind {x : Outcome α β} {f : β → Outcome α γ} (hx : ∃ b, x = .ok b)
    (hf : ∀ b, x = .ok b → ∃ c, f b = .ok c) : ∃ c, (x >>= f) = .ok c := by
  obtain ⟨b, hb⟩ := hx
  rw [hb, ok_bind]
  exact hf b hb

theorem bind_pair_eq_ok {x : Outcome α β} {y : Outcome α (γ × δ)} {f : β → γ → δ → ε}
    {g : β → γ × δ → Outcome α ε} (h : ∀ b c d, g b (c, d) = .ok (f b c d)) {r : ε} :
    (x >>= fun b => y >>= g b) = .ok r ↔
      ∃ b c d, x = .ok b ∧ y = .ok (c, d) ∧ r = f b c d := by
  simp only [bind_eq_ok, Prod.exists, h, Except.ok.injEq]
  constructor
  · rintro ⟨b, hb, c, d, hcd, rfl⟩
    exact ⟨b, c, d, hb, hcd, rfl⟩
  · rintro ⟨b, c, d, hb, hcd, rfl⟩
    exact ⟨b, hb, c, d, hcd, rfl⟩

theorem mapM_eq_ok {l : List β} {f : β → Outcome α γ} {g : β → γ}
    (h : ∀ b ∈ l, f b = .ok (g b)) : l.mapM f = .ok (l.map g) := by
  induction l with
  | nil => rfl
  | cons b l ih =>
    rw [List.mapM_cons, h b List.mem_cons_self, ih fun c hc => h c (List.mem_cons_of_mem b hc)]
    rfl

theorem exists_mapM {l : List β} {f : β → Outcome α γ} (h : ∀ b ∈ l, ∃ c, f b = .ok c) :
    ∃ m, l.mapM f = .ok m := by
  induction l with
  | nil => exact ⟨[], rfl⟩
  | cons b l ih =>
    obtain ⟨c, hc⟩ := h b List.mem_cons_self
    obtain ⟨m, hm⟩ := ih fun d hd => h d (List.mem_cons_of_mem b hd)
    exact ⟨c :: m, by rw [List.mapM_cons, hc, hm]; rfl⟩

theorem of_mapM_eq_ok {l : List β} {f : β → Outcome α γ} {m : List γ} (h : l.mapM f = .ok m) :
    List.Forall₂ (fun b c => f b = .ok c) l m := by
  induction l generalizing m with
  | nil =>
    cases h
    exact .nil
  | cons b l ih =>
    rw [List.mapM_cons] at h
    obtain ⟨c, hc, h⟩ := bind_eq_ok.mp h
    obtain ⟨m', hm, h⟩ := bind_eq_ok.mp h
    cases h
    exact .cons hc (ih hm)

/-- What the steps of a loop over a list make true of their results. -/
theorem of_mapM {l : List β} {f : β → Outcome α γ} {m : List γ} {P : β → Prop} {Q : γ → Prop}
    (h : ∀ b c, P b → f b = .ok c → Q c) (hl : ∀ b ∈ l, P b) (hm : l.mapM f = .ok m) :
    ∀ c ∈ m, Q c := by
  have hall := of_mapM_eq_ok hm
  clear hm
  induction hall with
  | nil => exact fun _ hc => absurd hc List.not_mem_nil
  | cons hc _ ih =>
    rw [List.forall_mem_cons] at hl ⊢
    exact ⟨h _ _ hl.1 hc, ih hl.2⟩

theorem foldlM_eq_ok {l : List β} {f : γ → β → Outcome α γ} {g : γ → β → γ}
    (h : ∀ b ∈ l, ∀ c, f c b = .ok (g c b)) (c : γ) : l.foldlM f c = .ok (l.foldl g c) := by
  induction l generalizing c with
  | nil => rfl
  | cons b l ih =>
    rw [List.foldlM_cons, h b List.mem_cons_self, ok_bind,
      ih fun d hd => h d (List.mem_cons_of_mem b hd)]
    rfl

section Loops

variable {I : γ → Prop} {l : List β} {f : γ → β → Outcome α γ} {c d : γ}

/-- A loop whose steps succeed and keep an invariant. -/
theorem exists_foldlM (h : ∀ b ∈ l, ∀ c, I c → ∃ d, f c b = .ok d ∧ I d) (hc : I c) :
    ∃ d, l.foldlM f c = .ok d ∧ I d := by
  induction l generalizing c with
  | nil => exact ⟨c, rfl, hc⟩
  | cons b l ih =>
    obtain ⟨d, hd, hid⟩ := h b List.mem_cons_self c hc
    rw [List.foldlM_cons, hd, ok_bind]
    exact ih (fun b hb => h b (List.mem_cons_of_mem _ hb)) hid

theorem exists_foldlM_of_steps (h : ∀ b ∈ l, ∀ c, ∃ d, f c b = .ok d) (c : γ) :
    ∃ d, l.foldlM f c = .ok d := by
  obtain ⟨d, hd, -⟩ := exists_foldlM (I := fun _ => True)
    (fun b hb c _ => (h b hb c).imp fun _ hd => ⟨hd, trivial⟩) (trivial : (fun _ => True) c)
  exact ⟨d, hd⟩

theorem of_foldlM (h : ∀ c b d, I c → f c b = .ok d → I d) (hc : I c)
    (hd : l.foldlM f c = .ok d) : I d := by
  induction l generalizing c with
  | nil => exact Except.ok.inj hd ▸ hc
  | cons b l ih =>
    rw [List.foldlM_cons] at hd
    obtain ⟨e, he, hd⟩ := bind_eq_ok.mp hd
    exact ih (h c b e hc he) hd

/-- What commutes with the steps of a loop commutes with the loop. -/
theorem foldlM_map {T : γ → γ} (hI : ∀ c b d, I c → f c b = .ok d → I d)
    (hT : ∀ c b, I c → f (T c) b = T <$> f c b) (hc : I c) :
    l.foldlM f (T c) = T <$> l.foldlM f c := by
  induction l generalizing c with
  | nil => rfl
  | cons b l ih =>
    rw [List.foldlM_cons, List.foldlM_cons, hT c b hc, map_bind, bind_map_left]
    cases hd : f c b with
    | error e => rfl
    | ok d => exact ih (hI c b d hc hd)

end Loops

theorem anyM_eq_ok {l : List β} {f : β → Outcome α Bool} {p : β → Bool}
    (h : ∀ b ∈ l, f b = .ok (p b)) : l.anyM f = .ok (l.any p) := by
  induction l with
  | nil => rfl
  | cons b l ih =>
    rw [List.anyM, h b List.mem_cons_self, ok_bind, List.any_cons]
    cases p b with
    | true => rfl
    | false => exact ih fun c hc => h c (List.mem_cons_of_mem b hc)

theorem filterAuxM_eq_ok {l m : List β} {f : β → Outcome α Bool} {p : β → Bool}
    (h : ∀ b ∈ l, f b = .ok (p b)) :
    l.filterAuxM f m = .ok ((l.filter p).reverse ++ m) := by
  induction l generalizing m with
  | nil => rfl
  | cons b l ih =>
    have hl : ∀ m, l.filterAuxM f m = .ok ((l.filter p).reverse ++ m) := fun m =>
      ih fun c hc => h c (List.mem_cons_of_mem b hc)
    rw [List.filterAuxM, h b List.mem_cons_self, ok_bind, hl, List.filter_cons]
    cases p b with
    | true => simp
    | false => rfl

theorem filterM_eq_ok {l : List β} {f : β → Outcome α Bool} {p : β → Bool}
    (h : ∀ b ∈ l, f b = .ok (p b)) : l.filterM f = .ok (l.filter p) := by
  rw [List.filterM, filterAuxM_eq_ok h, ok_bind, pure_eq, List.append_nil, List.reverse_reverse]

theorem forM_eq_ok {l : List β} {f : β → Outcome α Unit} :
    l.forM f = .ok () ↔ ∀ b ∈ l, f b = .ok () := by
  induction l with
  | nil => exact ⟨fun _ _ hb => absurd hb List.not_mem_nil, fun _ => rfl⟩
  | cons b l ih =>
    rw [List.forall_mem_cons, ← ih, List.forM, bind_eq_ok]
    exact ⟨fun ⟨_, hb, hl⟩ => ⟨hb, hl⟩, fun ⟨hb, hl⟩ => ⟨(), hb, hl⟩⟩

theorem of_ofFnM_eq_ok {n : ℕ} {f : Fin n → Outcome α β} {v : Vector β n}
    (h : Vector.ofFnM f = .ok v) (k : Fin n) : f k = .ok v[k] := by
  induction n with
  | zero => exact k.elim0
  | succ n ih =>
    rw [Vector.ofFnM_succ, bind_eq_ok] at h
    obtain ⟨w, hw, h⟩ := h
    obtain ⟨b, hb, h⟩ := bind_eq_ok.mp h
    cases h
    rcases Fin.eq_castSucc_or_eq_last k with ⟨k, rfl⟩ | rfl
    · simpa using ih hw k
    · simpa using hb

end Outcome

end ImpuritySampler
