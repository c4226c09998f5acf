import Mathlib
import ImpuritySampler.Json.Reader

/-!
# Numbers as they are written

Which numbers the grammar admits, and that these are read back from their characters, up to a place
where the number cannot go on. Words are among them, and are read as the word they stand for.
-/

set_option autoImplicit false

namespace ImpuritySampler.Json

section Digits

variable {digits rest : List Char}

theorem isDigit_eq (c : Char) : isDigit c = c.isDigit := by
  rw [Bool.eq_iff_iff]
  simp [isDigit, Char.isDigit, Char.le_def]

def NoDigit (rest : List Char) : Prop := ∀ c ∈ rest.head?, isDigit c = false

theorem someDigits_append (hne : digits ≠ []) (hdigits : ∀ c ∈ digits, isDigit c = true)
    (hrest : NoDigit rest) : someDigits (digits ++ rest) = .ok (digits, rest) := by
  have htake : rest.takeWhile isDigit = [] ∧ rest.dropWhile isDigit = rest := by
    cases rest with
    | nil => exact ⟨rfl, rfl⟩
    | cons c rest =>
      have hc := hrest c rfl
      simp [hc]
  cases digits with
  | nil => exact absurd rfl hne
  | cons d digits =>
    rw [List.cons_append, someDigits, if_pos (hdigits d List.mem_cons_self), ← List.cons_append,
      List.takeWhile_append_of_pos hdigits, List.dropWhile_append_of_pos hdigits, htake.1, htake.2,
      List.append_nil]

theorem wholeDigits_append (hne : digits ≠ []) (hdigits : ∀ c ∈ digits, isDigit c = true)
    (hlead : digits.head? = some '0' → digits.length = 1) (hrest : NoDigit rest) :
    wholeDigits (digits ++ rest) = .ok (digits, rest) := by
  rw [wholeDigits, someDigits_append hne hdigits hrest]
  exact if_neg fun h => h.2 (hlead h.1)

end Digits

structure Power.Written (p : Power) : Prop where
  sign : ∀ c ∈ p.sign, c = '+' ∨ c = '-'
  ne_nil : p.digits ≠ []
  digits : ∀ c ∈ p.digits, isDigit c = true

namespace Number

structure Written (n : Number) : Prop where
  ne_nil : n.whole ≠ []
  whole : ∀ c ∈ n.whole, isDigit c = true
  lead : n.whole.head? = some '0' → n.whole.length = 1
  fraction : ∀ c ∈ n.fraction, isDigit c = true
  power : ∀ p ∈ n.power, p.Written

/-- What can follow a number without being part of it. -/
def Stops (rest : List Char) : Prop :=
  ∀ c ∈ rest.head?, isDigit c = false ∧ c ≠ '.' ∧ c ≠ 'e' ∧ c ≠ 'E'

theorem Stops.noDigit {rest : List Char} (h : Stops rest) : NoDigit rest := fun c hc => (h c hc).1

def fractionChars (n : Number) : List Char :=
  if n.fraction.isEmpty then [] else '.' :: n.fraction

def powerChars (n : Number) : List Char :=
  match n.power with
  | none => []
  | some p => 'e' :: (p.sign.toList ++ p.digits)

theorem chars_eq (n : Number) : n.chars =
    (if n.negative then ['-'] else []) ++ n.whole ++ n.fractionChars ++ n.powerChars := rfl

variable {n : Number} {rest : List Char}

theorem powerDigits_append (h : n.Written) (hrest : Stops rest) :
    powerDigits (n.powerChars ++ rest) = .ok (n.power, rest) := by
  rw [powerChars]
  cases hp : n.power with
  | none =>
    cases rest with
    | nil => rfl
    | cons c rest =>
      obtain ⟨-, -, he, hE⟩ := hrest c rfl
      exact if_neg (by simp [he, hE])
  | some p =>
    obtain ⟨hsign, hne, hdigits⟩ := h.power p hp
    have hread := someDigits_append hne hdigits hrest.noDigit
    obtain ⟨sign, digits⟩ := p
    cases sign with
    | some c =>
      have hc := hsign c rfl
      simp only [Option.toList_some, List.cons_append, List.nil_append, powerDigits, true_or,
        if_true, if_pos hc]
      rw [hread]
      rfl
    | none =>
      cases digits with
      | nil => exact absurd rfl hne
      | cons d digits =>
        have hd := hdigits d List.mem_cons_self
        have hplain : ¬(d = '+' ∨ d = '-') := by
          rintro (rfl | rfl) <;> exact absurd hd (by decide)
        simp only [Option.toList_none, List.nil_append, List.cons_append, powerDigits, true_or,
          if_true, if_neg hplain]
        rw [← List.cons_append, hread]
        rfl

theorem noDigit_powerChars (hrest : Stops rest) : NoDigit (n.powerChars ++ rest) := by
  rw [powerChars]
  cases n.power with
  | none => exact hrest.noDigit
  | some p =>
    intro c hc
    obtain rfl : 'e' = c := by simpa using hc
    rfl

theorem fractionDigits_append (h : n.Written) (hrest : Stops rest) :
    fractionDigits (n.fractionChars ++ (n.powerChars ++ rest)) =
      .ok (n.fraction, n.powerChars ++ rest) := by
  have hend := noDigit_powerChars (n := n) hrest
  cases hf : n.fraction with
  | nil =>
    rw [fractionChars, hf]
    have hpoint : ∀ c ∈ (n.powerChars ++ rest).head?, c ≠ '.' := by
      rw [powerChars]
      cases n.power with
      | none => exact fun c hc => (hrest c hc).2.1
      | some p => simp
    show fractionDigits (n.powerChars ++ rest) = _
    cases htail : n.powerChars ++ rest with
    | nil => rfl
    | cons c tail =>
      rw [htail] at hpoint
      rw [fractionDigits]
      exact fun s hs => hpoint c rfl (List.cons.inj hs).1
  | cons d digits =>
    rw [fractionChars, hf]
    exact someDigits_append (List.cons_ne_nil d digits) (fun c hc => h.fraction c (hf ▸ hc)) hend

theorem noDigit_fractionChars (hrest : Stops rest) :
    NoDigit (n.fractionChars ++ (n.powerChars ++ rest)) := by
  rw [fractionChars]
  cases n.fraction with
  | nil => exact noDigit_powerChars hrest
  | cons d digits =>
    intro c hc
    obtain rfl : '.' = c := by simpa using hc
    rfl

theorem Written.head (h : n.Written) :
    ∃ c tail, n.chars = c :: tail ∧ (c = '-' ∨ isDigit c = true) := by
  rw [chars_eq]
  cases n.negative with
  | true => exact ⟨'-', _, rfl, .inl rfl⟩
  | false =>
    cases hw : n.whole with
    | nil => exact absurd hw h.ne_nil
    | cons d digits =>
      exact ⟨d, _, rfl, .inr (h.whole d (hw ▸ List.mem_cons_self))⟩

theorem readNumber_chars (h : n.Written) (hrest : Stops rest) :
    readNumber (n.chars ++ rest) = .ok (n, rest) := by
  have hwhole := wholeDigits_append h.ne_nil h.whole h.lead (noDigit_fractionChars (n := n) hrest)
  have hfraction := fractionDigits_append h hrest
  have hpower := powerDigits_append h hrest
  have hplain : ∀ tail, n.whole ++ (n.fractionChars ++ (n.powerChars ++ rest)) ≠ '-' :: tail := by
    intro tail heq
    cases hw : n.whole with
    | nil => exact h.ne_nil hw
    | cons d digits =>
      rw [hw, List.cons_append] at heq
      have hd := h.whole d (hw ▸ List.mem_cons_self)
      rw [(List.cons.inj heq).1] at hd
      exact absurd hd (by decide)
  rw [chars_eq, List.append_assoc, List.append_assoc, List.append_assoc]
  cases hn : n.negative with
  | true =>
    rw [if_pos rfl, List.singleton_append, readNumber]
    simp only [hwhole, hfraction, hpower, bind, Except.bind]
    rw [← hn]
  | false =>
    rw [if_neg Bool.false_ne_true, List.nil_append, readNumber]
    · simp only [hwhole, hfraction, hpower, bind, Except.bind]
      rw [← hn]
    · exact hplain

end Number

section Decimal

theorem isDigit_toDigits (n : ℕ) : ∀ c ∈ Nat.toDigits 10 n, isDigit c = true := fun c hc => by
  rw [isDigit_eq]
  exact Nat.isDigit_of_mem_toDigits (by decide) (le_refl 10) hc

theorem head_toDigits {n : ℕ} (h : 0 < n) : (Nat.toDigits 10 n).head? ≠ some '0' := by
  induction n using Nat.strong_induction_on with
  | _ n ih =>
    rcases Nat.lt_or_ge n 10 with hlt | hge
    · rw [Nat.toDigits_of_lt_base hlt, List.head?_cons]
      exact fun hz => h.ne' (Nat.digitChar_eq_zero.mp (Option.some.inj hz))
    · rw [Nat.toDigits_of_base_le (by decide) hge,
        List.head?_append_of_ne_nil _ Nat.toDigits_ne_nil]
      exact ih (n / 10) (Nat.div_lt_self h (by decide)) (Nat.div_pos hge (by decide))

theorem digitsValue_eq (digits : List Char) (n : ℕ) :
    digitsValue digits n = Nat.ofDigitChars 10 digits n := by
  rw [digitsValue, Nat.ofDigitChars_eq_foldl]
  congr 1
  funext n c
  rw [digitValue, mul_comm]

theorem digitsValue_toDigits (n : ℕ) : digitsValue (Nat.toDigits 10 n) 0 = n := by
  rw [digitsValue_eq, Nat.ofDigitChars_ten_toDigits]

theorem le_digitsValue (digits : List Char) (n : ℕ) : n ≤ digitsValue digits n := by
  induction digits generalizing n with
  | nil => exact le_refl n
  | cons c digits ih =>
    calc n ≤ n * 10 + digitValue c := by omega
      _ ≤ digitsValue (c :: digits) n := ih _

end Decimal

namespace Number

theorem takeDigits_eq {digits : List Char} {n : ℕ} (h : digitsValue digits n < wordLimit) :
    takeDigits digits n = (digitsValue digits n, digits.length) := by
  induction digits generalizing n with
  | nil => rfl
  | cons c digits ih =>
    have hnext : n * 10 + digitValue c < wordLimit := (le_digitsValue digits _).trans_lt h
    rw [takeDigits]
    simp only [if_pos hnext, ih h]
    rfl

theorem written_ofNat (n : ℕ) : (ofNat n).Written where
  ne_nil := Nat.toDigits_ne_nil
  whole := isDigit_toDigits n
  lead := by
    intro hlead
    rcases Nat.eq_zero_or_pos n with rfl | h
    · rfl
    · exact absurd hlead (head_toDigits h)
  fraction := fun _ hc => absurd hc List.not_mem_nil
  power := fun _ hp => by cases hp

theorem toNat?_ofNat {n : ℕ} (h : n < wordLimit) : (ofNat n).toNat? = some n := by
  have hvalue : digitsValue (ofNat n).whole 0 = n := digitsValue_toDigits n
  rw [toNat?, if_pos ⟨rfl, rfl, rfl⟩]
  simp only [hvalue, if_pos h]

theorem written_ofDigits {digits : List Char} (hne : digits ≠ [])
    (hdigits : ∀ c ∈ digits, isDigit c = true) (hlead : digits.head? ≠ some '0') (negative : Bool)
    (point : ℤ) : (ofDigits negative digits point).Written := by
  have hzeros : ∀ n, ∀ c ∈ List.replicate n '0', isDigit c = true := by
    intro n c hc
    rw [List.eq_of_mem_replicate hc]
    rfl
  have htake : ∀ n, 0 < n → digits.take n ≠ [] ∧ (digits.take n).head? ≠ some '0' := by
    intro n hn
    obtain ⟨m, rfl⟩ := Nat.exists_eq_add_one.mpr hn
    cases digits with
    | nil => exact absurd rfl hne
    | cons d digits => exact ⟨List.cons_ne_nil _ _, hlead⟩
  rw [ofDigits]
  by_cases hplain : -5 < point ∧ point ≤ 16
  · simp only [if_pos hplain]
    split_ifs with hsmall hwhole
    · refine ⟨by simp, by simp [isDigit], fun _ => rfl, fun c hc => ?_, fun p hp => by cases hp⟩
      exact (List.mem_append.mp hc).elim (hzeros _ c) (hdigits c)
    · refine ⟨by simp [hne], fun c hc => (List.mem_append.mp hc).elim (hdigits c) (hzeros _ c),
        fun h => ?_, by simp [isDigit], fun p hp => by cases hp⟩
      rw [List.head?_append_of_ne_nil _ hne] at h
      exact absurd h hlead
    · obtain ⟨hsome, hhead⟩ := htake point.toNat (by omega)
      exact ⟨hsome, fun c hc => hdigits c (List.mem_of_mem_take hc), fun h => absurd h hhead,
        fun c hc => hdigits c (List.mem_of_mem_drop hc), fun p hp => by cases hp⟩
  · obtain ⟨hsome, hhead⟩ := htake 1 Nat.one_pos
    simp only [if_neg hplain]
    refine ⟨hsome, fun c hc => hdigits c (List.mem_of_mem_take hc), fun h => absurd h hhead,
      fun c hc => hdigits c (List.mem_of_mem_drop hc), fun p hp => ?_⟩
    obtain rfl := Option.some.inj hp
    refine ⟨fun c hc => ?_, Nat.toDigits_ne_nil, isDigit_toDigits _⟩
    rw [← Option.some.inj hc]
    split_ifs
    · exact .inl rfl
    · exact .inr rfl

end Number

end ImpuritySampler.Json
