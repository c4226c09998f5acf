import Mathlib
import ImpuritySampler.Json.Reader
import ImpuritySampler.Json.Writer

/-!
# Strings as they are written

Whatever characters a string has, its written form ends where its closing quote is, and names these
characters.
-/

set_option autoImplicit false

namespace ImpuritySampler.Json

theorem hexValue?_hexDigit : ∀ n < 16, hexValue? (hexDigit n) = some n := by decide

theorem hex4_control {n : ℕ} (h : n < 32) (rest : List Char) :
    hex4 ('0' :: '0' :: hexDigit (n / 16) :: hexDigit (n % 16) :: rest) = .ok n := by
  have hhigh := hexValue?_hexDigit (n / 16) (by omega)
  have hlow := hexValue?_hexDigit (n % 16) (by omega)
  have hzero : hexValue? '0' = some 0 := rfl
  have hdigits : ('0' :: '0' :: hexDigit (n / 16) :: hexDigit (n % 16) :: rest).take 4 =
      ['0', '0', hexDigit (n / 16), hexDigit (n % 16)] := rfl
  rw [hex4, hdigits]
  simp only [List.mapM_cons, List.mapM_nil, hzero, hhigh, hlow, Option.bind_eq_bind,
    Option.bind_some, Option.pure_def]
  congr 1
  omega

/-- A character is written after a backslash, by its code, or as it is. -/
theorem escapeChar_cases (c : Char) :
    (∃ d, escapeChar c = ['\\', d] ∧ d ≠ 'u' ∧ escaped? d = some c) ∨
    (c.toNat < 32 ∧ escapeChar c =
      '\\' :: 'u' :: '0' :: '0' :: hexDigit (c.toNat / 16) :: hexDigit (c.toNat % 16) :: []) ∨
    (escapeChar c = [c] ∧ c ≠ '"' ∧ c ≠ '\\' ∧ ¬c < ' ') := by
  unfold escapeChar
  split
  · exact .inl ⟨_, rfl, by decide, rfl⟩
  · exact .inl ⟨_, rfl, by decide, rfl⟩
  · exact .inl ⟨_, rfl, by decide, rfl⟩
  · exact .inl ⟨_, rfl, by decide, rfl⟩
  · exact .inl ⟨_, rfl, by decide, rfl⟩
  · exact .inl ⟨_, rfl, by decide, rfl⟩
  · exact .inl ⟨_, rfl, by decide, rfl⟩
  · rename_i hquote hslash _ _ _ _ _
    split_ifs with hc
    · exact .inr (.inl ⟨hc, rfl⟩)
    · exact .inr (.inr ⟨rfl, hquote, hslash, hc⟩)

theorem skipString_escape (c : Char) (rest : List Char) :
    skipString (escapeChar c ++ rest) = skipString rest := by
  rcases escapeChar_cases c with ⟨d, hc, hd, hescaped⟩ | ⟨hlt, hc⟩ | ⟨hc, hquote, hslash, hprint⟩
  · rw [hc]
    simp [skipString, hd, hescaped]
  · rw [hc]
    simp [skipString, hex4_control hlt]
  · rw [hc, List.singleton_append, skipString.eq_def]
    split <;> simp_all

theorem readString_escape (c : Char) (rest : List Char) :
    readString (escapeChar c ++ rest) = (readString rest).map (c :: ·) := by
  rcases escapeChar_cases c with ⟨d, hc, hd, hescaped⟩ | ⟨hlt, hc⟩ | ⟨hc, hquote, hslash, hprint⟩
  · rw [hc]
    simp [readString, hd, hescaped]
  · rw [hc]
    have hlow : ¬(0xDC00 ≤ c.toNat ∧ c.toNat ≤ 0xDFFF) := by omega
    have hhigh : ¬(0xD800 ≤ c.toNat ∧ c.toNat ≤ 0xDBFF) := by omega
    simp [readString, hex4_control hlt, hlow, hhigh]
  · rw [hc, List.singleton_append, readString.eq_def]
    split <;> simp_all

theorem skipString_quoted (s : List Char) (rest : List Char) :
    skipString (s.flatMap escapeChar ++ '"' :: rest) = .ok rest := by
  induction s with
  | nil => rw [List.flatMap_nil, List.nil_append, skipString]
  | cons c s ih => rw [List.flatMap_cons, List.append_assoc, skipString_escape, ih]

theorem readString_quoted (s : List Char) (rest : List Char) :
    readString (s.flatMap escapeChar ++ '"' :: rest) = .ok s := by
  induction s with
  | nil => rw [List.flatMap_nil, List.nil_append, readString]
  | cons c s ih =>
    rw [List.flatMap_cons, List.append_assoc, readString_escape, ih]
    rfl

theorem readText_quoted (s : String) (rest : List Char) :
    readText (s.toList.flatMap escapeChar ++ '"' :: rest) = .ok s := by
  rw [readText, readString_quoted]
  exact congrArg Except.ok String.ofList_toList

end ImpuritySampler.Json
