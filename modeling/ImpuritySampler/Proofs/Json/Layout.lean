import ImpuritySampler.Json.Decode
import ImpuritySampler.Proofs.Json.Number
import ImpuritySampler.Proofs.Json.Text

/-!
# Reading what is written

Both ways of writing a value put the same tokens in the same order and differ in the blanks between
them. Whatever these are, the reader finds the value in the text and nothing behind it.
-/

set_option autoImplicit false

namespace ImpuritySampler.Json

section Blanks

variable {gap rest : List Char}

theorem blank_cases {c : Char} (h : isBlank c = true) : c = ' ' ∨ c = '\n' ∨ c = '\t' ∨ c = '\r' :=
  of_decide_eq_true h

theorem not_blank_of_number {c : Char} (h : c = '-' ∨ isDigit c = true) : isBlank c = false := by
  rw [Bool.eq_false_iff]
  intro hblank
  rcases blank_cases hblank with rfl | rfl | rfl | rfl <;> exact absurd h (by decide)

theorem stops_of_blank (h : ∀ c ∈ gap, isBlank c = true) (hrest : Number.Stops rest) :
    Number.Stops (gap ++ rest) := by
  cases gap with
  | nil => exact hrest
  | cons d gap =>
    intro c hc
    obtain rfl : d = c := by simpa using hc
    rcases blank_cases (h d List.mem_cons_self) with rfl | rfl | rfl | rfl <;> decide

theorem skipBlank_append (h : ∀ c ∈ gap, isBlank c = true) (rest : List Char) :
    skipBlank (gap ++ rest) = skipBlank rest :=
  List.dropWhile_append_of_pos h

theorem skipBlank_cons {c : Char} (h : isBlank c = false) (rest : List Char) :
    skipBlank (c :: rest) = c :: rest := by
  rw [skipBlank, List.dropWhile_cons_of_neg (by rw [h]; exact Bool.false_ne_true)]

theorem readValue_blank (h : ∀ c ∈ gap, isBlank c = true) (fuel : ℕ) (rest : List Char) :
    readValue fuel (gap ++ rest) = readValue fuel rest := by
  cases fuel with
  | zero => rw [readValue, readValue]
  | succ fuel => rw [readValue, readValue, skipBlank_append h]

end Blanks

/-- What stands in front of the elements on each level of nesting, and behind the colons. -/
structure Layout where
  gap : ℕ → List Char
  colon : List Char
  gap_blank : ∀ level, ∀ c ∈ gap level, isBlank c = true
  colon_blank : ∀ c ∈ colon, isBlank c = true

namespace Layout

def oneLine : Layout where
  gap _ := []
  colon := []
  gap_blank := by simp
  colon_blank := by simp

def indented : Layout where
  gap := Value.newLine
  colon := [' ']
  gap_blank := by
    intro level c hc
    rcases List.mem_cons.mp hc with rfl | hc
    · rfl
    · rw [List.eq_of_mem_replicate hc]
      rfl
  colon_blank := by simp [isBlank]

end Layout

namespace Value

mutual

def lines (l : Layout) (level : ℕ) : Value → List Char
  | .null => "null".toList
  | .bool b => boolText b
  | .number n => n.chars
  | .text s => quoted s
  | .array [] => ['[', ']']
  | .array (v :: rest) =>
    '[' :: (l.gap (level + 1) ++ (v.lines l (level + 1) ++ linesItems l level rest))
  | .object [] => ['\x7b', '\x7d']
  | .object ((key, v) :: rest) =>
    '\x7b' :: (l.gap (level + 1)
      ++ (quoted key ++ ':' :: (l.colon ++ (v.lines l (level + 1) ++ linesMembers l level rest))))

def linesItems (l : Layout) (level : ℕ) : List Value → List Char
  | [] => l.gap level ++ [']']
  | v :: rest => ',' :: (l.gap (level + 1) ++ (v.lines l (level + 1) ++ linesItems l level rest))

def linesMembers (l : Layout) (level : ℕ) : List (String × Value) → List Char
  | [] => l.gap level ++ ['\x7d']
  | (key, v) :: rest =>
    ',' :: (l.gap (level + 1)
      ++ (quoted key ++ ':' :: (l.colon ++ (v.lines l (level + 1) ++ linesMembers l level rest))))

end

mutual

theorem lines_oneLine (level : ℕ) : ∀ v : Value, v.lines .oneLine level = v.compact
  | .null => rfl
  | .bool _ => rfl
  | .number _ => rfl
  | .text _ => rfl
  | .array [] => rfl
  | .array (v :: rest) => by
    rw [lines, compact, lines_oneLine (level + 1) v, linesItems_oneLine level rest]
    rfl
  | .object [] => rfl
  | .object ((key, v) :: rest) => by
    rw [lines, compact, lines_oneLine (level + 1) v, linesMembers_oneLine level rest]
    rfl

theorem linesItems_oneLine (level : ℕ) :
    ∀ items : List Value, linesItems .oneLine level items = compactItems items
  | [] => rfl
  | v :: rest => by
    rw [linesItems, compactItems, lines_oneLine (level + 1) v, linesItems_oneLine level rest]
    rfl

theorem linesMembers_oneLine (level : ℕ) :
    ∀ members : List (String × Value), linesMembers .oneLine level members = compactMembers members
  | [] => rfl
  | (key, v) :: rest => by
    rw [linesMembers, compactMembers, lines_oneLine (level + 1) v, linesMembers_oneLine level rest]
    rfl

end

mutual

theorem lines_indented (level : ℕ) : ∀ v : Value, v.lines .indented level = v.pretty level
  | .null => rfl
  | .bool _ => rfl
  | .number _ => rfl
  | .text _ => rfl
  | .array [] => rfl
  | .array (v :: rest) => by
    rw [lines, pretty, lines_indented (level + 1) v, linesItems_indented level rest]
    rfl
  | .object [] => rfl
  | .object ((key, v) :: rest) => by
    rw [lines, pretty, lines_indented (level + 1) v, linesMembers_indented level rest]
    rfl

theorem linesItems_indented (level : ℕ) :
    ∀ items : List Value, linesItems .indented level items = prettyItems level items
  | [] => rfl
  | v :: rest => by
    rw [linesItems, prettyItems, lines_indented (level + 1) v, linesItems_indented level rest]
    rfl

theorem linesMembers_indented (level : ℕ) :
    ∀ members : List (String × Value),
      linesMembers .indented level members = prettyMembers level members
  | [] => rfl
  | (key, v) :: rest => by
    rw [linesMembers, prettyMembers, lines_indented (level + 1) v, linesMembers_indented level rest]
    rfl

end

mutual

def Grammatical : Value → Prop
  | .number n => n.Written
  | .array items => GrammaticalItems items
  | .object members => GrammaticalMembers members
  | _ => True

def GrammaticalItems : List Value → Prop
  | [] => True
  | v :: rest => v.Grammatical ∧ GrammaticalItems rest

def GrammaticalMembers : List (String × Value) → Prop
  | [] => True
  | (_, v) :: rest => v.Grammatical ∧ GrammaticalMembers rest

end

variable {l : Layout} {level : ℕ} {rest : List Char}

/-- The first character decides what a value is: it is neither a blank nor the end of an array. -/
theorem lines_head {v : Value} (h : v.Grammatical) (l : Layout) (level : ℕ) :
    ∃ c tail, v.lines l level = c :: tail ∧ isBlank c = false ∧ c ≠ ']' := by
  cases v with
  | null => exact ⟨'n', _, rfl, rfl, by decide⟩
  | bool b => cases b with
    | true => exact ⟨'t', _, rfl, rfl, by decide⟩
    | false => exact ⟨'f', _, rfl, rfl, by decide⟩
  | number n =>
    obtain ⟨c, tail, htext, hc⟩ := Number.Written.head h
    refine ⟨c, tail, htext, not_blank_of_number hc, ?_⟩
    rintro rfl
    exact absurd hc (by decide)
  | text s => exact ⟨'"', _, rfl, rfl, by decide⟩
  | array items => cases items with
    | nil => exact ⟨'[', _, rfl, rfl, by decide⟩
    | cons v items => exact ⟨'[', _, by rw [lines], rfl, by decide⟩
  | object members => cases members with
    | nil => exact ⟨'\x7b', _, rfl, rfl, by decide⟩
    | cons m members => exact ⟨'\x7b', _, by rw [lines], rfl, by decide⟩

end Value

section Steps

variable {l : Layout} {level fuel : ℕ} {rest : List Char}

theorem expect_append (word rest : List Char) : expect word (word ++ rest) = .ok rest := by
  induction word with
  | nil => rfl
  | cons c word ih => rw [List.cons_append, expect, if_pos rfl, ih]

theorem word_append (name : String) (node : Node) (rest : List Char) :
    word name node (name.toList ++ rest) = (node, some rest) := by
  rw [word, expect_append]

theorem readValue_number {n : Number} (h : n.Written) (hrest : Number.Stops rest) :
    readValue (fuel + 1) (n.chars ++ rest) = (.number n, some rest) := by
  have hread := Number.readNumber_chars h hrest
  obtain ⟨c, tail, htext, hc⟩ := h.head
  rw [htext, List.cons_append] at hread ⊢
  rw [readValue, skipBlank_cons (not_blank_of_number hc)]
  split
  case h_1 heq => cases heq
  case h_8 heq =>
    obtain ⟨rfl, rfl⟩ := List.cons.inj heq
    rw [if_pos hc, hread]
  all_goals
    rename_i heq
    rw [(List.cons.inj heq).1] at hc
    exact absurd hc (by decide)

theorem quoted_append (s : String) (rest : List Char) :
    quoted s ++ rest = '"' :: (s.toList.flatMap escapeChar ++ '"' :: rest) := by
  rw [quoted, List.cons_append, List.append_assoc, List.singleton_append]

theorem readValue_text (s : String) :
    readValue (fuel + 1) (quoted s ++ rest) = (.text (some s), some rest) := by
  rw [quoted_append, readValue, skipBlank_cons rfl]
  simp only [skipString_quoted, readText_quoted]
  rfl

theorem readItems_first {v : Value} {n : Node} {after : List Char} (h : v.Grammatical)
    (hv : readValue fuel (v.lines l level ++ rest) = (n, some after)) :
    readItems (fuel + 1) true (l.gap level ++ (v.lines l level ++ rest)) =
      joined n (readItems fuel false after) := by
  obtain ⟨c, tail, htext, hblank, hc⟩ := v.lines_head h l level
  rw [htext, List.cons_append] at hv ⊢
  rw [readItems, skipBlank_append (l.gap_blank level), skipBlank_cons hblank]
  split
  case h_1 heq => cases heq
  case h_2 heq => exact absurd (List.cons.inj heq).1 hc
  case h_3 heq =>
    obtain ⟨rfl, rfl⟩ := List.cons.inj heq
    rw [if_pos rfl, hv]

theorem readItems_next {s after : List Char} {n : Node} (hv : readValue fuel s = (n, some after)) :
    readItems (fuel + 1) false (',' :: (l.gap level ++ s)) =
      joined n (readItems fuel false after) := by
  rw [readItems, skipBlank_cons rfl]
  simp [readValue_blank (l.gap_blank level), hv]

theorem readItems_end :
    readItems (fuel + 1) false (l.gap level ++ ']' :: rest) = ([], none, some rest) := by
  rw [readItems, skipBlank_append (l.gap_blank level), skipBlank_cons rfl]
  rfl

theorem readMember_entry {key : String} {s after : List Char} {n : Node}
    (hv : readValue fuel s = (n, some after)) :
    readMember (fuel + 1) (quoted key ++ ':' :: (l.colon ++ s)) =
      joined (.ok key, n) (readMembers fuel false after) := by
  rw [quoted_append, readMember]
  simp only [skipString_quoted, readText_quoted, skipBlank_cons (c := ':') rfl,
    readValue_blank l.colon_blank, hv]

theorem readMembers_first (key : String) (s : List Char) :
    readMembers (fuel + 1) true (l.gap level ++ (quoted key ++ s)) =
      readMember fuel (quoted key ++ s) := by
  rw [readMembers, skipBlank_append (l.gap_blank level), quoted_append, skipBlank_cons rfl]
  rfl

theorem readMembers_next (key : String) (s : List Char) :
    readMembers (fuel + 1) false (',' :: (l.gap level ++ (quoted key ++ s))) =
      readMember fuel (quoted key ++ s) := by
  rw [readMembers, skipBlank_cons rfl]
  simp [skipBlank_append (l.gap_blank level), quoted_append, skipBlank_cons (c := '"') rfl]

theorem readMembers_end :
    readMembers (fuel + 1) false (l.gap level ++ '\x7d' :: rest) = ([], none, some rest) := by
  rw [readMembers, skipBlank_append (l.gap_blank level), skipBlank_cons rfl]
  rfl

end Steps

namespace Value

variable {rest : List Char}

theorem stops_linesItems (l : Layout) (level : ℕ) (items : List Value) (rest : List Char) :
    Number.Stops (linesItems l level items ++ rest) := by
  cases items with
  | nil =>
    rw [linesItems, List.append_assoc]
    exact stops_of_blank (l.gap_blank level) (by simp [Number.Stops, isDigit])
  | cons v items =>
    rw [linesItems]
    simp [Number.Stops, isDigit]

theorem stops_linesMembers (l : Layout) (level : ℕ) (members : List (String × Value))
    (rest : List Char) : Number.Stops (linesMembers l level members ++ rest) := by
  cases members with
  | nil =>
    rw [linesMembers, List.append_assoc]
    exact stops_of_blank (l.gap_blank level) (by simp [Number.Stops, isDigit])
  | cons m members =>
    rw [linesMembers]
    simp [Number.Stops, isDigit]

theorem length_lines_pos {v : Value} (h : v.Grammatical) (l : Layout) (level : ℕ) :
    0 < (v.lines l level).length := by
  obtain ⟨c, tail, htext, -, -⟩ := v.lines_head h l level
  rw [htext]
  exact Nat.succ_pos _

theorem length_member_lines (c : Char) (gap key colon s others : List Char) :
    (c :: (gap ++ (key ++ ':' :: (colon ++ (s ++ others))))).length =
      gap.length + key.length + colon.length + s.length + others.length + 2 := by
  simp only [List.length_cons, List.length_append]
  omega

theorem member_lines_append (c : Char) (gap key colon s others rest : List Char) :
    c :: (gap ++ (key ++ ':' :: (colon ++ (s ++ others)))) ++ rest =
      c :: (gap ++ (key ++ ':' :: (colon ++ (s ++ (others ++ rest))))) := by
  simp only [List.cons_append, List.append_assoc]

mutual

/-- A written value is read in full, and nothing behind it. Two steps of the reader for each
character are enough. -/
theorem readValue_lines (l : Layout) (level : ℕ) (v : Value) (fuel : ℕ) (rest : List Char)
    (h : v.Grammatical) (hrest : Number.Stops rest)
    (hfuel : 2 * (v.lines l level).length ≤ fuel) :
    readValue fuel (v.lines l level ++ rest) = (Node.ofValue v, some rest) := by
  -- no value is empty, so there are steps for its first character and what it opens
  have hpos := length_lines_pos h l level
  obtain ⟨fuel, rfl⟩ := Nat.exists_eq_add_of_le' (show 2 ≤ fuel by omega)
  match v with
  | .null => exact word_append "ull" .null rest
  | .bool true => exact word_append "rue" (.bool true) rest
  | .bool false => exact word_append "alse" (.bool false) rest
  | .number n => exact readValue_number h hrest
  | .text s => exact readValue_text s
  | .array [] => rfl
  | .array (v :: items) =>
    rw [lines, List.length_cons, List.length_append, List.length_append] at hfuel
    have hv := readValue_lines l (level + 1) v fuel (linesItems l level items ++ rest) h.1
      (stops_linesItems l level items rest) (by omega)
    have hitems := readItems_lines l level items fuel rest h.2 (by omega)
    rw [lines, List.cons_append, List.append_assoc, List.append_assoc, readValue,
      skipBlank_cons rfl]
    simp only [readItems_first h.1 hv, hitems]
    rfl
  | .object [] => rfl
  | .object ((key, v) :: members) =>
    rw [lines, length_member_lines] at hfuel
    obtain ⟨fuel, rfl⟩ := Nat.exists_eq_add_of_le' (show 1 ≤ fuel by omega)
    have hv := readValue_lines l (level + 1) v fuel (linesMembers l level members ++ rest) h.1
      (stops_linesMembers l level members rest) (by omega)
    have hmembers := readMembers_lines l level members fuel rest h.2 (by omega)
    rw [lines, member_lines_append, readValue, skipBlank_cons rfl]
    simp only [readMembers_first, readMember_entry hv, hmembers]
    rfl

theorem readItems_lines (l : Layout) (level : ℕ) (items : List Value) (fuel : ℕ)
    (rest : List Char) (h : GrammaticalItems items)
    (hfuel : 2 * (linesItems l level items).length ≤ fuel) :
    readItems fuel false (linesItems l level items ++ rest) =
      (Node.ofItems items, none, some rest) := by
  match items with
  | [] =>
    rw [linesItems, List.length_append, List.length_singleton] at hfuel
    obtain ⟨fuel, rfl⟩ := Nat.exists_eq_add_of_le' (show 1 ≤ fuel by omega)
    rw [linesItems, List.append_assoc]
    exact readItems_end
  | v :: items =>
    rw [linesItems, List.length_cons, List.length_append, List.length_append] at hfuel
    obtain ⟨fuel, rfl⟩ := Nat.exists_eq_add_of_le' (show 1 ≤ fuel by omega)
    have hv := readValue_lines l (level + 1) v fuel (linesItems l level items ++ rest) h.1
      (stops_linesItems l level items rest) (by omega)
    have hitems := readItems_lines l level items fuel rest h.2 (by omega)
    rw [linesItems, List.cons_append, List.append_assoc, List.append_assoc, readItems_next hv,
      hitems]
    rfl

theorem readMembers_lines (l : Layout) (level : ℕ) (members : List (String × Value)) (fuel : ℕ)
    (rest : List Char) (h : GrammaticalMembers members)
    (hfuel : 2 * (linesMembers l level members).length ≤ fuel) :
    readMembers fuel false (linesMembers l level members ++ rest) =
      (Node.ofMembers members, none, some rest) := by
  match members with
  | [] =>
    rw [linesMembers, List.length_append, List.length_singleton] at hfuel
    obtain ⟨fuel, rfl⟩ := Nat.exists_eq_add_of_le' (show 1 ≤ fuel by omega)
    rw [linesMembers, List.append_assoc]
    exact readMembers_end
  | (key, v) :: members =>
    rw [linesMembers, length_member_lines] at hfuel
    obtain ⟨fuel, rfl⟩ := Nat.exists_eq_add_of_le' (show 2 ≤ fuel by omega)
    have hv := readValue_lines l (level + 1) v fuel (linesMembers l level members ++ rest) h.1
      (stops_linesMembers l level members rest) (by omega)
    have hmembers := readMembers_lines l level members fuel rest h.2 (by omega)
    rw [linesMembers, member_lines_append, readMembers_next, readMember_entry hv, hmembers]
    rfl

end

/-- In whatever layout a value is written, its text is read as this value, and as nothing else. -/
theorem ofText_lines {v : Value} (h : v.Grammatical) (l : Layout) (level : ℕ) :
    Document.ofText (String.ofList (v.lines l level)) = ⟨Node.ofValue v, false⟩ := by
  have hread := readValue_lines l level v (2 * (v.lines l level).length + 2) [] h
    (fun _ hc => by cases hc) (by omega)
  rw [List.append_nil] at hread
  rw [Document.ofText, String.toList_ofList, hread]
  rfl

section Texts

variable {β : Type} {v : Value}

theorem load_toCompact (h : v.Grammatical) (decode : Node → Decoded β) :
    load decode v.toCompact = decode (Node.ofValue v) := by
  rw [load, toCompact, ← lines_oneLine 0, ofText_lines h]
  cases decode (Node.ofValue v) <;> rfl

theorem load_toPretty (h : v.Grammatical) (decode : Node → Decoded β) :
    load decode v.toPretty = decode (Node.ofValue v) := by
  rw [load, toPretty, ← lines_indented, ofText_lines h]
  cases decode (Node.ofValue v) <;> rfl

end Texts

end Value

end ImpuritySampler.Json
