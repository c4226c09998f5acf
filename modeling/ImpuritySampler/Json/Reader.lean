import ImpuritySampler.Json.Node

/-!
# Reading JSON texts

The reader goes through a text once and stops at the first place where the grammar is broken.
Strings are read twice, for their grammar and for the characters that they name.
-/

set_option autoImplicit false

namespace ImpuritySampler.Json

def isBlank (c : Char) : Bool := c = ' ' ∨ c = '\n' ∨ c = '\t' ∨ c = '\r'

def skipBlank (s : List Char) : List Char := s.dropWhile isBlank

def isDigit (c : Char) : Bool := '0' ≤ c ∧ c ≤ '9'

def expect : List Char → List Char → Except Break (List Char)
  | [], s => .ok s
  | _ :: _, [] => .error .ended
  | c :: word, d :: s => if c = d then expect word s else .error .malformed

/-! ## Numbers -/

def someDigits (s : List Char) : Except Flaw (List Char × List Char) :=
  match s with
  | [] => .error ⟨.ended, .malformed⟩
  | c :: _ =>
    if isDigit c then .ok (s.takeWhile isDigit, s.dropWhile isDigit)
    else .error (.both .malformed)

def wholeDigits (s : List Char) : Except Flaw (List Char × List Char) := do
  let (digits, rest) ← someDigits s
  if digits.head? = some '0' ∧ digits.length ≠ 1 then .error (.both .malformed)
  else .ok (digits, rest)

def fractionDigits : List Char → Except Flaw (List Char × List Char)
  | '.' :: s => someDigits s
  | s => .ok ([], s)

def powerDigits (s : List Char) : Except Flaw (Option Power × List Char) :=
  match s with
  | c :: rest =>
    if c = 'e' ∨ c = 'E' then
      match rest with
      | d :: after =>
        if d = '+' ∨ d = '-' then do
          let (digits, after) ← someDigits after
          .ok (some ⟨some d, digits⟩, after)
        else do
          let (digits, after) ← someDigits rest
          .ok (some ⟨none, digits⟩, after)
      | [] => .error ⟨.ended, .malformed⟩
    else .ok (none, s)
  | [] => .ok (none, s)

def readNumber (s : List Char) : Except Flaw (Number × List Char) := do
  let (negative, s) :=
    match s with
    | '-' :: rest => (true, rest)
    | _ => (false, s)
  let (whole, s) ← wholeDigits s
  let (fraction, s) ← fractionDigits s
  let (power, s) ← powerDigits s
  .ok (⟨negative, whole, fraction, power⟩, s)

/-! ## Strings -/

def hexValue? (c : Char) : Option Nat :=
  if isDigit c then some (c.toNat - '0'.toNat)
  else if 'a' ≤ c ∧ c ≤ 'f' then some (c.toNat - 'a'.toNat + 10)
  else if 'A' ≤ c ∧ c ≤ 'F' then some (c.toNat - 'A'.toNat + 10)
  else none

/-- The value of four hexadecimal digits. Four bytes are fetched before any is looked at, so a text
that has less has ended, whatever they are. -/
def hex4 (s : List Char) : Except Break Nat :=
  match (s.take 4).mapM hexValue? with
  | some [a, b, c, d] => .ok (((a * 16 + b) * 16 + c) * 16 + d)
  | _ =>
    if (s.take 4).foldl (fun n c => n + c.utf8Size) 0 < 4 then .error .ended
    else .error .malformed

def escaped? (c : Char) : Option Char :=
  match c with
  | '"' => some '"'
  | '\\' => some '\\'
  | '/' => some '/'
  | 'b' => some '\x08'
  | 'f' => some '\x0c'
  | 'n' => some '\n'
  | 'r' => some '\r'
  | 't' => some '\t'
  | _ => none

def skipString : List Char → Except Break (List Char)
  | [] => .error .ended
  | '"' :: s => .ok s
  | ['\\'] => .error .ended
  | '\\' :: c :: s =>
    if c = 'u' then
      match hex4 s with
      | .error b => .error b
      | .ok _ => skipString (s.drop 4)
    else if (escaped? c).isSome then skipString s
    else .error .malformed
  | c :: s => if c < ' ' then .error .malformed else skipString s
termination_by s => s.length
decreasing_by all_goals simp; try omega

def secondHalf (s : List Char) : Except Break Nat :=
  match s with
  | [] => .error .ended
  | '\\' :: rest =>
    match rest with
    | [] => .error .ended
    | 'u' :: digits =>
      match hex4 digits with
      | .error b => .error b
      | .ok n => if 0xDC00 ≤ n ∧ n ≤ 0xDFFF then .ok n else .error .malformed
    | _ => .error .malformed
  | _ => .error .malformed

def readString : List Char → Except Break (List Char)
  | [] => .error .ended
  | '"' :: _ => .ok []
  | ['\\'] => .error .ended
  | '\\' :: c :: s =>
    if c = 'u' then
      match hex4 s with
      | .error b => .error b
      | .ok n =>
        if 0xDC00 ≤ n ∧ n ≤ 0xDFFF then .error .malformed
        else if 0xD800 ≤ n ∧ n ≤ 0xDBFF then
          match secondHalf (s.drop 4) with
          | .error b => .error b
          | .ok m =>
            let code := 0x10000 + (n - 0xD800) * 0x400 + (m - 0xDC00)
            (readString (s.drop 10)).map (Char.ofNat code :: ·)
        else (readString (s.drop 4)).map (Char.ofNat n :: ·)
    else
      match escaped? c with
      | some d => (readString s).map (d :: ·)
      | none => .error .malformed
  | c :: s => if c < ' ' then .error .malformed else (readString s).map (c :: ·)
termination_by s => s.length
decreasing_by all_goals simp; try omega

def readText (s : List Char) : Except Break String := (readString s).map String.ofList

/-! ## Values -/

def word (name : String) (node : Node) (s : List Char) : Node × Option (List Char) :=
  match expect name.toList s with
  | .ok rest => (node, some rest)
  | .error b => (.flawed (.both b), none)

/-- The part of a list that is still to come, after its first element, is joined to it. -/
def joined {β : Type} (first : β) (others : List β × Option Break × Option (List Char)) :
    List β × Option Break × Option (List Char) :=
  (first :: others.1, others.2)

mutual

/-- The value at the start of a text, and what follows it if the text is not broken. -/
def readValue : Nat → List Char → Node × Option (List Char)
  | 0, _ => (.flawed (.both .malformed), none)
  | fuel + 1, s =>
    match skipBlank s with
    | [] => (.flawed (.both .ended), none)
    | 'n' :: rest => word "ull" .null rest
    | 't' :: rest => word "rue" (.bool true) rest
    | 'f' :: rest => word "alse" (.bool false) rest
    | '"' :: rest =>
      match skipString rest with
      | .ok after => (.text (readText rest).toOption, some after)
      | .error b =>
        match readString rest with
        | .ok _ => (.flawed (.both b), none)
        | .error close => (.flawed ⟨close, b⟩, none)
    | '[' :: rest =>
      let (items, stop, after) := readItems fuel true rest
      (.array items stop, after)
    | '{' :: rest =>
      let (members, stop, after) := readMembers fuel true rest
      (.object members stop, after)
    | c :: rest =>
      if c = '-' ∨ isDigit c then
        match readNumber (c :: rest) with
        | .ok (n, after) => (.number n, some after)
        | .error f => (.flawed f, none)
      else (.flawed (.both .malformed), none)

def readItems : Nat → Bool → List Char → List Node × Option Break × Option (List Char)
  | 0, _, _ => ([], some .malformed, none)
  | fuel + 1, first, s =>
    match skipBlank s with
    | [] => ([], some .ended, none)
    | ']' :: rest => ([], none, some rest)
    | c :: rest =>
      if first then
        match readValue fuel (c :: rest) with
        | (n, some after) => joined n (readItems fuel false after)
        | (n, none) => ([n], none, none)
      else if c = ',' then
        match readValue fuel rest with
        | (n, some after) => joined n (readItems fuel false after)
        | (n, none) => ([n], none, none)
      else ([], some .malformed, none)

def readMembers : Nat → Bool → List Char →
    List (Except Break String × Node) × Option Break × Option (List Char)
  | 0, _, _ => ([], some .malformed, none)
  | fuel + 1, first, s =>
    match skipBlank s with
    | [] => ([], some .ended, none)
    | '}' :: rest => ([], none, some rest)
    | c :: rest =>
      if first then readMember fuel (c :: rest)
      else if c = ',' then readMember fuel (skipBlank rest)
      else ([], some .malformed, none)

def readMember : Nat → List Char →
    List (Except Break String × Node) × Option Break × Option (List Char)
  | 0, _ => ([], some .malformed, none)
  | fuel + 1, s =>
    match s with
    | [] => ([], some .ended, none)
    | '"' :: rest =>
      let key := readText rest
      match skipString rest with
      | .error b => ([(key, .flawed (.both b))], none, none)
      | .ok after =>
        match skipBlank after with
        | [] => ([(key, .flawed (.both .ended))], none, none)
        | ':' :: after =>
          match readValue fuel after with
          | (n, some after) => joined (key, n) (readMembers fuel false after)
          | (n, none) => ([(key, n)], none, none)
        | _ => ([(key, .flawed (.both .malformed))], none, none)
    | _ => ([], some .malformed, none)

end

structure Document where
  root : Node
  junk : Bool

def Document.ofText (text : String) : Document :=
  let s := text.toList
  match readValue (2 * s.length + 2) s with
  | (root, some rest) => ⟨root, !(skipBlank rest).isEmpty⟩
  | (root, none) => ⟨root, false⟩

end ImpuritySampler.Json
