import ImpuritySampler.Json.Node

/-!
# Writing JSON texts

Two layouts: everything on one line without blanks, and one element per line with an indentation of
two spaces for each level, where empty arrays and objects stay closed.
-/

set_option autoImplicit false

namespace ImpuritySampler.Json

def hexDigit (n : Nat) : Char := "0123456789abcdef".toList.getD n '0'

def escapeChar (c : Char) : List Char :=
  match c with
  | '"' => ['\\', '"']
  | '\\' => ['\\', '\\']
  | '\x08' => ['\\', 'b']
  | '\x0c' => ['\\', 'f']
  | '\n' => ['\\', 'n']
  | '\r' => ['\\', 'r']
  | '\t' => ['\\', 't']
  | c =>
    if c < ' ' then ['\\', 'u', '0', '0', hexDigit (c.toNat / 16), hexDigit (c.toNat % 16)] else [c]

def quoted (s : String) : List Char := '"' :: (s.toList.flatMap escapeChar ++ ['"'])

def boolText (b : Bool) : List Char := (if b then "true" else "false").toList

namespace Value

mutual

def compact : Value → List Char
  | .null => "null".toList
  | .bool b => boolText b
  | .number n => n.chars
  | .text s => quoted s
  | .array [] => ['[', ']']
  | .array (v :: rest) => '[' :: (v.compact ++ compactItems rest)
  | .object [] => ['\x7b', '\x7d']
  | .object ((key, v) :: rest) =>
    '\x7b' :: (quoted key ++ ':' :: (v.compact ++ compactMembers rest))

def compactItems : List Value → List Char
  | [] => [']']
  | v :: rest => ',' :: (v.compact ++ compactItems rest)

def compactMembers : List (String × Value) → List Char
  | [] => ['\x7d']
  | (key, v) :: rest => ',' :: (quoted key ++ ':' :: (v.compact ++ compactMembers rest))

end

def newLine (level : Nat) : List Char := '\n' :: List.replicate (2 * level) ' '

mutual

def pretty (level : Nat) : Value → List Char
  | .null => "null".toList
  | .bool b => boolText b
  | .number n => n.chars
  | .text s => quoted s
  | .array [] => ['[', ']']
  | .array (v :: rest) =>
    '[' :: (newLine (level + 1) ++ (v.pretty (level + 1) ++ prettyItems level rest))
  | .object [] => ['\x7b', '\x7d']
  | .object ((key, v) :: rest) =>
    '\x7b' :: (newLine (level + 1)
      ++ (quoted key ++ ':' :: ' ' :: (v.pretty (level + 1) ++ prettyMembers level rest)))

def prettyItems (level : Nat) : List Value → List Char
  | [] => newLine level ++ [']']
  | v :: rest => ',' :: (newLine (level + 1) ++ (v.pretty (level + 1) ++ prettyItems level rest))

def prettyMembers (level : Nat) : List (String × Value) → List Char
  | [] => newLine level ++ ['\x7d']
  | (key, v) :: rest =>
    ',' :: (newLine (level + 1)
      ++ (quoted key ++ ':' :: ' ' :: (v.pretty (level + 1) ++ prettyMembers level rest)))

end

def toCompact (v : Value) : String := String.ofList v.compact

def toPretty (v : Value) : String := String.ofList (v.pretty 0)

def ofFloat (x : Float) : Value :=
  match Number.ofFloat? x with
  | some n => .number n
  | none => .null

def ofNat (n : Nat) : Value := .number (.ofNat n)

def ofOption {β : Type} (encode : β → Value) : Option β → Value
  | some b => encode b
  | none => .null

def ofList {β : Type} (encode : β → Value) (l : List β) : Value := .array (l.map encode)

def ofTable (dims : List Nat) (data : Array Float) : Value :=
  .object [("v", ofNat 1), ("dim", ofList ofNat dims), ("data", ofList ofFloat data.toList)]

end Value
end ImpuritySampler.Json
