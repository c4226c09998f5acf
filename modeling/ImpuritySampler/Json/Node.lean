import ImpuritySampler.Json.Number

/-!
# JSON values and JSON texts as read

A value is what a text means. A node is what reading a text finds, and it also holds where and how
the text breaks off: whoever looks for a particular value then meets the first error in the order of
the text, be it a broken text or a value of the wrong kind.
-/

set_option autoImplicit false

namespace ImpuritySampler.Json

inductive Value where
  | null
  | bool (b : Bool)
  | number (n : Number)
  | text (s : String)
  | array (items : List Value)
  | object (members : List (String × Value))

inductive Break where
  | ended
  | malformed
deriving DecidableEq

/-- A broken token. Looked at closely, a text that stops in the middle of a number has ended; where
only the grammar counts it is malformed. -/
structure Flaw where
  close : Break
  grammar : Break
deriving DecidableEq

def Flaw.both (b : Break) : Flaw := ⟨b, b⟩

/-- A text of `none` obeys the grammar of strings but names half a character. An array or object
whose end is broken says how. A key may be unreadable on its own; what is wrong after a key stands
in place of its value. -/
inductive Node where
  | null
  | bool (b : Bool)
  | number (n : Number)
  | text (s : Option String)
  | array (items : List Node) (stop : Option Break)
  | object (members : List (Except Break String × Node)) (stop : Option Break)
  | flawed (flaw : Flaw)

def stopped : Option Break → Except Break Unit
  | none => .ok ()
  | some b => .error b

namespace Node

mutual

def skim : Node → Except Break Unit
  | .array items stop => do
    skimItems items
    stopped stop
  | .object members stop => do
    skimMembers members
    stopped stop
  | .flawed f => .error f.grammar
  | _ => .ok ()

def skimItems : List Node → Except Break Unit
  | [] => .ok ()
  | n :: rest => do
    n.skim
    skimItems rest

def skimMembers : List (Except Break String × Node) → Except Break Unit
  | [] => .ok ()
  | (_, n) :: rest => do
    n.skim
    skimMembers rest

end

mutual

def survey (depth : Nat) : Node → Except Break Unit
  | .number n => if n.toFloat?.isSome then .ok () else .error .malformed
  | .text none => .error .malformed
  | .array items stop =>
    match depth with
    | 0 => .error .malformed
    | depth + 1 => do
      surveyItems depth items
      stopped stop
  | .object members stop =>
    match depth with
    | 0 => .error .malformed
    | depth + 1 => do
      surveyMembers depth members
      stopped stop
  | .flawed f => .error f.close
  | _ => .ok ()

def surveyItems (depth : Nat) : List Node → Except Break Unit
  | [] => .ok ()
  | n :: rest => do
    n.survey depth
    surveyItems depth rest

def surveyMembers (depth : Nat) : List (Except Break String × Node) → Except Break Unit
  | [] => .ok ()
  | (key, n) :: rest => do
    let _ ← key
    n.survey depth
    surveyMembers depth rest

end

mutual

def ofValue : Value → Node
  | .null => .null
  | .bool b => .bool b
  | .number n => .number n
  | .text s => .text (some s)
  | .array items => .array (ofItems items) none
  | .object members => .object (ofMembers members) none

def ofItems : List Value → List Node
  | [] => []
  | v :: rest => ofValue v :: ofItems rest

def ofMembers : List (String × Value) → List (Except Break String × Node)
  | [] => []
  | (key, v) :: rest => (.ok key, ofValue v) :: ofMembers rest

end

end Node
end ImpuritySampler.Json
