import ImpuritySampler.Grid
import ImpuritySampler.Grid.Extent
import ImpuritySampler.Json.Reader

/-!
# From nodes to data

Decoders look for a value of one kind. A record is an object, in which unknown keys are skipped and
repeated ones refused, or an array of its fields in order, of which the last ones may be left out. A
table is an object or array of three fields, in which unknown keys are refused and the last one of
several counts.
-/

set_option autoImplicit false

namespace ImpuritySampler.Json

abbrev Decoded (β : Type) := Except Break β

def malformed {β : Type} : Decoded β := .error .malformed

def present {β : Type} : Option β → Decoded β
  | some b => .ok b
  | none => malformed

namespace Node

def toBool : Node → Decoded Bool
  | .bool b => .ok b
  | .flawed f => .error f.close
  | _ => malformed

def toNat : Node → Decoded Nat
  | .number n => present n.toNat?
  | .flawed f => .error f.close
  | _ => malformed

def toFloat : Node → Decoded Float
  | .number n => present n.toFloat?
  | .flawed f => .error f.close
  | _ => malformed

def toText : Node → Decoded String
  | .text s => present s
  | .flawed f => .error f.close
  | _ => malformed

def toList {β : Type} (decode : Node → Decoded β) : Node → Decoded (List β)
  | .array items stop => do
    let l ← items.mapM decode
    stopped stop
    pure l
  | .flawed f => .error f.close
  | _ => malformed

def toOption {β : Type} (decode : Node → Decoded β) : Node → Decoded (Option β)
  | .null => .ok none
  | n => do pure (some (← decode n))

def toExactly {β : Type} (count : Nat) (decode : Node → Decoded β) : Node → Decoded (List β)
  | .array items stop => do
    let l ← (items.take count).mapM decode
    if count < items.length then malformed
    else do
      stopped stop
      if items.length < count then malformed else pure l
  | .flawed f => .error f.close
  | _ => malformed

end Node

structure Slot (σ : Type) where
  name : String
  put : Node → σ → Decoded σ

/-- How a `β` is read: a record that begins as `start` gets its fields and is finished. An array
gives the fields in order and has to give the first `required` ones. -/
structure Schema (σ β : Type) where
  fields : List (Slot σ)
  required : Nat
  start : σ
  finish : σ → Decoded β
  closed : Bool := false

namespace Schema

variable {σ β : Type}

def readMembers (schema : Schema σ β) :
    List (Decoded String × Node) → List String → σ → Decoded σ
  | [], _, s => .ok s
  | (key, n) :: rest, seen, s => do
    let key ← key
    match schema.fields.find? fun f => f.name == key with
    | none =>
      if schema.closed then malformed
      else do
        n.skim
        readMembers schema rest seen s
    | some f =>
      if schema.closed = false ∧ key ∈ seen then malformed
      else do
        let s ← f.put n s
        readMembers schema rest (key :: seen) s

def readItems : List (Slot σ) → List Node → σ → Decoded σ
  | f :: fields, n :: items, s => do
    let s ← f.put n s
    readItems fields items s
  | [], _ :: _, _ => malformed
  | _, [], s => .ok s

/-- Reads a record. An object ends before it is finished; an array that gives all fields is finished
with the last one, before its end is looked for. -/
def read (schema : Schema σ β) : Node → Decoded β
  | .object members stop => do
    let s ← schema.readMembers members [] schema.start
    stopped stop
    schema.finish s
  | .array items stop => do
    let s ← readItems schema.fields items schema.start
    if items.length < schema.fields.length then do
      stopped stop
      if items.length < schema.required then malformed else schema.finish s
    else do
      let b ← schema.finish s
      stopped stop
      pure b
  | .flawed f => .error f.close
  | _ => malformed

end Schema

def field {σ β : Type} (name : String) (decode : Node → Decoded β) (put : β → σ → σ) : Slot σ where
  name := name
  put n s := do pure (put (← decode n) s)

/-! ## Tables of numbers -/

structure TableParts where
  version : Option Unit := none
  dims : Option (List Nat) := none
  data : Option (List Float) := none

def toVersion (n : Node) : Decoded Unit := do
  if (← n.toNat) = 1 then pure () else malformed

def TableParts.finish {β : Type} (build : List Nat → Array Float → Option β) (t : TableParts) :
    Decoded β := do
  let _ ← present t.version
  let data ← present t.data
  let dims ← present t.dims
  if Extent.Addressable dims then present (build dims data.toArray)
  else malformed

def tableSchema {β : Type} (rank : Nat) (build : List Nat → Array Float → Option β) :
    Schema TableParts β where
  fields :=
    [field "v" toVersion fun v t => { t with version := some v },
      field "dim" (Node.toExactly rank Node.toNat) fun d t => { t with dims := some d },
      field "data" (Node.toList Node.toFloat) fun d t => { t with data := some d }]
  required := 3
  start := {}
  finish := TableParts.finish build
  closed := true

def gridOf? : List Nat → Array Float → Option (Grid Float)
  | [rows, cols], data => Grid.ofData? rows cols data
  | _, _ => none

def stackOf? : List Nat → Array Float → Option (Stack Float)
  | [layers, rows, cols], data => Stack.ofData? layers rows cols data
  | _, _ => none

def toGrid : Node → Decoded (Grid Float) := (tableSchema 2 gridOf?).read

def toStack : Node → Decoded (Stack Float) := (tableSchema 3 stackOf?).read

/-! ## Texts -/

def depthLimit : Nat := 127

def load {β : Type} (decode : Node → Decoded β) (text : String) : Decoded β := do
  let d := Document.ofText text
  let b ← decode d.root
  if d.junk then malformed else pure b

end ImpuritySampler.Json
