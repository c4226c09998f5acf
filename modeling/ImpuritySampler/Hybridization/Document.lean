import ImpuritySampler.Hybridization
import ImpuritySampler.MeshFunction.Document

/-!
# Hybridization functions as documents

The kind of the function stands among its fields, or first in an array. It is found before the other
fields are looked at, so everything inside has to be readable, not only the fields that are used.
-/

set_option autoImplicit false

namespace ImpuritySampler

open Json

namespace BathLevel

structure Parts where
  energy : Option Float := none
  couplings : Option (List Float) := none

def Parts.finish (p : Parts) : Decoded (BathLevel Float) := do
  pure { energy := ← present p.energy, couplings := ← present p.couplings }

def schema : Schema Parts (BathLevel Float) where
  fields :=
    [field "energy" Node.toFloat fun e p => { p with energy := some e },
      field "couplings" (Node.toList Node.toFloat) fun c p => { p with couplings := some c }]
  required := 2
  start := {}
  finish := Parts.finish

def ofNode : Node → Decoded (BathLevel Float) := schema.read

def toValue (level : BathLevel Float) : Value :=
  .object
    [("energy", .ofFloat level.energy), ("couplings", .ofList Value.ofFloat level.couplings)]

end BathLevel

namespace Hybridization

inductive Kind where
  | bath
  | tabulated
deriving DecidableEq

def Kind.ofNode (n : Node) : Decoded Kind := do
  match ← n.toText with
  | "bath" => pure .bath
  | "tabulated" => pure .tabulated
  | _ => malformed

structure BathParts where
  beta : Option Float := none
  levels : Option (List (BathLevel Float)) := none

def BathParts.finish (p : BathParts) : Decoded (Hybridization Float) := do
  pure (.bath (← present p.beta) (← present p.levels))

def bathSchema : Schema BathParts (Hybridization Float) where
  fields :=
    [field "beta" Node.toFloat fun b p => { p with beta := some b },
      field "levels" (Node.toList BathLevel.ofNode) fun l p => { p with levels := some l }]
  required := 2
  start := {}
  finish := BathParts.finish

def ofContent (kind : Kind) (content : Node) : Decoded (Hybridization Float) :=
  match kind with
  | .bath => bathSchema.read content
  | .tabulated => do pure (.tabulated (← MeshFunction.ofNode content))

def sift (depth : Nat) : List (Decoded String × Node) → Option Kind →
    Decoded (Option Kind × List (Decoded String × Node))
  | [], kind => .ok (kind, [])
  | (key, n) :: rest, kind => do
    let name ← key
    if name = "kind" then
      if kind.isSome then malformed
      else do
        let kind ← Kind.ofNode n
        sift depth rest (some kind)
    else do
      n.survey depth
      let (kind, others) ← sift depth rest kind
      pure (kind, (.ok name, n) :: others)

def ofNode (depth : Nat) : Node → Decoded (Hybridization Float)
  | .object members stop => do
    let (kind, others) ← sift (depth - 1) members none
    stopped stop
    ofContent (← present kind) (.object others none)
  | .array [] stop => do
    stopped stop
    malformed
  | .array (n :: items) stop => do
    let kind ← Kind.ofNode n
    Node.surveyItems (depth - 1) items
    stopped stop
    ofContent kind (.array items none)
  | .flawed f => .error f.close
  | _ => malformed

def toValue : Hybridization Float → Value
  | .bath beta levels =>
    .object
      [("kind", .text "bath"), ("beta", .ofFloat beta),
        ("levels", .ofList BathLevel.toValue levels)]
  | .tabulated f => .object (("kind", .text "tabulated") :: f.members)

end Hybridization
end ImpuritySampler
