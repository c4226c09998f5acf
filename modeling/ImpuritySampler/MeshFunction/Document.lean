import ImpuritySampler.Json.Decode
import ImpuritySampler.Json.Writer
import ImpuritySampler.MeshFunction

/-!
# Mesh functions as documents

A period and a table with the mesh point as its first index. Nothing is checked beyond the form.
-/

set_option autoImplicit false

namespace ImpuritySampler.MeshFunction

open Json

structure Parts where
  beta : Option Float := none
  values : Option (Stack Float) := none

def Parts.finish (p : Parts) : Decoded (MeshFunction Float) := do
  pure { beta := ← present p.beta, values := ← present p.values }

def schema : Schema Parts (MeshFunction Float) where
  fields :=
    [field "beta" Node.toFloat fun b p => { p with beta := some b },
      field "values" toStack fun v p => { p with values := some v }]
  required := 2
  start := {}
  finish := Parts.finish

def ofNode : Node → Decoded (MeshFunction Float) := schema.read

def members (f : MeshFunction Float) : List (String × Value) :=
  [("beta", .ofFloat f.beta),
    ("values", .ofTable [f.values.layers, f.values.rows, f.values.cols] f.values.data)]

def toValue (f : MeshFunction Float) : Value := .object f.members

end ImpuritySampler.MeshFunction
