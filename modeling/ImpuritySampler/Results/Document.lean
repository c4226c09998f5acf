import ImpuritySampler.Json.Decode
import ImpuritySampler.Json.Writer
import ImpuritySampler.Results

/-!
# Results as documents

Observables that were not measured are null, or left out.
-/

set_option autoImplicit false

namespace ImpuritySampler.Results

open Json

structure Parts where
  beta : Option Float := none
  measurements : Option Nat := none
  signSum : Option Float := none
  averageSign : Option Float := none
  densities : Option (List Float) := none
  green : Option (Grid Float) := none
  improved : Option (Grid Float) := none
  totalOrders : Option (List Float) := none
  orders : Option (List (List Float)) := none

def Parts.finish (p : Parts) : Decoded (Results Float) := do
  pure
    { beta := ← present p.beta
      measurements := ← present p.measurements
      signSum := ← present p.signSum
      averageSign := p.averageSign
      densities := p.densities
      green := p.green
      improved := p.improved
      totalOrders := p.totalOrders
      orders := p.orders }

def schema : Schema Parts (Results Float) where
  fields :=
    [field "beta" Node.toFloat fun x p => { p with beta := some x },
      field "n_measures" Node.toNat fun n p => { p with measurements := some n },
      field "z" Node.toFloat fun x p => { p with signSum := some x },
      field "average_sign" (Node.toOption Node.toFloat) fun x p => { p with averageSign := x },
      field "densities" (Node.toOption (Node.toList Node.toFloat)) fun x p =>
        { p with densities := x },
      field "g_tau" (Node.toOption toGrid) fun x p => { p with green := x },
      field "f_tau" (Node.toOption toGrid) fun x p => { p with improved := x },
      field "perturbation_order_total" (Node.toOption (Node.toList Node.toFloat)) fun x p =>
        { p with totalOrders := x },
      field "perturbation_order" (Node.toOption (Node.toList (Node.toList Node.toFloat)))
        fun x p => { p with orders := x }]
  required := 9
  start := {}
  finish := Parts.finish

def ofNode : Node → Decoded (Results Float) := schema.read

def gridValue (g : Grid Float) : Value := .ofTable [g.rows, g.cols] g.data

def toValue (r : Results Float) : Value :=
  .object
    [("beta", .ofFloat r.beta),
      ("n_measures", .ofNat r.measurements),
      ("z", .ofFloat r.signSum),
      ("average_sign", .ofOption Value.ofFloat r.averageSign),
      ("densities", .ofOption (Value.ofList Value.ofFloat) r.densities),
      ("g_tau", .ofOption gridValue r.green),
      ("f_tau", .ofOption gridValue r.improved),
      ("perturbation_order_total", .ofOption (Value.ofList Value.ofFloat) r.totalOrders),
      ("perturbation_order", .ofOption (Value.ofList (Value.ofList Value.ofFloat)) r.orders)]

def save (r : Results Float) : String := r.toValue.toCompact

def load (text : String) : Decoded (Results Float) := Json.load ofNode text

end ImpuritySampler.Results
