import ImpuritySampler.Configuration
import ImpuritySampler.Json.Decode
import ImpuritySampler.Json.Writer

/-!
# Configurations as documents

Times are written as ticks and period, segments with the annihilation first. Any tick count below
2 ^ 64 and any order of segments is accepted.
-/

set_option autoImplicit false

namespace ImpuritySampler

open Json

namespace Time

structure Parts where
  ticks : Option Nat := none
  period : Option Float := none

def Parts.finish (p : Parts) : Decoded (Time Float) := do
  pure { ticks := ← present p.ticks, period := ← present p.period }

def schema : Schema Parts (Time Float) where
  fields :=
    [field "ticks" Node.toNat fun n p => { p with ticks := some n },
      field "beta" Node.toFloat fun b p => { p with period := some b }]
  required := 2
  start := {}
  finish := Parts.finish

def ofNode : Node → Decoded (Time Float) := schema.read

def toValue (t : Time Float) : Value :=
  .object [("ticks", .ofNat t.ticks), ("beta", .ofFloat t.period)]

end Time

namespace Segment

structure Parts where
  annihilation : Option (Time Float) := none
  creation : Option (Time Float) := none

def Parts.finish (p : Parts) : Decoded (Segment Float) := do
  pure { annihilation := ← present p.annihilation, creation := ← present p.creation }

def schema : Schema Parts (Segment Float) where
  fields :=
    [field "tau_c" Time.ofNode fun t p => { p with annihilation := some t },
      field "tau_cdag" Time.ofNode fun t p => { p with creation := some t }]
  required := 2
  start := {}
  finish := Parts.finish

def ofNode : Node → Decoded (Segment Float) := schema.read

def toValue (s : Segment Float) : Value :=
  .object [("tau_c", s.annihilation.toValue), ("tau_cdag", s.creation.toValue)]

end Segment

namespace Configuration

structure Parts where
  beta : Option Float := none
  lines : Option (List (Line Float)) := none

def Parts.finish (p : Parts) : Decoded (Configuration Float) := do
  pure { beta := ← present p.beta, lines := ← present p.lines }

def schema : Schema Parts (Configuration Float) where
  fields :=
    [field "beta" Node.toFloat fun b p => { p with beta := some b },
      field "seglists" (Node.toList (Node.toList Segment.ofNode)) fun l p =>
        { p with lines := some l }]
  required := 2
  start := {}
  finish := Parts.finish

def ofNode : Node → Decoded (Configuration Float) := schema.read

def toValue (c : Configuration Float) : Value :=
  .object
    [("beta", .ofFloat c.beta),
      ("seglists", .ofList (Value.ofList Segment.toValue) c.lines)]

def save (c : Configuration Float) : String := c.toValue.toCompact

def load (text : String) : Decoded (Configuration Float) := Json.load ofNode text

end Configuration
end ImpuritySampler
