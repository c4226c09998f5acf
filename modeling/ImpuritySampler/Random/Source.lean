import ImpuritySampler.Fault
import ImpuritySampler.Random.ChaCha

/-!
# Random words

Three sources of 64-bit words: a given list, a counter with a mixing function, and a block cipher. A
source that runs dry is an error. The number of words drawn so far is kept.
-/

set_option autoImplicit false

namespace ImpuritySampler

inductive Source where
  | words (rest : List UInt64)
  | mixed (state : UInt64)
  | cipher (key : Vector UInt32 8) (block : UInt64) (rest : List UInt64)

namespace Source

def ofSeed (seed : UInt64) : Source := .cipher (ChaCha.keyOfSeed seed) 0 []

def mix (z : UInt64) : UInt64 :=
  let z := (z ^^^ (z >>> 30)) * 0xBF58476D1CE4E5B9
  let z := (z ^^^ (z >>> 27)) * 0x94D049BB133111EB
  z ^^^ (z >>> 31)

def next? : Source → Option (UInt64 × Source)
  | words [] => none
  | words (w :: rest) => some (w, words rest)
  | mixed state =>
    let state := state + 0x9E3779B97F4A7C15
    some (mix state, mixed state)
  | cipher key block (w :: rest) => some (w, cipher key block rest)
  | cipher key block [] =>
    match ChaCha.block key block with
    | [] => none
    | w :: rest => some (w, cipher key (block + 1) rest)

/-- How long a rejection loop goes on: through all words of a list, and for a generator through so
many that the chance to come to the end, one half for each at most, is out of reach. -/
def patience : Source → Nat
  | words rest => rest.length + 1
  | _ => 4096

end Source

structure Random where
  source : Source
  used : Nat := 0

namespace Random

variable {α : Type}

def next (r : Random) : Outcome α (UInt64 × Random) :=
  match r.source.next? with
  | some (w, source) => .ok (w, { source, used := r.used + 1 })
  | none => .error .sourceExhausted

end Random
end ImpuritySampler
