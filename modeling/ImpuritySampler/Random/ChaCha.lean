/-!
# A block cipher as a source of words

The ChaCha function with twelve rounds over a key of eight words: block after block, sixteen words
of 32 bits each are read in pairs, the low half first.
-/

set_option autoImplicit false

namespace ImpuritySampler.ChaCha

abbrev Words := Vector UInt32 16

def rotate (x : UInt32) (n : UInt32) : UInt32 := (x <<< n) ||| (x >>> (32 - n))

def quarterRound (s : Words) (a b c d : Fin 16) : Words :=
  let s := s.set a (s[a] + s[b])
  let s := s.set d (rotate (s[d] ^^^ s[a]) 16)
  let s := s.set c (s[c] + s[d])
  let s := s.set b (rotate (s[b] ^^^ s[c]) 12)
  let s := s.set a (s[a] + s[b])
  let s := s.set d (rotate (s[d] ^^^ s[a]) 8)
  let s := s.set c (s[c] + s[d])
  s.set b (rotate (s[b] ^^^ s[c]) 7)

def doubleRound (s : Words) : Words :=
  let s := quarterRound s 0 4 8 12
  let s := quarterRound s 1 5 9 13
  let s := quarterRound s 2 6 10 14
  let s := quarterRound s 3 7 11 15
  let s := quarterRound s 0 5 10 15
  let s := quarterRound s 1 6 11 12
  let s := quarterRound s 2 7 8 13
  quarterRound s 3 4 9 14

def initial (key : Vector UInt32 8) (block : UInt64) : Words :=
  #v[0x61707865, 0x3320646e, 0x79622d32, 0x6b206574,
    key[0], key[1], key[2], key[3], key[4], key[5], key[6], key[7],
    block.toUInt32, (block >>> 32).toUInt32, 0, 0]

def rounds : Nat → Words → Words
  | 0, s => s
  | n + 1, s => rounds n (doubleRound s)

def block (key : Vector UInt32 8) (number : UInt64) : List UInt64 :=
  let start := initial key number
  let words := Vector.zipWith (· + ·) (rounds 6 start) start
  (List.finRange 8).map fun k =>
    words[2 * k.val].toUInt64 ||| words[2 * k.val + 1].toUInt64 <<< 32

def expandStep (state : UInt64) : UInt32 × UInt64 :=
  let state := state * 6364136223846793005 + 11634580027462260723
  let word := (((state >>> 18) ^^^ state) >>> 27).toUInt32
  let turn := (state >>> 59).toUInt32
  ((word >>> turn) ||| (word <<< ((32 - turn) % 32)), state)

def keyOfSeed (seed : UInt64) : Vector UInt32 8 :=
  let steps := (List.range 8).foldl (fun (words, state) _ =>
    let (word, state) := expandStep state
    (words.push word, state)) ((#[] : Array UInt32), seed)
  Vector.ofFn fun k => steps.1.getD k 0

end ImpuritySampler.ChaCha
