/-!
# Streams of random words

The words are those of the ChaCha cipher with twelve rounds: a key and a block counter fill a block of
sixteen words, which is mixed by column and diagonal rounds and added to itself. A 64-bit seed is
spread over the key by a linear congruential generator whose states are permuted on output.
-/

namespace GraphKernels.Random

/-- The words of one cipher block. -/
abbrev Block := Vector UInt32 16

/-- Rotate a word to the left by less than its width. -/
def rotateLeft (x count : UInt32) : UInt32 := (x <<< count) ||| (x >>> (32 - count))

/-- Mix four words of a block. -/
def quarterRound (b : Block) (i j k l : Fin 16) : Block :=
  let a := b[i] + b[j]
  let d := rotateLeft (b[l] ^^^ a) 16
  let c := b[k] + d
  let b' := rotateLeft (b[j] ^^^ c) 12
  let a := a + b'
  let d := rotateLeft (d ^^^ a) 8
  let c := c + d
  let b' := rotateLeft (b' ^^^ c) 7
  (((b.set i a).set j b').set k c).set l d

/-- A round over the columns of a block and a round over its diagonals. -/
def doubleRound (b : Block) : Block :=
  let b := quarterRound b 0 4 8 12
  let b := quarterRound b 1 5 9 13
  let b := quarterRound b 2 6 10 14
  let b := quarterRound b 3 7 11 15
  let b := quarterRound b 0 5 10 15
  let b := quarterRound b 1 6 11 12
  let b := quarterRound b 2 7 8 13
  quarterRound b 3 4 9 14

/-- The number of double rounds that mix a block. -/
def doubleRounds : Nat := 6

/-- The words that start every block. -/
def cipherConstants : Vector UInt32 4 := #v[0x61707865, 0x3320646e, 0x79622d32, 0x6b206574]

/-- The words that a key and a block counter give. -/
def cipherBlock (key : Vector UInt32 8) (counter : UInt64) : Block :=
  let position : Vector UInt32 4 := #v[counter.toUInt32, (counter >>> 32).toUInt32, 0, 0]
  let start : Block := cipherConstants ++ key ++ position
  (Nat.repeat doubleRound doubleRounds start).zipWith (· + ·) start

/-- The next state of the generator that spreads a seed. -/
def seedStep (state : UInt64) : UInt64 := state * 6364136223846793005 + 11634580027462260723

/-- The word that a state of that generator gives: its high bits, rotated right by its top five. -/
def seedWord (state : UInt64) : UInt32 :=
  let x := (((state >>> 18) ^^^ state) >>> 27).toUInt32
  let turn := (state >>> 59).toUInt32
  (x >>> turn) ||| (x <<< ((32 - turn) % 32))

/-- The key of a seed. -/
def keyOfSeed (seed : UInt64) : Vector UInt32 8 :=
  Vector.ofFn fun i => seedWord (Nat.repeat seedStep (i + 1) seed)

/-- A position in the stream of words of a key. -/
structure Stream where
  key : Vector UInt32 8
  counter : UInt64 := 0
  pending : List UInt32 := []

/-- The start of the stream of a seed. -/
def Stream.ofSeed (seed : UInt64) : Stream := { key := keyOfSeed seed }

/-- A random computation, which moves along a stream. -/
abbrev Draw := StateM Stream

/-- The next word of the stream. -/
def nextWord : Draw UInt32 := fun s =>
  match s.pending with
  | word :: rest => (word, { s with pending := rest })
  | [] =>
    let block := cipherBlock s.key s.counter
    (block[0], { s with counter := s.counter + 1, pending := block.toList.tail })

/-- The next two words of the stream as one, the low half first. -/
def nextLongWord : Draw UInt64 := do
  let low ← nextWord
  let high ← nextWord
  return high.toUInt64 <<< 32 ||| low.toUInt64

end GraphKernels.Random
