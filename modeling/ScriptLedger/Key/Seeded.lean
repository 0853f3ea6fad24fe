import ScriptLedger.Key.Signing

/-!
# Keys drawn from a numbered stream

A stream of pseudo-random bytes fixed by a 64-bit number: the number is
stretched to a key by a permuted congruential generator, and the key drives a
ChaCha stream of twelve rounds.  Draws take thirty-two bytes at a time, so the
`n`-th draw is half of the block `n / 2`.  Equal numbers give equal keys
everywhere, which is what lets a script name a key by a number.
-/

namespace ScriptLedger

namespace Seeded

/-! ## From a number to a key -/

/-- The next state of the generator that stretches a number. -/
def advance (s : UInt64) : UInt64 := s * 6364136223846793005 + 11634580027462260723

/-- The output of a state: its high bits, folded and rotated. -/
def output (s : UInt64) : UInt32 :=
  let x := (((s >>> 18) ^^^ s) >>> 27).toUInt32
  let amount := (s >>> 59).toUInt32
  (x >>> amount) ||| (x <<< ((32 - amount) % 32))

/-- The first outputs after a state. -/
def outputs : (count : Nat) → UInt64 → List UInt32
  | 0, _ => []
  | count + 1, s => output (advance s) :: outputs count (advance s)

/-! ## The block function -/

/-- The sixteen words of a block. -/
abbrev Words := Vector UInt32 16

/-- Rotates a word to the left. -/
def rotateLeft (x amount : UInt32) : UInt32 := (x <<< amount) ||| (x >>> (32 - amount))

/-- Stirs four of the words. -/
def quarter (w : Words) (a b c d : Fin 16) : Words :=
  let half (w : Words) (high low : UInt32) : Words :=
    let w := w.set a (w[a] + w[b])
    let w := w.set d (rotateLeft (w[d] ^^^ w[a]) high)
    let w := w.set c (w[c] + w[d])
    w.set b (rotateLeft (w[b] ^^^ w[c]) low)
  half (half w 16 12) 8 7

/-- One round on the columns and one on the diagonals. -/
def doubleRound (w : Words) : Words :=
  let w := quarter w 0 4 8 12
  let w := quarter w 1 5 9 13
  let w := quarter w 2 6 10 14
  let w := quarter w 3 7 11 15
  let w := quarter w 0 5 10 15
  let w := quarter w 1 6 11 12
  let w := quarter w 2 7 8 13
  quarter w 3 4 9 14

/-- The words of one block of the stream. -/
def block (key : List UInt32) (number : UInt64) : Words :=
  let head : List UInt32 := [0x61707865, 0x3320646e, 0x79622d32, 0x6b206574]
  let words := head ++ key ++ [number.toUInt32, (number >>> 32).toUInt32]
  let start : Words := Vector.ofFn fun i => words.getD i.val 0
  let final := (List.range 6).foldl (fun w _ => doubleRound w) start
  Vector.zipWith (· + ·) final start

/-- The bytes of a word, least significant first. -/
def littleEndian (w : UInt32) : List UInt8 :=
  [0, 8, 16, 24].map fun (shift : UInt32) => (w >>> shift).toUInt8

/-! ## Draws -/

/-- A stream with the number of draws already taken from it. -/
structure Stream where
  key : List UInt32
  drawn : Nat

/-- The stream of a number, from its start. -/
def Stream.ofSeed (seed : UInt64) : Stream := ⟨outputs 8 seed, 0⟩

/-- Thirty-two bytes of the block that a draw falls into. -/
def Stream.bytesAt (key : List UInt32) (draw : Nat) : Vector UInt8 32 :=
  let bytes := (block key (UInt64.ofNat (draw / 2))).toList.flatMap littleEndian
  Vector.ofFn fun i => bytes.getD (32 * (draw % 2) + i.val) 0

/-- The next thirty-two bytes. -/
def Stream.draw (s : Stream) : Vector UInt8 32 × Stream :=
  (bytesAt s.key s.drawn, { s with drawn := s.drawn + 1 })

/-- A fresh value that tells otherwise equal transactions apart. -/
def Stream.nonce (s : Stream) : Hash × Stream :=
  let (bytes, rest) := s.draw
  (⟨bytes⟩, rest)

/-- A fresh keypair. -/
def Stream.keypair (s : Stream) : Keypair × Stream :=
  let (seed, rest) := s.draw
  (Keypair.ofSeed seed, rest)

end Seeded

/-- The keypair of a number: the first of its stream. -/
def Keypair.ofNumber (seed : UInt64) : Keypair := (Seeded.Stream.ofSeed seed).keypair.1

end ScriptLedger
