/-!
# SHA-256 and SHA-512

The two hash functions are one algorithm over words of different width: pad
the message to whole blocks of sixteen words, extend each block to one word a
round, and stir the words into a state of eight.  `Sha2 W` holds what depends
on the width: the rotations, the constants, and how a word is written in
bytes.  `sha256` is the function behind every hash of the ledger; `sha512`
serves the signatures.
-/

namespace ScriptLedger.Digest

/-- What the algorithm needs to know about words of a width. -/
class Sha2 (W : Type) extends Add W, XorOp W, AndOp W, Complement W where
  /-- Bytes in a word. -/
  wordSize : Nat
  /-- The word that a list of bytes writes in big-endian. -/
  ofBytes : List UInt8 → W
  /-- The bytes of a word, most significant first. -/
  toBytes : W → List UInt8
  /-- The rotations that extend a block. -/
  extendLow : W → W
  extendHigh : W → W
  /-- The rotations that stir the state. -/
  stirLow : W → W
  stirHigh : W → W
  /-- One constant for each round. -/
  rounds : List W
  /-- The state before the first block. -/
  start : List W

/-! ## Blocks -/

/-- The first `count` pieces of `size` elements each. -/
def pieces {α : Type} (size : Nat) : (count : Nat) → List α → List (List α)
  | 0, _ => []
  | count + 1, l => l.take size :: pieces size count (l.drop size)

/-- The big-endian bytes of a number, as many as asked for. -/
def bigEndian : (count : Nat) → Nat → List UInt8
  | 0, _ => []
  | count + 1, n => bigEndian count (n / 256) ++ [UInt8.ofNat n]

variable {W : Type}

/-- A message followed by a one bit, zero bits, and its length in bits, which
together fill whole blocks. -/
def padded (W : Type) [Sha2 W] (message : List UInt8) : List UInt8 :=
  let block := 16 * Sha2.wordSize W
  let used := message.length + 1 + 2 * Sha2.wordSize W
  let zeros := (block - used % block) % block
  message ++ 0x80 :: List.replicate zeros 0
    ++ bigEndian (2 * Sha2.wordSize W) (8 * message.length)

/-- The words that follow a window of sixteen, each a mixture of four of the
sixteen before it. -/
@[specialize] def extension [Sha2 W] : (count : Nat) → (window : List W) → List W
  | 0, _ => []
  | count + 1, window =>
    let word (i : Nat) : W := window.getD i (Sha2.ofBytes [])
    let next := word 0 + Sha2.extendLow (word 1) + (word 9 + Sha2.extendHigh (word 14))
    next :: extension count (window.drop 1 ++ [next])

/-- One word for each round: the sixteen of the block and those that follow. -/
@[specialize] def extended [Sha2 W] (block : List W) : List W :=
  block ++ extension ((Sha2.rounds (W := W)).length - 16) block

/-! ## Stirring -/

/-- The eight words that a block is stirred into. -/
structure Octet (W : Type) where
  a : W
  b : W
  c : W
  d : W
  e : W
  f : W
  g : W
  h : W

/-- The eight words in order. -/
def Octet.toList (s : Octet W) : List W := [s.a, s.b, s.c, s.d, s.e, s.f, s.g, s.h]

/-- One round with the sum of a constant and a word of the block. -/
@[inline] def Octet.stir [Sha2 W] (s : Octet W) (k w : W) : Octet W :=
  let choice := (s.e &&& s.f) ^^^ (~~~s.e &&& s.g)
  let majority := (s.a &&& s.b) ^^^ (s.a &&& s.c) ^^^ (s.b &&& s.c)
  let t := s.h + Sha2.stirHigh s.e + choice + k + w
  { a := t + (Sha2.stirLow s.a + majority), b := s.a, c := s.b, d := s.c
    e := s.d + t, f := s.e, g := s.f, h := s.g }

/-- All rounds of a block. -/
@[specialize] def Octet.stirAll [Sha2 W] : List W → List W → Octet W → Octet W
  | k :: ks, w :: ws, s => stirAll ks ws (s.stir k w)
  | _, _, s => s

/-- Adds two states word by word. -/
def Octet.add [Sha2 W] (s t : Octet W) : Octet W :=
  { a := s.a + t.a, b := s.b + t.b, c := s.c + t.c, d := s.d + t.d
    e := s.e + t.e, f := s.f + t.f, g := s.g + t.g, h := s.h + t.h }

/-- The state before the first block. -/
def Octet.start (W : Type) [Sha2 W] : Octet W :=
  let word (i : Nat) : W := (Sha2.start (W := W)).getD i (Sha2.ofBytes [])
  ⟨word 0, word 1, word 2, word 3, word 4, word 5, word 6, word 7⟩

/-- The state after one more block, given as bytes. -/
@[specialize] def Octet.absorb [Sha2 W] (s : Octet W) (block : List UInt8) : Octet W :=
  let words := (pieces (Sha2.wordSize W) 16 block).map Sha2.ofBytes
  s.add (stirAll Sha2.rounds (extended words) s)

/-- The digest of a message. -/
@[specialize] def hash (W : Type) [Sha2 W] (message : List UInt8) : List UInt8 :=
  let bytes := padded W message
  let block := 16 * Sha2.wordSize W
  let final := (pieces block (bytes.length / block) bytes).foldl Octet.absorb (Octet.start W)
  final.toList.flatMap Sha2.toBytes

/-! ## The two widths -/

/-- Rotates a word to the right. -/
@[inline] def rotate32 (x : UInt32) (amount : UInt32) : UInt32 :=
  (x >>> amount) ||| (x <<< (32 - amount))

/-- Rotates a word to the right. -/
@[inline] def rotate64 (x : UInt64) (amount : UInt64) : UInt64 :=
  (x >>> amount) ||| (x <<< (64 - amount))

instance : Sha2 UInt32 where
  wordSize := 4
  ofBytes bytes := bytes.foldl (fun w b => (w <<< 8) ||| b.toUInt32) 0
  toBytes w := [24, 16, 8, 0].map fun (shift : UInt32) => (w >>> shift).toUInt8
  extendLow x := rotate32 x 7 ^^^ rotate32 x 18 ^^^ (x >>> 3)
  extendHigh x := rotate32 x 17 ^^^ rotate32 x 19 ^^^ (x >>> 10)
  stirLow x := rotate32 x 2 ^^^ rotate32 x 13 ^^^ rotate32 x 22
  stirHigh x := rotate32 x 6 ^^^ rotate32 x 11 ^^^ rotate32 x 25
  rounds :=
    [0x428a2f98, 0x71374491, 0xb5c0fbcf, 0xe9b5dba5, 0x3956c25b, 0x59f111f1,
     0x923f82a4, 0xab1c5ed5, 0xd807aa98, 0x12835b01, 0x243185be, 0x550c7dc3,
     0x72be5d74, 0x80deb1fe, 0x9bdc06a7, 0xc19bf174, 0xe49b69c1, 0xefbe4786,
     0x0fc19dc6, 0x240ca1cc, 0x2de92c6f, 0x4a7484aa, 0x5cb0a9dc, 0x76f988da,
     0x983e5152, 0xa831c66d, 0xb00327c8, 0xbf597fc7, 0xc6e00bf3, 0xd5a79147,
     0x06ca6351, 0x14292967, 0x27b70a85, 0x2e1b2138, 0x4d2c6dfc, 0x53380d13,
     0x650a7354, 0x766a0abb, 0x81c2c92e, 0x92722c85, 0xa2bfe8a1, 0xa81a664b,
     0xc24b8b70, 0xc76c51a3, 0xd192e819, 0xd6990624, 0xf40e3585, 0x106aa070,
     0x19a4c116, 0x1e376c08, 0x2748774c, 0x34b0bcb5, 0x391c0cb3, 0x4ed8aa4a,
     0x5b9cca4f, 0x682e6ff3, 0x748f82ee, 0x78a5636f, 0x84c87814, 0x8cc70208,
     0x90befffa, 0xa4506ceb, 0xbef9a3f7, 0xc67178f2]
  start :=
    [0x6a09e667, 0xbb67ae85, 0x3c6ef372, 0xa54ff53a, 0x510e527f, 0x9b05688c,
     0x1f83d9ab, 0x5be0cd19]

instance : Sha2 UInt64 where
  wordSize := 8
  ofBytes bytes := bytes.foldl (fun w b => (w <<< 8) ||| b.toUInt64) 0
  toBytes w := [56, 48, 40, 32, 24, 16, 8, 0].map fun (shift : UInt64) => (w >>> shift).toUInt8
  extendLow x := rotate64 x 1 ^^^ rotate64 x 8 ^^^ (x >>> 7)
  extendHigh x := rotate64 x 19 ^^^ rotate64 x 61 ^^^ (x >>> 6)
  stirLow x := rotate64 x 28 ^^^ rotate64 x 34 ^^^ rotate64 x 39
  stirHigh x := rotate64 x 14 ^^^ rotate64 x 18 ^^^ rotate64 x 41
  rounds :=
    [0x428a2f98d728ae22, 0x7137449123ef65cd, 0xb5c0fbcfec4d3b2f, 0xe9b5dba58189dbbc,
     0x3956c25bf348b538, 0x59f111f1b605d019, 0x923f82a4af194f9b, 0xab1c5ed5da6d8118,
     0xd807aa98a3030242, 0x12835b0145706fbe, 0x243185be4ee4b28c, 0x550c7dc3d5ffb4e2,
     0x72be5d74f27b896f, 0x80deb1fe3b1696b1, 0x9bdc06a725c71235, 0xc19bf174cf692694,
     0xe49b69c19ef14ad2, 0xefbe4786384f25e3, 0x0fc19dc68b8cd5b5, 0x240ca1cc77ac9c65,
     0x2de92c6f592b0275, 0x4a7484aa6ea6e483, 0x5cb0a9dcbd41fbd4, 0x76f988da831153b5,
     0x983e5152ee66dfab, 0xa831c66d2db43210, 0xb00327c898fb213f, 0xbf597fc7beef0ee4,
     0xc6e00bf33da88fc2, 0xd5a79147930aa725, 0x06ca6351e003826f, 0x142929670a0e6e70,
     0x27b70a8546d22ffc, 0x2e1b21385c26c926, 0x4d2c6dfc5ac42aed, 0x53380d139d95b3df,
     0x650a73548baf63de, 0x766a0abb3c77b2a8, 0x81c2c92e47edaee6, 0x92722c851482353b,
     0xa2bfe8a14cf10364, 0xa81a664bbc423001, 0xc24b8b70d0f89791, 0xc76c51a30654be30,
     0xd192e819d6ef5218, 0xd69906245565a910, 0xf40e35855771202a, 0x106aa07032bbd1b8,
     0x19a4c116b8d2d0c8, 0x1e376c085141ab53, 0x2748774cdf8eeb99, 0x34b0bcb5e19b48a8,
     0x391c0cb3c5c95a63, 0x4ed8aa4ae3418acb, 0x5b9cca4f7763e373, 0x682e6ff3d6b2b8a3,
     0x748f82ee5defb2fc, 0x78a5636f43172f60, 0x84c87814a1f0ab72, 0x8cc702081a6439ec,
     0x90befffa23631e28, 0xa4506cebde82bde9, 0xbef9a3f7b2c67915, 0xc67178f2e372532b,
     0xca273eceea26619c, 0xd186b8c721c0c207, 0xeada7dd6cde0eb1e, 0xf57d4f7fee6ed178,
     0x06f067aa72176fba, 0x0a637dc5a2c898a6, 0x113f9804bef90dae, 0x1b710b35131c471b,
     0x28db77f523047d84, 0x32caab7b40c72493, 0x3c9ebe0a15c9bebc, 0x431d67c49c100d4c,
     0x4cc5d4becb3e42b6, 0x597f299cfc657e2a, 0x5fcb6fab3ad6faec, 0x6c44198c4a475817]
  start :=
    [0x6a09e667f3bcc908, 0xbb67ae8584caa73b, 0x3c6ef372fe94f82b, 0xa54ff53a5f1d36f1,
     0x510e527fade682d1, 0x9b05688c2b3e6c1f, 0x1f83d9abfb41bd6b, 0x5be0cd19137e2179]

/-! ## The hash functions -/

/-- Writing a word takes as many bytes as its width says. -/
theorem length_hash (W : Type) [Sha2 W] (h : ∀ w : W, (Sha2.toBytes w).length = Sha2.wordSize W)
    (message : List UInt8) : (hash W message).length = 8 * Sha2.wordSize W := by
  simp only [hash, Octet.toList, List.flatMap_cons, List.flatMap_nil, List.length_append, h,
    List.length_nil]
  omega

end ScriptLedger.Digest
