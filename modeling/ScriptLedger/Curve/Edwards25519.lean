/-!
# The curve Edwards25519

Points of `-x² + y² = 1 + d·x²·y²` over the integers modulo `2²⁵⁵ - 19`, in
extended coordinates: `(X : Y : Z : T)` stands for `x = X/Z`, `y = Y/Z`, and
`T/Z = x·y`.  The addition formula has no exceptions, so doubling and adding
are one function.  A compressed point is the number `y` in little-endian with
the parity of `x` in the top bit; reading one takes `y` modulo the prime and
accepts either parity bit for `x = 0`.
-/

namespace ScriptLedger.Curve

/-! ## The field -/

/-- The prime of the field. -/
def prime : Nat := 1 <<< 255 - 19

/-- The difference of two field elements. -/
def sub (a b : Nat) : Nat := (a + (prime - b % prime)) % prime

/-- The product of two field elements. -/
def mul (a b : Nat) : Nat := a * b % prime

/-- The lowest bits of a number, most significant first. -/
def bits (count n : Nat) : List Bool := (List.range count).reverse.map n.testBit

/-- A power of a field element. -/
def pow (x e : Nat) : Nat :=
  (bits 255 e).foldl (fun r bit => if bit then mul (mul r r) x else mul r r) 1

/-- The inverse of a field element. -/
def inv (x : Nat) : Nat := pow x (prime - 2)

/-- The constant `d` of the curve: `-121665/121666`. -/
def d : Nat := 37095705934669439343138083508754565189542113879843219016388785533085940283555

/-- A square root of `-1`. -/
def rootOfMinusOne : Nat :=
  19681161376707505956807079304988542015446066515923890162744021073123829784752

/-- The even `x` with `v·x² = u`, if there is one. -/
def sqrtRatio? (u v : Nat) : Option Nat :=
  let v3 := mul (mul v v) v
  let x := mul (mul u v3) (pow (mul u (mul (mul v3 v3) v)) ((prime - 5) / 8))
  let even (x : Nat) : Nat := if x % 2 = 0 then x else prime - x
  let check := mul v (mul x x)
  if check = u % prime then some (even x)
  else if check = sub 0 u then some (even (mul x rootOfMinusOne))
  else none

/-! ## Points -/

/-- A point in extended coordinates. -/
structure Point where
  x : Nat
  y : Nat
  z : Nat
  t : Nat
deriving Repr, DecidableEq

namespace Point

/-- The neutral point. -/
def zero : Point := ⟨0, 1, 1, 0⟩

/-- The base point, whose multiples are the public keys. -/
def base : Point :=
  let x := 15112221349535400772501151409588531511454012693041857206046113283949847762202
  let y := 46316835694926478169428394003475163141307993866256225615783033603165251855960
  ⟨x, y, 1, mul x y⟩

/-- The sum of two points. -/
def add (p q : Point) : Point :=
  let a := mul (sub p.y p.x) (sub q.y q.x)
  let b := mul (p.y + p.x) (q.y + q.x)
  let c := mul (mul p.t q.t) (2 * d)
  let e := mul (2 * p.z) q.z
  let f := sub b a
  let g := sub e c
  let h := e + c
  let i := b + a
  ⟨mul f g, mul h i, mul g h, mul f i⟩

/-- The point with the opposite `x`. -/
def neg (p : Point) : Point := ⟨sub 0 p.x, p.y, p.z, sub 0 p.t⟩

/-- A multiple of a point, by a number below `2²⁵⁶`. -/
def scale (n : Nat) (p : Point) : Point :=
  (bits 256 n).foldl (fun r bit => if bit then (r.add r).add p else r.add r) zero

end Point

/-! ## Bytes -/

/-- The number that bytes write in little-endian. -/
def ofLittleEndian (bytes : List UInt8) : Nat :=
  bytes.foldr (fun b n => b.toNat + 256 * n) 0

/-- Thirty-two bytes in little-endian. -/
def littleEndian32 (n : Nat) : Vector UInt8 32 :=
  Vector.ofFn fun i => UInt8.ofNat (n >>> (8 * i.val))

/-- The compressed form of a point. -/
def Point.compress (p : Point) : Vector UInt8 32 :=
  let zInv := inv p.z
  let x := mul p.x zInv
  let y := mul p.y zInv
  littleEndian32 (y + (x % 2) <<< 255)

/-- The point with a compressed form, if it lies on the curve. -/
def Point.decompress? (bytes : Vector UInt8 32) : Option Point :=
  let n := ofLittleEndian bytes.toList
  let y := n % (1 <<< 255) % prime
  let y2 := mul y y
  (sqrtRatio? (sub y2 1) (mul d y2 + 1)).map fun even =>
    let x := if n >>> 255 = 1 then sub 0 even else even
    ⟨x, y, 1, mul x y⟩

end ScriptLedger.Curve
