/-!
# Machine words with exact arithmetic

Balances, heights and difficulties are unsigned 64-bit words; the integers of
a script are signed ones.  No computation of the ledger wraps around: a result
is computed as a whole number and then cut back to a word, which succeeds
exactly when some word has that value.  `signed?` and `unsigned?` are the two
cuts, and `signed?_eq_some_iff` and `unsigned?_eq_some_iff` say that they lose
nothing and invent nothing.
-/

namespace ScriptLedger.Word

/-! ## Cutting a whole number back to a word -/

/-- The signed word whose value is `i`, if there is one. -/
def signed? (i : Int) : Option Int64 :=
  let w := Int64.ofInt i
  if w.toInt = i then some w else none

/-- The unsigned word whose value is `i`, if there is one. -/
def unsigned? (i : Int) : Option UInt64 :=
  let w := UInt64.ofNat i.toNat
  if (w.toNat : Int) = i then some w else none

theorem signed?_eq_some_iff {i : Int} {w : Int64} :
    signed? i = some w ↔ w.toInt = i := by
  unfold signed?
  dsimp only
  split
  case isTrue h =>
    simp only [Option.some.injEq]
    constructor
    · rintro rfl
      exact h
    · rintro rfl
      exact Int64.ofInt_toInt w
  case isFalse h =>
    simp only [reduceCtorEq, false_iff]
    rintro rfl
    exact h (by rw [Int64.ofInt_toInt])

theorem unsigned?_eq_some_iff {i : Int} {w : UInt64} :
    unsigned? i = some w ↔ (w.toNat : Int) = i := by
  unfold unsigned?
  dsimp only
  split
  case isTrue h =>
    simp only [Option.some.injEq]
    constructor
    · rintro rfl
      exact h
    · rintro rfl
      rw [Int.toNat_natCast, UInt64.ofNat_toNat]
  case isFalse h =>
    simp only [reduceCtorEq, false_iff]
    rintro rfl
    exact h (by rw [Int.toNat_natCast, UInt64.ofNat_toNat])

/-! ## Big-endian bytes -/

/-- The eight bytes of a word, most significant first. -/
def bigEndian (w : UInt64) : List UInt8 :=
  [56, 48, 40, 32, 24, 16, 8, 0].map fun (shift : UInt64) => (w >>> shift).toUInt8

end ScriptLedger.Word
