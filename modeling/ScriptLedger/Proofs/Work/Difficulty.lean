import Mathlib.Data.Nat.Digits.Defs
import ScriptLedger.Proofs.Work.Target

/-!
# Meeting a difficulty is an inequality of products

The target of a difficulty is a quotient, and a quotient is rounded down.  That changes nothing
for the whole numbers below it, so a digest meets a difficulty exactly if their product is at
most `2²⁵⁶`, whatever the difficulty leaves over when it divides.  A digest that meets a
difficulty therefore meets every smaller one.

The greatest target, `2²⁵⁶` itself, is no number of 256 bits, but nothing that is computed on the
way to an answer is greater.  The test is carried out here once more with every result cut back to
a word, and no cut fails if words have one bit more than that, or twice as many.

## Main results

* `Work.le_target_iff` — a number is at most the target if its product with the difficulty is at
  most `2²⁵⁶`.
* `Work.meetsTarget?_eq` — the test on words has an answer, and the right one.
* `Work.meetsTarget_exact` — the test is exact and monotone, and the easiest difficulties accept
  everything.
-/

namespace ScriptLedger

/-- The bytes of a byte string are the digits of its number, the first byte the greatest. -/
theorem Blob.toNat_eq_ofDigits {k : Kind} (b : Blob k) :
    b.toNat = Nat.ofDigits 256 (b.toList.map UInt8.toNat).reverse := by
  rw [Nat.ofDigits_eq_foldr, List.foldr_reverse, List.foldl_map, Blob.toNat]
  simp only [Nat.cast_id, Nat.mul_comm, Nat.add_comm]

namespace Work

variable {n : Nat} {hash : Hash} {difficulty : UInt64}

/-! ## The target -/

theorem target_eq (difficulty : UInt64) :
    target difficulty = 2 ^ 256 / max difficulty.toNat 1 := by
  rw [target, Nat.one_shiftLeft]

/-- Rounding the quotient down excludes no whole number. -/
theorem le_target_iff : n ≤ target difficulty ↔ n * max difficulty.toNat 1 ≤ 2 ^ 256 := by
  have hpos : 0 < max difficulty.toNat 1 := Nat.lt_of_lt_of_le Nat.one_pos (Nat.le_max_right _ _)
  rw [target_eq, Nat.le_div_iff_mul_le hpos]

theorem meetsTarget_iff :
    meetsTarget hash difficulty = true ↔ hash.toNat * max difficulty.toNat 1 ≤ 2 ^ 256 := by
  rw [meetsTarget, decide_eq_true_iff, le_target_iff]

theorem target_le (difficulty : UInt64) : target difficulty ≤ 2 ^ 256 := by
  rw [target_eq]
  exact Nat.div_le_self _ _

/-- What meets a difficulty meets every smaller one. -/
theorem meetsTarget_of_le {easier : UInt64} (hle : easier ≤ difficulty)
    (h : meetsTarget hash difficulty = true) : meetsTarget hash easier = true := by
  have hmax : max easier.toNat 1 ≤ max difficulty.toNat 1 :=
    max_le_max (UInt64.le_iff_toNat_le.mp hle) le_rfl
  rw [meetsTarget_iff] at h ⊢
  exact (Nat.mul_le_mul_left _ hmax).trans h

/-! ## Words -/

/-- The word of so many bits whose value is `n`, if there is one. -/
def word? (bits n : Nat) : Option (BitVec bits) :=
  let w := BitVec.ofNat bits n
  if w.toNat = n then some w else none

/-- The target of a difficulty, if each result on the way is a word. -/
def target? (bits : Nat) (difficulty : UInt64) : Option (BitVec bits) := do
  let all ← word? bits (1 <<< 256)
  let divisor ← word? bits (max difficulty.toNat 1)
  if divisor.toNat = 0 then none else word? bits (all.toNat / divisor.toNat)

/-- The number that bytes write behind those of a word, if each result on the way is a word. -/
def number? {bits : Nat} (start : BitVec bits) (bytes : List UInt8) : Option (BitVec bits) :=
  bytes.foldlM (fun w byte => word? bits (w.toNat * 256 + byte.toNat)) start

/-- Whether a digest meets a difficulty, if each result on the way is a word. -/
def meetsTarget? (bits : Nat) (hash : Hash) (difficulty : UInt64) : Option Bool := do
  let number ← number? (0 : BitVec bits) hash.toList
  let target ← target? bits difficulty
  return number ≤ target

section Words

variable {bits : Nat}

theorem exists_word (h : n < 2 ^ bits) : ∃ w, word? bits n = some w ∧ w.toNat = n := by
  have hvalue : (BitVec.ofNat bits n).toNat = n := by
    rw [BitVec.toNat_ofNat, Nat.mod_eq_of_lt h]
  exact ⟨BitVec.ofNat bits n, if_pos hvalue, hvalue⟩

theorem exists_target (hbits : 256 < bits) (difficulty : UInt64) :
    ∃ w, target? bits difficulty = some w ∧ w.toNat = target difficulty := by
  have hroom : 2 ^ 256 < 2 ^ bits := Nat.pow_lt_pow_right (by decide) hbits
  have hdivisor : max difficulty.toNat 1 < 2 ^ bits := by
    have hlt := difficulty.toNat_lt
    omega
  obtain ⟨all, hall, hvalue⟩ := exists_word (n := 1 <<< 256) (by rwa [Nat.one_shiftLeft])
  obtain ⟨divisor, hdivisor, hvalue'⟩ := exists_word hdivisor
  obtain ⟨w, hw, hquotient⟩ := exists_word ((target_le difficulty).trans_lt hroom)
  have hne : divisor.toNat ≠ 0 := by omega
  refine ⟨w, ?_, hquotient⟩
  rw [target?, hall, hdivisor]
  show (if divisor.toNat = 0 then none else word? bits (all.toNat / divisor.toNat)) = some w
  rw [if_neg hne, hvalue, hvalue']
  exact hw

theorem le_foldl_bytes (bytes : List UInt8) (start : Nat) :
    start ≤ bytes.foldl (fun n byte => n * 256 + byte.toNat) start := by
  induction bytes generalizing start with
  | nil => exact Nat.le_refl _
  | cons byte bytes ih =>
      have hmore := ih (start * 256 + byte.toNat)
      rw [List.foldl_cons]
      omega

/-- What has been read is never more than what is read in the end, so the end decides. -/
theorem exists_number (bytes : List UInt8) (start : BitVec bits)
    (h : bytes.foldl (fun n byte => n * 256 + byte.toNat) start.toNat < 2 ^ bits) :
    ∃ w, number? start bytes = some w ∧
      w.toNat = bytes.foldl (fun n byte => n * 256 + byte.toNat) start.toNat := by
  induction bytes generalizing start with
  | nil => exact ⟨start, rfl, rfl⟩
  | cons byte bytes ih =>
      rw [List.foldl_cons] at h
      obtain ⟨next, hnext, hvalue⟩ := exists_word ((le_foldl_bytes bytes _).trans_lt h)
      rw [← hvalue] at h
      obtain ⟨w, hw, hresult⟩ := ih next h
      refine ⟨w, ?_, ?_⟩
      · rw [number?, List.foldlM_cons, hnext]
        exact hw
      · rw [hresult, hvalue, List.foldl_cons]

/-- No result on the way to the answer needs more bits than `2²⁵⁶` does. -/
theorem meetsTarget?_eq (hbits : 256 < bits) (hash : Hash) (difficulty : UInt64) :
    meetsTarget? bits hash difficulty = some (meetsTarget hash difficulty) := by
  have hlt : hash.toNat < 2 ^ 256 := hash.toNat_lt
  have hroom : 2 ^ 256 < 2 ^ bits := Nat.pow_lt_pow_right (by decide) hbits
  obtain ⟨number, hnumber, hvalue⟩ := exists_number hash.toList (0 : BitVec bits) (hlt.trans hroom)
  obtain ⟨w, htarget, hvalue'⟩ := exists_target hbits difficulty
  have hle : number ≤ w ↔ hash.toNat ≤ target difficulty := by
    rw [BitVec.le_def, hvalue, hvalue']
    rfl
  rw [meetsTarget?, hnumber, htarget, meetsTarget]
  exact congrArg some (decide_eq_decide.mpr hle)

end Words

/-! ## The test -/

/-- A digest, read as a number from its greatest byte to its least, meets a difficulty if and
only if its product with the difficulty is at most `2²⁵⁶`.  It then meets all smaller ones;
difficulties zero and one are always met; and words of 512 bits suffice to find out. -/
theorem meetsTarget_exact (hash : Hash) (difficulty : UInt64) :
    (meetsTarget hash difficulty = true ↔
      Nat.ofDigits 256 (hash.toList.map UInt8.toNat).reverse * max difficulty.toNat 1 ≤ 2 ^ 256) ∧
    (∀ easier ≤ difficulty,
      meetsTarget hash difficulty = true → meetsTarget hash easier = true) ∧
    meetsTarget hash 0 = true ∧ meetsTarget hash 1 = true ∧
    meetsTarget? 512 hash difficulty = some (meetsTarget hash difficulty) := by
  rw [← Blob.toNat_eq_ofDigits]
  exact ⟨meetsTarget_iff, fun _ hle h => meetsTarget_of_le hle h,
    meetsTarget_of_le_one hash (by decide), meetsTarget_of_le_one hash (by decide),
    meetsTarget?_eq (by decide) hash difficulty⟩

/-- A third of `2²⁵⁶`, rounded down. -/
def third : Hash := ⟨Vector.replicate 32 0x55⟩

/-- It meets difficulty three although three does not divide `2²⁵⁶`, and therefore two. -/
theorem meetsTarget_exact_third :
    (2 : UInt64) ≤ 3 ∧ meetsTarget third 3 = true ∧ meetsTarget third 2 = true := by
  have hmeets : meetsTarget third 3 = true := by decide
  exact ⟨by decide, hmeets, (meetsTarget_exact third 3).2.1 2 (by decide) hmeets⟩

end Work

end ScriptLedger
