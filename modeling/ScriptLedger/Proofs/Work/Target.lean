import Mathlib
import ScriptLedger.Work.Target

/-!
# Digests below the target

A digest read as a number is below `2²⁵⁶`, so a difficulty of zero or one is met by
every digest.

## Main results

* `Blob.toNat_lt` — the number that a byte string writes.
* `Work.meetsTarget_of_le_one` — the difficulties that ask for no work.
-/

namespace ScriptLedger

private theorem foldl_bytes_lt (bytes : List UInt8) (start bound : Nat) (h : start < bound) :
    bytes.foldl (fun n byte => n * 256 + byte.toNat) start < bound * 256 ^ bytes.length := by
  induction bytes generalizing start bound with
  | nil => simpa using h
  | cons byte rest ih =>
      have hbyte := byte.toNat_lt
      have hstep : start * 256 + byte.toNat < bound * 256 := by omega
      have hrest := ih (start * 256 + byte.toNat) (bound * 256) hstep
      rw [List.foldl_cons, List.length_cons, Nat.pow_succ']
      rw [Nat.mul_assoc] at hrest
      exact hrest

theorem Blob.toNat_lt {k : Kind} (b : Blob k) : b.toNat < 256 ^ k.size := by
  have hlt := foldl_bytes_lt b.toList 0 1 Nat.one_pos
  rw [Blob.length_toList, Nat.one_mul] at hlt
  exact hlt

namespace Work

theorem meetsTarget_of_le_one (hash : Hash) {difficulty : UInt64} (h : difficulty.toNat ≤ 1) :
    meetsTarget hash difficulty = true := by
  have hlt : hash.toNat < 2 ^ 256 := hash.toNat_lt
  have hmax : max difficulty.toNat 1 = 1 := by omega
  rw [meetsTarget, target, hmax, Nat.div_one, Nat.one_shiftLeft]
  exact decide_eq_true (Nat.le_of_lt hlt)

end Work

end ScriptLedger
