import ScriptLedger.Block.Header

/-!
# The proof-of-work target

A digest meets a difficulty when, read as a big-endian number, it is at most
`2²⁵⁶` divided by the difficulty.  The target is a ceiling: the greater the
difficulty, the fewer digests lie below it.  Difficulty zero counts as one,
which every digest meets.
-/

namespace ScriptLedger.Work

/-- The greatest number that meets a difficulty. -/
def target (difficulty : UInt64) : Nat := 1 <<< 256 / max difficulty.toNat 1

/-- Whether a digest meets a difficulty. -/
def meetsTarget (hash : Hash) (difficulty : UInt64) : Bool := hash.toNat ≤ target difficulty

end ScriptLedger.Work

namespace ScriptLedger

/-- Whether the digest of a header meets the header's own difficulty. -/
def BlockHeader.meetsTarget (header : BlockHeader) : Bool :=
  Work.meetsTarget (Record.hash header) header.skeleton.difficulty

end ScriptLedger
