import ScriptLedger.Transaction.Signed
import ScriptLedger.Work.Target
import ScriptLedger.World.Basic

/-!
# Blocks

A skeleton is a candidate: transactions in the order of their digests, the
snapshot after them, and the trie that commits to them.  A block is a skeleton
with a nonce, and it is named by the digest of its header.  That the digest
meets the target is not part of being a block; a chain asks for it.
-/

namespace ScriptLedger

/-- A candidate block, whose proof of work has not been found. -/
structure Skeleton where
  header : SkeletonHeader
  /-- The transactions, in the order in which they were applied. -/
  transactions : List Transaction
  /-- All accounts after the transactions. -/
  world : World
  /-- The digests of the transactions, each under itself. -/
  txTrie : Trie
deriving DecidableEq

/-- The header of the block that a nonce makes of a skeleton. -/
def Skeleton.withNonce (s : Skeleton) (nonce : Hash) : BlockHeader :=
  { nonce, skeleton := s.header }

/-- A skeleton with a nonce. -/
structure Block where
  skeleton : Skeleton
  nonce : Hash
deriving DecidableEq

namespace Block

/-- The header of a block. -/
def header (b : Block) : BlockHeader := b.skeleton.withNonce b.nonce

/-- The name of a block: the digest of its header. -/
def hash (b : Block) : Hash := Record.hash b.header

/-- How many blocks there are up to this one. -/
def height (b : Block) : UInt64 := b.skeleton.header.height

/-- The sum of difficulties up to this block. -/
def accumulatedDifficulty (b : Block) : UInt64 := b.skeleton.header.accumulatedDifficulty

/-- The name of the parent, zero for a first block. -/
def prevBlockHash (b : Block) : Hash := b.skeleton.header.prevBlockHash

/-- Whether the name of a block meets the difficulty in its header. -/
def meetsTarget (b : Block) : Bool := Work.meetsTarget b.hash b.skeleton.header.difficulty

/-- The same block with its snapshot over the bottom store. -/
def commit (b : Block) : Archived StateError Block := do
  let world ← b.skeleton.world.commit
  pure { b with skeleton := { b.skeleton with world } }

end Block

end ScriptLedger
