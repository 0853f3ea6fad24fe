import ScriptLedger.Chain.Basic
import ScriptLedger.Work.Search

/-!
# Peers

A peer holds a chain and extends it: it builds on the canonical head, seals
what it built, and inserts it.  Time comes from outside.
-/

namespace ScriptLedger

/-- A chain with a miner that extends it. -/
structure Peer where
  chain : Chain
  miner : Miner
  /-- The account that gets the fees of the blocks mined here. -/
  minerAddress : Hash

namespace Peer

/-- Builds, seals and inserts a block on the canonical head, or a first
block. -/
def mine (peer : Peer) (transactions : List Transaction) (timestamp : UInt64) :
    Archived BlockError (Peer × Hash) := do
  let skeleton ←
    Skeleton.build peer.chain.rules peer.chain.canonicalHead transactions peer.minerAddress
      timestamp
  let b ← ofExcept (peer.miner.mine skeleton)
  let (chain, hash) ← peer.chain.insert b
  pure ({ peer with chain }, hash)

/-- Mines so many blocks without transactions. -/
def mineEmpty (timestamp : UInt64) : (count : Nat) → Peer → Archived BlockError Peer
  | 0, peer => pure peer
  | count + 1, peer => do
    let (peer, _) ← peer.mine [] timestamp
    mineEmpty timestamp count peer

/-- Mines a first block, if there is none, and then so many more, all without
transactions. -/
def bootstrap (peer : Peer) (blocks : Nat) (timestamp : UInt64) :
    Archived BlockError Peer :=
  peer.mineEmpty timestamp (if peer.chain.isEmpty then blocks + 1 else blocks)

end Peer

end ScriptLedger
