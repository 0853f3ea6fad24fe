import ScriptLedger.World.Transition

/-!
# Why a block is refused

Every way for a block not to be built, sealed or added to a chain.
-/

namespace ScriptLedger

/-- A reason to refuse a block. -/
inductive BlockError
  /-- A transaction has an input that its owner has not signed. -/
  | unsigned (tx : Hash)
  /-- A transaction is in the block twice. -/
  | duplicateTransaction (tx : Hash)
  /-- A transaction cannot be applied. -/
  | transition (tx : Hash) (cause : TransitionError)
  /-- The parent is not in the chain. -/
  | unknownParent (hash : Hash)
  /-- The header is not the one that parent and transactions give. -/
  | headerMismatch (received rebuilt : Hash)
  /-- The digest does not meet the difficulty. -/
  | insufficientWork (hash : Hash) (difficulty : UInt64)
  /-- No nonce that was tried meets the difficulty. -/
  | miningFailed (attempts : UInt64)
  /-- A height or a sum of difficulties is no word. -/
  | overflow
  /-- The trie of transactions has no answer. -/
  | trie (cause : TrieError)
  /-- The snapshot cannot be read or written. -/
  | state (cause : StateError)
deriving DecidableEq

/-- The wording of a reason. -/
def BlockError.message : BlockError → String
  | .unsigned tx => "transaction " ++ tx.toHex ++ " is not signed"
  | .duplicateTransaction tx => "duplicate transaction " ++ tx.toHex
  | .transition tx cause => "transaction " ++ tx.toHex ++ " rejected: " ++ cause.message
  | .unknownParent hash => "unknown parent block " ++ hash.toHex
  | .headerMismatch received rebuilt =>
    "header mismatch: received " ++ received.toHex ++ ", rebuilt " ++ rebuilt.toHex
  | .insufficientWork hash difficulty =>
    "block " ++ hash.toHex ++ " does not meet difficulty " ++ toString difficulty.toNat
  | .miningFailed attempts =>
    "no valid nonce found in " ++ toString attempts.toNat ++ " attempts"
  | .overflow => "chain counter overflow"
  | .trie cause => cause.message
  | .state cause => cause.message

end ScriptLedger
