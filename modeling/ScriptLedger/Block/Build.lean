import ScriptLedger.Block.Basic
import ScriptLedger.Block.Error
import ScriptLedger.World.Genesis

/-!
# Building a block

A skeleton is a function of its parent, its transactions, its miner, its
timestamp and the rules of the chain.  Transactions are applied in the order
of their digests, so it does not matter in which order they were submitted.
Each must be signed in the snapshot just before it is applied.

Building happens on a fork of the parent's snapshot.  A candidate that is
thrown away leaves nothing in the parent's store.
-/

namespace ScriptLedger

/-- What all blocks of a chain have in common. -/
structure Rules where
  difficulty : UInt64 := 1000
  limits : Limits := {}
deriving Repr, DecidableEq

namespace Skeleton

/-! ## Transactions -/

/-- Transactions with their digests, in the order of the digests. -/
def ordered (transactions : List Transaction) : List (Hash × Transaction) :=
  (transactions.map fun tx => (Record.hash tx, tx)).mergeSort fun p q => p.1.isLE q.1

/-- Applies a transaction with its digest to a snapshot and enters it into the
trie of transactions. -/
def addTransaction (limits : Limits) (miner : Hash) (state : World × Trie)
    (entry : Hash × Transaction) : Archived BlockError (World × Trie) := do
  let (world, txTrie) := state
  let (hash, tx) := entry
  let known ← ofExcept ((txTrie.contains hash).mapError .trie)
  if known then throw (.duplicateTransaction hash)
  let archive ← get
  if !tx.isSigned (world.pubkey? archive) then throw (.unsigned hash)
  let world ← (World.transit limits miner tx.data world).adaptExcept (.transition hash)
  let txTrie ← ofExcept ((txTrie.put hash hash).mapError .trie)
  pure (world, txTrie)

/-! ## Headers -/

/-- A sum of counters of a chain. -/
def counter (a b : UInt64) : Except BlockError UInt64 :=
  match Word.unsigned? (a.toNat + b.toNat) with
  | some sum => .ok sum
  | none => .error .overflow

/-- What a header says about the place of a block in its chain: the parent's
name, the height, and the sum of difficulties. -/
def position (difficulty : UInt64) (parent : Option Block) :
    Except BlockError (Hash × UInt64 × UInt64) :=
  match parent with
  | none => .ok (Blob.zero, 1, difficulty)
  | some parent => do
    let height ← counter parent.height 1
    let accumulatedDifficulty ← counter parent.accumulatedDifficulty difficulty
    pure (parent.hash, height, accumulatedDifficulty)

/-! ## The skeleton -/

/-- The snapshot that a block starts from: a fork of its parent's, or of the
first state. -/
def base (parent : Option Block) : Archived BlockError World :=
  match parent with
  | some parent => parent.skeleton.world.fork
  | none => do
    let world ← Genesis.world.adaptExcept .state
    world.fork

/-- The next block on a parent, or a first block, without its proof of work. -/
def build (rules : Rules) (parent : Option Block) (transactions : List Transaction)
    (minerAddress : Hash) (timestamp : UInt64) : Archived BlockError Skeleton := do
  let world ← base parent
  let entries := ordered transactions
  let (world, txTrie) ←
    entries.foldlM (addTransaction rules.limits minerAddress) (world, Trie.empty)
  let (prevBlockHash, height, accumulatedDifficulty) ←
    ofExcept (position rules.difficulty parent)
  let header : SkeletonHeader :=
    { prevBlockHash, timestamp, height, difficulty := rules.difficulty, accumulatedDifficulty
      minerAddress, stateRoot := world.rootHash, txRoot := txTrie.rootHash }
  pure { header, transactions := entries.map (·.2), world, txTrie }

end Skeleton

end ScriptLedger
