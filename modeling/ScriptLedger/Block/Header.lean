import ScriptLedger.Record.Basic

/-!
# Block headers

The header of a skeleton commits to everything in a block but its proof of
work: the block before it, the state after it, and the transactions between.
The header of a block adds the nonce.  Neither has rules of its own; a block
is checked against its parent.
-/

namespace ScriptLedger

/-- What a block commits to, without its proof of work. -/
structure SkeletonHeader where
  /-- The digest of the parent block, zero for a first block. -/
  prevBlockHash : Hash
  /-- Seconds, as the miner chose them. -/
  timestamp : UInt64
  /-- One for a first block, else one more than the parent's. -/
  height : UInt64
  difficulty : UInt64
  /-- The sum of difficulties up to this block. -/
  accumulatedDifficulty : UInt64
  /-- The account that receives the fees. -/
  minerAddress : Hash
  /-- The root of the accounts after all transactions. -/
  stateRoot : Hash
  /-- The root of the transactions. -/
  txRoot : Hash
deriving DecidableEq

/-- A skeleton header with its proof of work. -/
structure BlockHeader where
  nonce : Hash
  skeleton : SkeletonHeader
deriving DecidableEq

namespace SkeletonHeader

/-- The names of the members of a skeleton header, in the order of its fields. -/
def fieldNames : List String :=
  ["prev_block_hash", "timestamp", "height", "difficulty", "accumulated_difficulty",
    "miner_address", "state_root", "tx_root"]

/-- The document of a skeleton header. -/
def toJson (header : SkeletonHeader) : Json :=
  .object [("accumulated_difficulty", .ofUInt64 header.accumulatedDifficulty),
    ("difficulty", .ofUInt64 header.difficulty), ("height", .ofUInt64 header.height),
    ("miner_address", .ofBlob header.minerAddress),
    ("prev_block_hash", .ofBlob header.prevBlockHash),
    ("state_root", .ofBlob header.stateRoot), ("timestamp", .ofUInt64 header.timestamp),
    ("tx_root", .ofBlob header.txRoot)]

/-- The skeleton header that a document writes. -/
def ofJson? (j : Json) : Option SkeletonHeader := do
  match ← j.required? fieldNames with
  | [prevBlockHash, timestamp, height, difficulty, accumulatedDifficulty, minerAddress,
      stateRoot, txRoot] =>
    let prevBlockHash ← prevBlockHash.blob? .hash
    let timestamp ← timestamp.uint64?
    let height ← height.uint64?
    let difficulty ← difficulty.uint64?
    let accumulatedDifficulty ← accumulatedDifficulty.uint64?
    let minerAddress ← minerAddress.blob? .hash
    let stateRoot ← stateRoot.blob? .hash
    let txRoot ← txRoot.blob? .hash
    pure { prevBlockHash, timestamp, height, difficulty, accumulatedDifficulty, minerAddress
           stateRoot, txRoot }
  | _ => none

instance : Record SkeletonHeader where
  toJson := toJson
  ofJson? := ofJson?
  validate _ := .ok ()

end SkeletonHeader

namespace BlockHeader

/-- The document of a block header. -/
def toJson (header : BlockHeader) : Json :=
  .object [("nonce", .ofBlob header.nonce), ("skeleton", header.skeleton.toJson)]

/-- The block header that a document writes. -/
def ofJson? (j : Json) : Option BlockHeader := do
  match ← j.required? ["nonce", "skeleton"] with
  | [nonce, skeleton] =>
    pure { nonce := ← nonce.blob? .hash, skeleton := ← SkeletonHeader.ofJson? skeleton }
  | _ => none

instance : Record BlockHeader where
  toJson := toJson
  ofJson? := ofJson?
  validate _ := .ok ()

end BlockHeader

end ScriptLedger
