import ScriptLedger.Peer.Basic

/-!
# Requests to a peer

A request names a method and brings params as a document; the answer is a
document.  Three methods are known: the latest block, a block by its name, and
adding a block.  A block is sent as its header and its transactions, which is
enough for another peer to build it again.
-/

namespace ScriptLedger

/-- Why a request is refused. -/
inductive RequestError
  /-- A member of the params is missing. -/
  | missingField (field : String)
  /-- A name of a block is no digest. -/
  | invalidHash (cause : BlobError)
  /-- A member of the params is not what it should be. -/
  | malformed
  /-- A transaction violates its rules. -/
  | invalid (cause : RecordError)
  /-- The chain refuses the block. -/
  | rejected (cause : BlockError)
  | unknownMethod (method : String)
deriving DecidableEq

/-- The wording of a refusal. -/
def RequestError.message : RequestError → String
  | .missingField field => "missing field: " ++ field
  | .invalidHash cause => "invalid hash: " ++ cause.message
  | .malformed => "malformed request"
  | .invalid cause => cause.message
  | .rejected cause => cause.message
  | .unknownMethod method => "unknown method: " ++ method

/-! ## Documents -/

/-- The document of a block: its header and its transactions. -/
def Block.body (b : Block) : Json :=
  .object [("block", b.header.toJson),
    ("transactions", .array (b.skeleton.transactions.map Transaction.toJson))]

/-- The document of a block that may be missing. -/
def Block.bodyOrNone : Option Block → Json
  | some b => b.body
  | none => .text "None"

namespace Peer

/-- A member of the params. -/
def param (params : Json) (name : String) : Except RequestError Json :=
  match params.get? name with
  | some value => .ok value
  | none => .error (.missingField name)

/-- What a member of the params writes. -/
def decode {α : Type} (value? : Option α) : Except RequestError α :=
  match value? with
  | some value => .ok value
  | none => .error .malformed

/-! ## Methods -/

/-- The canonical head. -/
def latestBlock (peer : Peer) : Json := Block.bodyOrNone peer.chain.canonicalHead

/-- The block with the name given. -/
def blockByHash (peer : Peer) (params : Json) : Except RequestError Json := do
  match (params.get? "hash").bind Json.text? with
  | none => throw (.missingField "hash")
  | some text =>
    match Blob.ofHex .hash text with
    | .error cause => throw (.invalidHash cause)
    | .ok hash => pure (Block.bodyOrNone (peer.chain.get? hash))

/-- The header and the transactions given, which follow their rules. -/
def readBody (params : Json) : Except RequestError (BlockHeader × List Transaction) := do
  let header ← decode (BlockHeader.ofJson? (← param params "block"))
  let transactions ← decode ((← param params "transactions").list? Transaction.ofJson?)
  match transactions.forM Transaction.validate with
  | .ok () => pure (header, transactions)
  | .error cause => throw (.invalid cause)

/-- Adds the block given. -/
def addBlock (peer : Peer) (params : Json) : Archived RequestError (Peer × Json) := do
  let (header, transactions) ← ofExcept (readBody params)
  let (chain, hash) ← (peer.chain.receive header transactions).adaptExcept .rejected
  let height := ((chain.get? hash).map Block.height).getD 0
  let isHead := chain.canonicalHead.map Block.hash = some hash
  pure ({ peer with chain },
    .object [("hash", .ofBlob hash), ("height", .ofUInt64 height), ("is_head", .bool isHead)])

/-- Answers a request. -/
def answer (peer : Peer) (method : String) (params : Json) :
    Archived RequestError (Peer × Json) :=
  match method with
  | "get_latest_block" => pure (peer, peer.latestBlock)
  | "get_block_by_hash" => do pure (peer, ← ofExcept (peer.blockByHash params))
  | "add_block" => peer.addBlock params
  | other => throw (.unknownMethod other)

end Peer

end ScriptLedger
