import ScriptLedger.Key.Signing
import ScriptLedger.Transaction.Basic

/-!
# Signed transactions

A transaction is a body with one signature for each input.  Signatures cover
the digest of the body, and the digest of the transaction covers the
signatures, so signing again makes another transaction.  Inputs name accounts
by address; the key to check a signature with comes from outside.
-/

namespace ScriptLedger

/-- A transaction body with one signature for each input. -/
structure Transaction where
  signatures : List Signature
  data : TransactionData
deriving DecidableEq

namespace Transaction

/-! ## Making transactions -/

/-- The transaction that nobody has signed. -/
def unsigned (data : TransactionData) : Transaction :=
  { signatures := List.replicate data.inputs.length Blob.zero, data }

/-- The body follows its rules and each input has a signature. -/
def validate (tx : Transaction) : Except RecordError Unit := do
  tx.data.validate
  if tx.signatures.length ≠ tx.data.inputs.length then
    throw (.signatureCountMismatch tx.data.inputs.length tx.signatures.length)

/-- A body with the given signatures, if the two fit together. -/
def withSignatures (data : TransactionData) (signatures : List Signature) :
    Except RecordError Transaction :=
  let tx : Transaction := { signatures, data }
  tx.validate.map fun _ => tx

/-- What every signature covers. -/
def dataHash (tx : Transaction) : Hash := Record.hash tx.data

/-- The transaction with an input signed by the keypair that owns it. -/
def sign (tx : Transaction) (index : Nat) (pair : Keypair) : Except RecordError Transaction :=
  match tx.data.inputs[index]? with
  | none => .error (.inputIndexOutOfRange index tx.data.inputs.length)
  | some input =>
    let signer := pair.derivedPubkey.address
    if signer ≠ input.address then .error (.signerMismatch index signer input.address)
    else .ok { tx with signatures := tx.signatures.set index (pair.sign tx.dataHash) }

/-! ## Checking signatures -/

/-- Whether an input is signed by the key found for its address.  The null
input counts as signed. -/
def inputSigned (tx : Transaction) (keyOf : Hash → Option Pubkey) (index : Nat) : Bool :=
  match tx.data.inputs[index]?, tx.signatures[index]? with
  | some input, some signature =>
    input.isNull ||
      match keyOf input.address with
      | some key => key.address == input.address && key.verify tx.dataHash signature
      | none => false
  | _, _ => false

/-- Whether every input is signed. -/
def isSigned (tx : Transaction) (keyOf : Hash → Option Pubkey) : Bool :=
  (List.range tx.data.inputs.length).all (tx.inputSigned keyOf)

/-! ## Documents -/

/-- The document of a transaction. -/
def toJson (tx : Transaction) : Json :=
  .object [("signatures", .array (tx.signatures.map .ofBlob)), ("tx_data", tx.data.toJson)]

/-- The transaction that a document writes, with no rule checked. -/
def ofJson? (j : Json) : Option Transaction := do
  match ← j.required? ["signatures", "tx_data"] with
  | [signatures, data] =>
    let signatures ← signatures.list? (Json.blob? .signature)
    let data ← TransactionData.ofJson? data
    pure { signatures, data }
  | _ => none

instance : Record Transaction where
  toJson := toJson
  ofJson? := ofJson?
  validate := validate

end Transaction

end ScriptLedger
