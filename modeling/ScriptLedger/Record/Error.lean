import ScriptLedger.Account.Storage

/-!
# Why a record is refused

Accounts and transactions are checked when they are made and again when they
are read.  Each way to violate their rules is one case here.
-/

namespace ScriptLedger

/-- The two sides of a transaction. -/
inductive Side
  | inputs
  | outputs
deriving Repr, DecidableEq

/-- The name of a side. -/
def Side.name : Side → String
  | .inputs => "inputs"
  | .outputs => "outputs"

/-- A rule of accounts or transactions that is violated. -/
inductive RecordError
  /-- A field holds bytes that its kind does not accept. -/
  | invalidField (field : String) (cause : BlobError)
  /-- A balance would leave the range of balances. -/
  | balanceOutOfRange (balance : UInt64) (delta : Int64)
  /-- A slot was given a value of another type. -/
  | storageTypeMismatch (name : String) (expected actual : SlotType)
  /-- Two slots of an account have one name. -/
  | duplicateStorageName (name : String)
  /-- An account has no slot of a name. -/
  | unknownStorageSlot (name : String)
  /-- The inputs are not worth the outputs and the fee. -/
  | feeMismatch (inputs outputs fee : UInt64)
  /-- The values of a side have no sum among the words. -/
  | valueOverflow (side : Side)
  /-- A transaction pays nobody. -/
  | noOutputs
  /-- The zero address was used for a value. -/
  | invalidNullInput (index : Nat) (value : UInt64)
  /-- There is not one signature for each input. -/
  | signatureCountMismatch (inputs signatures : Nat)
  /-- There is no input to sign at an index. -/
  | inputIndexOutOfRange (index length : Nat)
  /-- A keypair does not own the input it was to sign. -/
  | signerMismatch (index : Nat) (signer expected : Hash)
  /-- A text is not the record it should be. -/
  | malformed
deriving DecidableEq

/-- The wording of a violation. -/
def RecordError.message : RecordError → String
  | .invalidField field cause => "Invalid field `" ++ field ++ "`: " ++ cause.message
  | .balanceOutOfRange balance delta =>
    "Balance out of range: balance " ++ toString balance.toNat
      ++ ", delta " ++ toString delta.toInt
  | .storageTypeMismatch name expected actual =>
    "Storage item `" ++ name ++ "` expects " ++ expected.tag ++ ", got " ++ actual.tag
  | .duplicateStorageName name => "Duplicate storage name: " ++ name
  | .unknownStorageSlot name => "Unknown storage slot: " ++ name
  | .feeMismatch inputs outputs fee =>
    "Fee mismatch: inputs " ++ toString inputs.toNat ++ " - outputs "
      ++ toString outputs.toNat ++ " != fee " ++ toString fee.toNat
  | .valueOverflow side => "Value overflow while summing " ++ side.name
  | .noOutputs => "Transaction must have at least one output"
  | .invalidNullInput index value =>
    "Input " ++ toString index ++ ": zero address requires zero value, got "
      ++ toString value.toNat
  | .signatureCountMismatch inputs signatures =>
    "Signature count mismatch: " ++ toString signatures ++ " signatures for "
      ++ toString inputs ++ " inputs"
  | .inputIndexOutOfRange index length =>
    "Input index " ++ toString index ++ " out of range (" ++ toString length ++ " inputs)"
  | .signerMismatch index signer expected =>
    "Signer mismatch for input " ++ toString index ++ ": keypair address "
      ++ signer.toHex ++ ", input address " ++ expected.toHex
  | .malformed => "Serialization error"

end ScriptLedger
