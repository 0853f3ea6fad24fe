import ScriptLedger.Record.Basic

/-!
# Transaction bodies

A transaction body moves value from the accounts of its inputs to those of its
outputs, and what is left over is the fee:

    sum of the inputs = sum of the outputs + fee

Each output carries params, a piece of program text that is put before the
script of the account it pays.  One input is special: the null input, with the
zero address and no value, debits nothing.
-/

namespace ScriptLedger

/-- A debit of an account. -/
structure Input where
  address : Hash
  value : UInt64
deriving DecidableEq

/-- A credit of an account, with params for its script. -/
structure Output where
  address : Hash
  params : String
  value : UInt64
deriving DecidableEq

/-- What the signatures of a transaction cover. -/
structure TransactionData where
  fee : UInt64
  inputs : List Input
  nonce : Hash
  outputs : List Output
deriving DecidableEq

/-- The input that debits nothing and needs no signature. -/
def Input.null : Input := ⟨Blob.zero, 0⟩

/-- Whether an input is the null input. -/
def Input.isNull (input : Input) : Bool := input.address.isZero && input.value == 0

namespace TransactionData

/-! ## Rules -/

/-- The sum of values, if a word holds it. -/
def checkedSum (side : Side) (values : List UInt64) : Except RecordError UInt64 :=
  values.foldlM (fun sum value =>
    match Word.unsigned? (sum.toNat + value.toNat) with
    | some sum => .ok sum
    | none => .error (.valueOverflow side)) 0

/-- Refuses the zero address with a value, the first of them by index. -/
def checkNullInputs (index : Nat) : List Input → Except RecordError Unit
  | [] => .ok ()
  | input :: rest =>
    if input.address.isZero ∧ input.value ≠ 0 then .error (.invalidNullInput index input.value)
    else checkNullInputs (index + 1) rest

/-- A body has an output, uses the zero address for no value, and its inputs
are worth its outputs and its fee. -/
def validate (data : TransactionData) : Except RecordError Unit := do
  if data.outputs.isEmpty then throw .noOutputs
  checkNullInputs 0 data.inputs
  let inputs ← checkedSum .inputs (data.inputs.map (·.value))
  let outputs ← checkedSum .outputs (data.outputs.map (·.value))
  if inputs.toNat ≠ outputs.toNat + data.fee.toNat then
    throw (.feeMismatch inputs outputs data.fee)

/-- The body with the given fields, if it follows the rules. -/
def make (inputs : List Input) (outputs : List Output) (fee : UInt64) (nonce : Hash) :
    Except RecordError TransactionData :=
  let data : TransactionData := { fee, inputs, nonce, outputs }
  data.validate.map fun _ => data

end TransactionData

/-! ## Documents -/

/-- The document of an input. -/
def Input.toJson (input : Input) : Json :=
  .object [("address", .ofBlob input.address), ("value", .ofUInt64 input.value)]

/-- The input that a document writes. -/
def Input.ofJson? (j : Json) : Option Input := do
  match ← j.required? ["address", "value"] with
  | [address, value] => pure ⟨← address.blob? .hash, ← value.uint64?⟩
  | _ => none

/-- The document of an output. -/
def Output.toJson (output : Output) : Json :=
  .object [("address", .ofBlob output.address), ("params", .text output.params),
    ("value", .ofUInt64 output.value)]

/-- The output that a document writes. -/
def Output.ofJson? (j : Json) : Option Output := do
  match ← j.required? ["address", "params", "value"] with
  | [address, params, value] =>
    pure ⟨← address.blob? .hash, ← params.text?, ← value.uint64?⟩
  | _ => none

namespace TransactionData

/-- The names of the members of a body, in the order of its fields. -/
def fieldNames : List String := ["fee", "inputs", "nonce", "outputs"]

/-- The document of a body. -/
def toJson (data : TransactionData) : Json :=
  .object [("fee", .ofUInt64 data.fee), ("inputs", .array (data.inputs.map Input.toJson)),
    ("nonce", .ofBlob data.nonce), ("outputs", .array (data.outputs.map Output.toJson))]

/-- The body that a document writes, with no rule checked. -/
def ofJson? (j : Json) : Option TransactionData := do
  match ← j.required? fieldNames with
  | [fee, inputs, nonce, outputs] =>
    let fee ← fee.uint64?
    let inputs ← inputs.list? Input.ofJson?
    let nonce ← nonce.blob? .hash
    let outputs ← outputs.list? Output.ofJson?
    pure { fee, inputs, nonce, outputs }
  | _ => none

instance : Record TransactionData where
  toJson := toJson
  ofJson? := ofJson?
  validate := validate

end TransactionData

end ScriptLedger
