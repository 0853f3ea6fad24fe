import ScriptLedger.Machine.Run
import ScriptLedger.Transaction.Signed

/-!
# Applying a transaction

A transaction moves a snapshot to the next one.  Outputs come first, in their
order: the script of the account that is paid runs, if it has one, and then
the account is credited.  Inputs follow, and the null input debits nothing.
The miner gets the fee last.  The first failure rejects the whole transaction.

The script of an output therefore sees the balances before its own credit and
before every debit.  Whether the inputs are signed is not looked at here.
-/

namespace ScriptLedger

/-- Why a transaction cannot be applied. -/
inductive TransitionError
  /-- Nobody lives at an address that is paid, charged or mines. -/
  | missingAccount (address : Hash)
  /-- The script of an account that is paid failed. -/
  | script (address : Hash) (cause : ScriptError)
  /-- A balance would leave the range of balances. -/
  | balance (address : Hash) (cause : RecordError)
  /-- A value is no word of a script. -/
  | valueTooLarge (value : UInt64)
  /-- The snapshot cannot be read or written. -/
  | state (cause : StateError)
deriving DecidableEq

/-- The wording of a failure. -/
def TransitionError.message : TransitionError → String
  | .missingAccount address => "account " ++ address.toHex ++ " not in state"
  | .script address cause => "script of " ++ address.toHex ++ " failed: " ++ cause.message
  | .balance address cause =>
    "balance of " ++ address.toHex ++ " out of range: " ++ cause.message
  | .valueTooLarge value =>
    "value " ++ toString value.toNat ++ " too large for a balance delta"
  | .state cause => cause.message

namespace World

/-! ## One balance -/

/-- A value as a change of a balance. -/
def delta (value : UInt64) : Except TransitionError Int64 :=
  match Word.signed? value.toNat with
  | some delta => .ok delta
  | none => .error (.valueTooLarge value)

/-- The account at an address, which has to be there. -/
def load (w : World) (address : Hash) : Archived TransitionError Account := do
  match w.account? (← get) address with
  | .ok (some account) => pure account
  | .ok none => throw (.missingAccount address)
  | .error cause => throw (.state cause)

/-- The snapshot with an amount added to the balance at an address. -/
def credit (address : Hash) (amount : Int64) (w : World) : Archived TransitionError World := do
  let account ← w.load address
  match account.addToBalance amount with
  | .ok account => (w.put account).adaptExcept .state
  | .error cause => throw (.balance address cause)

/-! ## One transaction -/

/-- Runs the script of an account that is paid, if it has one. -/
def runScript (limits : Limits) (payers : List Hash) (output : Output) (amount : Int64)
    (target : Account) (w : World) : Archived TransitionError World :=
  if target.hasCode then do
    let call : Invocation :=
      { callee := target, payers, amount, params := .script output.params }
    let outcome ← (call.run limits w).adaptExcept (.script output.address)
    pure outcome.world
  else pure w

/-- The snapshot after an output. -/
def pay (limits : Limits) (payers : List Hash) (w : World) (output : Output) :
    Archived TransitionError World := do
  let target ← w.load output.address
  let amount ← ofExcept (delta output.value)
  let w ← runScript limits payers output amount target w
  credit output.address amount w

/-- The snapshot after an input. -/
def charge (w : World) (input : Input) : Archived TransitionError World := do
  let amount ← ofExcept (delta input.value)
  credit input.address (-amount) w

/-- The snapshot after a transaction whose fee goes to a miner. -/
def transit (limits : Limits) (miner : Hash) (data : TransactionData) (w : World) :
    Archived TransitionError World := do
  let inputs := data.inputs.filter fun input => !input.isNull
  let w ← data.outputs.foldlM (pay limits (inputs.map (·.address))) w
  let w ← inputs.foldlM charge w
  let fee ← ofExcept (delta data.fee)
  credit miner fee w

end World

end ScriptLedger
