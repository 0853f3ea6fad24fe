import ScriptLedger.Machine.Basic

/-!
# Instructions on accounts

The instructions that read or write accounts.  A script reads any balance and
any code, writes its own storage, creates accounts without balance, and moves
its own balance to others.

A transfer is all or nothing.  The amount is taken from the callee and given
to the target, and then the script of the target runs, if it has one.  If the
target is missing, a balance would leave its range, or the script of the
target fails in any way, the snapshot is what it was and the transfer reports
zero.  Stores keep the records of a failed attempt, which no snapshot names.
-/

namespace ScriptLedger

/-! ## Values and slots -/

/-- What a slot would hold for an operand. -/
def Value.toSlot (op : Opcode) (value : Value) : Except ScriptError SlotValue :=
  match value.toSlot? with
  | some value => .ok value
  | none => .error (.typeMismatch op .storable value.shape)

/-- The slot that two operands give, its name and its value. -/
def Slot.ofValues (op : Opcode) (name value : Value) : Except ScriptError Slot :=
  match name with
  | .str name => (value.toSlot op).map fun value => ⟨name, value⟩
  | other => .error (.typeMismatch op (.aShape .str) other.shape)

namespace Exec

/-! ## Balances and storage -/

/-- A balance as a word of a script. -/
def balanceWord (op : Opcode) (balance : UInt64) : Exec Int64 :=
  match Word.signed? balance.toNat with
  | some value => pure value
  | none => throw (.arithmetic op)

/-- Writes the callee to the snapshot. -/
def writeAccount (account : Account) : Exec Unit := do
  modify fun m => { m with account }
  let world ← onArchive ((← get).world.put account)
  modify fun m => { m with world }

/-- Puts a value into a slot of the callee. -/
def setStorage (name : String) (value : SlotValue) : Exec Unit := do
  match (← get).account.setStorage name value with
  | .ok account => writeAccount account
  | .error cause => throw (.record cause)

/-! ## Creation -/

/-- Creates an account without balance.  The result is false if its address
has one already. -/
def create (op : Opcode) (key : Pubkey) (code : String) (ownerAccess : Bool)
    (names values : List Value) : Exec Bool := do
  if names.length ≠ values.length then throw (.storageArity names.length values.length)
  let world := (← get).world
  if ← ofState (world.contains key.address) then pure false
  else
    let slots ← ofExcept ((names.zip values).mapM fun (name, value) => Slot.ofValues op name value)
    match Account.make key 0 code ownerAccess slots with
    | .error cause => throw (.record cause)
    | .ok account =>
      let world ← onArchive (world.put account)
      modify fun m => { m with world }
      pure true

/-! ## Transfer -/

/-- Runs the script of an account that was paid on the snapshot that shows the
payment, with the rest of the budget.  The result is false, and the snapshot
stays what it was, if the script fails. -/
def runPaid (nested : Terms → Exec Value) (terms : Terms) (call : Invocation)
    (world : World) : Exec Bool := fun m =>
  match Machine.enter terms.limits (terms.depth + 1) (terms.budget - m.steps) call world
      m.archive with
  | .error _ => .ok false m
  | .ok (inner, start) =>
    match nested inner start with
    | .ok _ final =>
      .ok true { m with
        steps := m.steps + final.steps, world := final.world, archive := final.archive }
    | .error _ final =>
      .ok false { m with steps := m.steps + final.steps, archive := final.archive }

/-- Takes the snapshot that shows a payment, and runs the script of the account
that was paid, if it has one. -/
def deliver (nested : Terms → Exec Value) (terms : Terms) (call : Invocation) (world : World) :
    Exec Bool :=
  if call.callee.hasCode then runPaid nested terms call world
  else do
    modify fun m => { m with world }
    pure true

/-- Reads the callee back from the snapshot. -/
def reload (payer : Hash) : Exec Unit := do
  let account ← account (← get).world payer
  modify fun m => { m with account }

/-- Moves an amount from the callee to a target and runs the script of the
target.  The result is false if nothing was moved. -/
def transfer (nested : Terms → Exec Value) (terms : Terms) (target : Hash)
    (amount : Int64) (params : List Value) : Exec Bool := do
  let m ← get
  if !(← ofState (m.world.contains target)) then pure false
  else
    match m.account.addToBalance (-amount) with
    | .error _ => pure false
    | .ok debited =>
      let world ← onArchive (m.world.put debited)
      let recipient ← account world target
      match recipient.addToBalance amount with
      | .error _ => pure false
      | .ok credited =>
        let world ← onArchive (world.put credited)
        let payer := m.account.address
        let moved ← deliver nested terms
          { callee := credited, payers := [payer], amount, params := .values params } world
        reload payer
        pure moved

end Exec

open Exec

/-! ## The instructions -/

/-- Runs an instruction on accounts; `nested` runs the scripts of others. -/
def AccountOp.run (nested : Terms → Exec Value) (terms : Terms) (op : AccountOp) :
    Exec Unit :=
  let name := Opcode.account op
  match op with
  | .getBal => do
    let target ← onStack (Stack.popBlob name .hash)
    match ← account? (← get).world target with
    | some account => do
      let balance ← balanceWord name account.balance
      onStack (Stack.push (.int balance))
    | none => onStack (Stack.push (.int (-1)))
  | .getOwnBal => do
    let balance ← balanceWord name (← get).account.balance
    onStack (Stack.push (.int balance))
  | .getStor => do
    let slot ← onStack (Stack.popStr name)
    match (← get).account.slot? slot with
    | some value => onStack (Stack.push (.ofSlot value))
    | none => throw (.storageNotFound slot)
  | .setStor => do
    let value ← onStack Stack.pop
    let value ← ofExcept (value.toSlot name)
    let slot ← onStack (Stack.popStr name)
    Exec.setStorage slot value
  | .getCode => do
    let target ← onStack (Stack.popBlob name .hash)
    let account ← account (← get).world target
    onStack (Stack.push (.str account.code))
  | .createContr => do
    let key ← onStack (Stack.popBlob name .pubkey)
    let code ← onStack (Stack.popStr name)
    let owner ← onStack (Stack.popInt name)
    let names ← onStack (Stack.popList name)
    let values ← onStack (Stack.popList name)
    let created ← Exec.create name key code (owner != 0) names values
    onStack (Stack.push (.ofBool created))
  | .transfer => do
    let amount ← onStack (Stack.popInt name)
    let target ← onStack (Stack.popBlob name .hash)
    let params ← onStack (Stack.popList name)
    if amount.toInt < 0 then throw (.invalidOperand name amount)
    let moved ← Exec.transfer nested terms target amount params
    onStack (Stack.push (.ofBool moved))

end ScriptLedger
