import ScriptLedger.Machine.Registers
import ScriptLedger.Script.Limits

/-!
# The script machine

A run executes the script of one account, the callee, on a snapshot of all
accounts.  Its terms are fixed when it starts; the machine is what its steps
change.  Besides the registers that is the snapshot, the callee as last
written to it, the stores behind it, and the count of instructions so far.

Before the first instruction the stack holds, bottom to top:

    address of the callee
    list of the addresses that pay
    amount
    params …
    -1        the saved frame pointer, where the frame pointer points
    -1        the place to return to

so the params lie right below the frame pointer, the last one nearest, and
the place to return to is none: returning from the outermost frame ends the
run.
-/

namespace ScriptLedger

/-- What is fixed for a run. -/
structure Terms where
  program : Array Script.Item
  limits : Limits
  /-- How many runs this one is nested in. -/
  depth : Nat
  /-- How many instructions it may execute, those of nested runs included. -/
  budget : Nat

/-- What the steps of a run change. -/
structure Machine where
  registers : Registers
  /-- How many instructions it has executed, those of nested runs included. -/
  steps : Nat
  world : World
  /-- The callee, as last written to the snapshot. -/
  account : Account
  archive : Archive

/-- A computation of a run.  What it did before a failure stays done. -/
abbrev Exec := EStateM ScriptError Machine

/-! ## Entry -/

/-- What a run is given besides addresses and amount. -/
inductive Params
  | values (items : List Value)
  /-- Program text that writes values only. -/
  | script (text : String)

/-- The values of params. -/
def Params.read : Params → Except ScriptError (List Value)
  | .values items => .ok items
  | .script text => Script.parseValues text

/-- Who is called, by whom, and with what. -/
structure Invocation where
  callee : Account
  payers : List Hash
  amount : Int64
  params : Params

/-- The entries of the stack before the first instruction, bottom first. -/
def Invocation.entries (call : Invocation) (params : List Value) : List Value :=
  [.bytes .hash call.callee.address, .list (call.payers.map (.bytes .hash)), .int call.amount]
    ++ params ++ [.int (-1), .int (-1)]

namespace Machine

/-- The registers before the first instruction. -/
def entryRegisters (limits : Limits) (entries : List Value) : Except ScriptError Registers :=
  match entries.forM Stack.push (Stack.empty limits.maxStackSize limits.maxValueSize) with
  | .ok () stack => .ok { stack, pc := 1, fp := Int64.ofInt stack.size - 2 }
  | .error e _ => .error e

/-- The start of a run on a snapshot, at a depth of nesting and with a budget.
The depth is checked first, then the script and the params are read. -/
def enter (limits : Limits) (depth budget : Nat) (call : Invocation) (world : World)
    (archive : Archive) : Except ScriptError (Terms × Machine) := do
  if limits.maxCallDepth < depth then throw (.callDepthExceeded depth limits.maxCallDepth)
  let items ←
    match Script.parseProgram call.callee.code with
    | .ok items => .ok items
    | .error error => .error (.parse error)
  let params ← call.params.read
  let registers ← entryRegisters limits (call.entries params)
  pure ({ program := items.toArray, limits, depth, budget },
    { registers, steps := 0, world, account := call.callee, archive })

end Machine

namespace Exec

/-! ## Parts of the machine -/

/-- A computation on the registers alone. -/
def onRegisters {α : Type} (x : RegisterM α) : Exec α :=
  fun ⟨registers, steps, world, account, archive⟩ =>
    match x registers with
    | .ok a registers => .ok a ⟨registers, steps, world, account, archive⟩
    | .error e registers => .error e ⟨registers, steps, world, account, archive⟩

/-- A computation on the stack alone. -/
def onStack {α : Type} (x : StackM α) : Exec α := onRegisters (Registers.onStack x)

/-- A computation on the stores alone. -/
def onArchive {α : Type} (x : Archived StateError α) : Exec α := fun m =>
  match x m.archive with
  | .ok a archive => .ok a { m with archive }
  | .error cause archive => .error (.state cause) { m with archive }

/-- A result read from a snapshot. -/
def ofState {α : Type} : Except StateError α → Exec α
  | .ok a => pure a
  | .error cause => throw (.state cause)

/-- The account at an address of a snapshot. -/
def account? (world : World) (address : Hash) : Exec (Option Account) := do
  ofState (world.account? (← get).archive address)

/-- The account at an address of a snapshot, which has to be there. -/
def account (world : World) (address : Hash) : Exec Account := do
  match ← account? world address with
  | some account => pure account
  | none => throw (.accountNotFound address)

/-- Goes on with the next item. -/
def next : Exec Flow := do pure (.goto ((← get).registers.pc + 1))

end Exec

end ScriptLedger
