import ScriptLedger.Machine.Accounts

/-!
# Running a script

A step executes one item of the program; a run is steps until one of them
returns from the outermost frame.  A run has a budget of instructions, which
the runs nested in it draw on too, so the part of the budget that is left
bounds both the steps to come and the nesting, and `drive` recurses on it.
-/

namespace ScriptLedger

/-- The item at a position, the first one at one. -/
def Terms.item? (terms : Terms) (pc : Int64) : Option Script.Item :=
  if 1 ≤ pc.toInt then terms.program[pc.toInt.toNat - 1]? else none

open Exec

/-! ## One step -/

/-- Runs an instruction. -/
def Opcode.run (nested : Terms → Exec Value) (terms : Terms) : Opcode → Exec Flow
  | .crypto op => do onStack op.run; next
  | .stack op => do onRegisters op.run; next
  | .frame op => do onRegisters op.run; next
  | .control op => onRegisters op.run
  | .arith op => do onStack op.run; next
  | .list op => do onStack op.run; next
  | .account op => do op.run nested terms; next
  | .kill => throw .killed

/-- Runs an item. -/
def Script.Item.run (nested : Terms → Exec Value) (terms : Terms) :
    Script.Item → Exec Flow
  | .push value => do onStack (Stack.push value); next
  | .op instruction => instruction.run nested terms

namespace Machine

/-- Runs the item at the program counter, and counts it.  There is a result if
it ended the run; `nested` runs the scripts of others. -/
def stepWith (nested : Terms → Exec Value) (terms : Terms) : Exec (Option Value) := do
  if terms.budget ≤ (← get).steps then throw (.stepLimitExceeded terms.limits.maxSteps)
  modify fun m => { m with steps := m.steps + 1 }
  let pc := (← get).registers.pc
  match terms.item? pc with
  | none => throw (.pcOutOfRange pc terms.program.size)
  | some item =>
    match ← item.run nested terms with
    | .halt value => pure (some value)
    | .goto pc => do
      onRegisters (modify fun r => { r with pc })
      pure none

/-! ## Many steps -/

/-- Runs until a step ends the run, for a number of steps that is at least what
is left of the budget. -/
def drive : (left : Nat) → Terms → Exec Value
  | 0, terms, m => .error (.stepLimitExceeded terms.limits.maxSteps) m
  | left + 1, terms, m =>
    match stepWith (drive left) terms m with
    | .ok (some value) m => .ok value m
    | .ok none m => drive left terms m
    | .error e m => .error e m

/-- One step of a run. -/
def step (terms : Terms) : Exec (Option Value) := fun m =>
  stepWith (drive (terms.budget - m.steps - 1)) terms m

/-- The rest of a run. -/
def finish (terms : Terms) : Exec Value := fun m =>
  drive (terms.budget - m.steps) terms m

end Machine

/-! ## A whole run -/

/-- What is left of a run that returned. -/
structure Outcome where
  value : Value
  world : World
  /-- How many instructions were executed, those of nested runs included. -/
  steps : Nat

/-- Runs the script of a callee on a snapshot. -/
def Invocation.run (call : Invocation) (limits : Limits) (world : World) :
    Archived ScriptError Outcome := fun archive =>
  match Machine.enter limits 0 limits.maxSteps call world archive with
  | .error e => .error e archive
  | .ok (terms, start) =>
    match Machine.finish terms start with
    | .ok value final => .ok { value, world := final.world, steps := final.steps } final.archive
    | .error e final => .error e final.archive

end ScriptLedger
