import ScriptLedger.Json.Fields

/-!
# Limits of a run

Scripts are not trusted, so every run is bounded in instructions, in nesting,
in the height of its stack and in the size of each value on it.
-/

namespace ScriptLedger

/-- The limits of one run and the runs nested in it. -/
structure Limits where
  /-- Instructions, those of nested runs included. -/
  maxSteps : Nat := 100000
  /-- Nesting of transfers that run a script. -/
  maxCallDepth : Nat := 32
  /-- Entries on a stack. -/
  maxStackSize : Nat := 1024
  /-- Values in one entry, with every list and every element counted. -/
  maxValueSize : Nat := 1024
deriving Repr, DecidableEq

namespace Limits

/-- The names of the members of limits, in the order of the fields. -/
def fieldNames : List String :=
  ["max_steps", "max_call_depth", "max_stack_size", "max_value_size"]

/-- The limits that a document writes; what it leaves out has its default. -/
def ofJson? (j : Json) : Option Limits := do
  let natural? (j : Json) : Option Nat := j.uint64?.map UInt64.toNat
  let default : Limits := {}
  match ← j.fields? fieldNames with
  | [steps, callDepth, stackSize, valueSize] =>
    let maxSteps ← Json.orElse? natural? default.maxSteps steps
    let maxCallDepth ← Json.orElse? natural? default.maxCallDepth callDepth
    let maxStackSize ← Json.orElse? natural? default.maxStackSize stackSize
    let maxValueSize ← Json.orElse? natural? default.maxValueSize valueSize
    pure { maxSteps, maxCallDepth, maxStackSize, maxValueSize }
  | _ => none

end Limits

end ScriptLedger
