import ScriptLedger.Script.Program
import ScriptLedger.World.Basic

/-!
# Why a script stops without a value

Every way for a script to fail.  A failure ends the run and everything it did
to accounts is dropped; only a transfer that runs the script of its target
catches one, and turns it into a zero.
-/

namespace ScriptLedger

/-- What an instruction expects of an operand. -/
inductive Expected
  /-- A value of a type. -/
  | aShape (shape : Shape)
  /-- A value that a slot can hold. -/
  | storable
deriving Repr, DecidableEq

/-- The name of an expectation. -/
def Expected.name : Expected → String
  | .aShape shape => shape.name
  | .storable => "storable value"

/-- A failure of a script. -/
inductive ScriptError
  /-- The text is no program. -/
  | parse (error : Script.ParseError)
  /-- Params may hold values only. -/
  | opcodeInParams (op : Opcode)
  | stackUnderflow
  | stackOverflow (max : Nat)
  /-- A value has more parts than an entry may have. -/
  | valueTooLarge (size max : Nat)
  /-- An operand has the wrong type. -/
  | typeMismatch (op : Opcode) (expected : Expected) (actual : Shape)
  /-- A position is not on the stack. -/
  | indexOutOfRange (index : Int64) (length : Nat)
  /-- The program counter left the program. -/
  | pcOutOfRange (pc : Int64) (length : Nat)
  /-- A result is no word, or a divisor is zero. -/
  | arithmetic (op : Opcode)
  /-- An operand is not among the values that the instruction takes. -/
  | invalidOperand (op : Opcode) (value : Int64)
  | stepLimitExceeded (max : Nat)
  | callDepthExceeded (depth max : Nat)
  | accountNotFound (address : Hash)
  | storageNotFound (name : String)
  /-- Names and values of storage come in different numbers. -/
  | storageArity (names values : Nat)
  /-- A record would violate its rules. -/
  | record (cause : RecordError)
  /-- The accounts cannot be read or written. -/
  | state (cause : StateError)
  | killed
deriving DecidableEq

/-- The wording of a failure. -/
def ScriptError.message : ScriptError → String
  | .parse error =>
    "parse error at " ++ toString error.place.line ++ ":" ++ toString error.place.column
      ++ ": " ++ error.cause.message
  | .opcodeInParams op => "opcode " ++ op.name ++ " not allowed in params"
  | .stackUnderflow => "stack underflow"
  | .stackOverflow max => "stack overflow: limit " ++ toString max
  | .valueTooLarge size max =>
    "value too large: " ++ toString size ++ " values, limit " ++ toString max
  | .typeMismatch op expected actual =>
    op.name ++ ": expected " ++ expected.name ++ ", got " ++ actual.name
  | .indexOutOfRange index length =>
    "stack index " ++ toString index.toInt ++ " out of range (size " ++ toString length ++ ")"
  | .pcOutOfRange pc length =>
    "pc " ++ toString pc.toInt ++ " outside program of " ++ toString length ++ " items"
  | .arithmetic op => op.name ++ ": arithmetic error"
  | .invalidOperand op value => op.name ++ ": invalid operand " ++ toString value.toInt
  | .stepLimitExceeded max => "step limit exceeded: " ++ toString max
  | .callDepthExceeded depth max =>
    "call depth exceeded: " ++ toString depth ++ " > " ++ toString max
  | .accountNotFound address => "account not found: " ++ address.toHex
  | .storageNotFound name => "storage slot not found: " ++ name
  | .storageArity names values =>
    "storage lists differ in length: " ++ toString names ++ " names, " ++ toString values
      ++ " values"
  | .record cause => "validation error: " ++ cause.message
  | .state cause => "state error: " ++ cause.message
  | .killed => "script killed"

namespace Script

/-- The value of an item of params. -/
def valueInParams : Item → Except ScriptError Value
  | .push value => .ok value
  | .op op => .error (.opcodeInParams op)

/-- The values that a text writes. -/
def parseValues (text : String) : Except ScriptError (List Value) :=
  match parseProgram text with
  | .ok items => items.mapM valueInParams
  | .error error => .error (.parse error)

end Script

end ScriptLedger
