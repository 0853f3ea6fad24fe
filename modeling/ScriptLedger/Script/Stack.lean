import ScriptLedger.Script.Error

/-!
# The stack

A bounded stack of values that can also be read and written by position from
the bottom.  Pushing checks both limits; overwriting an entry checks neither,
because what is written came off the stack.  A pop that meets a value of the
wrong type has taken it off all the same.
-/

namespace ScriptLedger

/-- A stack with its limits. -/
structure Stack where
  /-- The entries, bottom first. -/
  entries : Array Value
  /-- The most entries it may hold. -/
  limit : Nat
  /-- The greatest size of an entry. -/
  valueLimit : Nat
deriving DecidableEq

/-- A computation on a stack.  What it did before a failure stays done. -/
abbrev StackM := EStateM ScriptError Stack

namespace Value

/-! ## Operands -/

/-- The number of a whole number. -/
def int? : Value → Option Int64
  | .int value => some value
  | _ => none

/-- The text of a text. -/
def str? : Value → Option String
  | .str value => some value
  | _ => none

/-- The values of a list. -/
def list? : Value → Option (List Value)
  | .list items => some items
  | _ => none

/-- The bytes of a byte string of a kind. -/
def blob? (k : Kind) : Value → Option (Blob k)
  | .bytes kind value => if h : kind = k then some (h ▸ value) else none
  | _ => none

end Value

namespace Stack

/-! ## The top -/

/-- The empty stack with the given limits. -/
def empty (limit valueLimit : Nat) : Stack := ⟨#[], limit, valueLimit⟩

/-- The number of entries. -/
def size (s : Stack) : Nat := s.entries.size

/-- Puts a value on top. -/
def push (value : Value) : StackM Unit := do
  let s ← get
  if s.limit ≤ s.size then throw (.stackOverflow s.limit)
  if s.valueLimit < value.size then throw (.valueTooLarge value.size s.valueLimit)
  set { s with entries := s.entries.push value }

/-- Takes the top value off. -/
def pop : StackM Value := do
  let s ← get
  match s.entries.back? with
  | some value =>
    set { s with entries := s.entries.pop }
    pure value
  | none => throw .stackUnderflow

/-- The top value. -/
def peek : StackM Value := do
  match (← get).entries.back? with
  | some value => pure value
  | none => throw .stackUnderflow

/-! ## Operands -/

/-- Takes the top value off as an operand of a type. -/
def popAs {α : Type} (op : Opcode) (shape : Shape) (read? : Value → Option α) : StackM α := do
  let value ← pop
  match read? value with
  | some a => pure a
  | none => throw (.typeMismatch op (.aShape shape) value.shape)

/-- Takes off a whole number. -/
def popInt (op : Opcode) : StackM Int64 := popAs op .int Value.int?

/-- Takes off a text. -/
def popStr (op : Opcode) : StackM String := popAs op .str Value.str?

/-- Takes off a list. -/
def popList (op : Opcode) : StackM (List Value) := popAs op .list Value.list?

/-- Takes off a byte string of a kind. -/
def popBlob (op : Opcode) (k : Kind) : StackM (Blob k) := popAs op (.bytes k) (Value.blob? k)

/-- Takes off a whole number that counts something. -/
def popIndex (op : Opcode) : StackM Nat := do
  let value ← popInt op
  if value.toInt < 0 then throw (.invalidOperand op value)
  pure value.toInt.toNat

/-! ## Positions -/

/-- The position that an index names, counted from the bottom. -/
def slot (s : Stack) (index : Int64) : Except ScriptError Nat :=
  if 0 ≤ index.toInt ∧ index.toInt < s.size then .ok index.toInt.toNat
  else .error (.indexOutOfRange index s.size)

/-- The value at an index. -/
def getAt (index : Int64) : StackM Value := do
  let s ← get
  match s.slot index with
  | .ok i =>
    match s.entries[i]? with
    | some value => pure value
    | none => throw (.indexOutOfRange index s.size)
  | .error e => throw e

/-- Overwrites the value at an index. -/
def setAt (index : Int64) (value : Value) : StackM Unit := do
  let s ← get
  match s.slot index with
  | .ok i => set { s with entries := s.entries.setIfInBounds i value }
  | .error e => throw e

/-- Exchanges the top value with the one so many positions below it. -/
def swapDown (depth : Nat) : StackM Unit := do
  let s ← get
  if s.size ≤ depth then throw .stackUnderflow
  set { s with entries := s.entries.swapIfInBounds (s.size - 1) (s.size - 1 - depth) }

/-! ## Several entries -/

/-- Takes off the topmost values, in the order in which they lie, bottom
first. -/
def popMany (count : Nat) : StackM (List Value) := do
  let s ← get
  if s.size < count then throw .stackUnderflow
  let keep := s.size - count
  let values := (s.entries.drop keep).toList
  set { s with entries := s.entries.shrink keep }
  pure values

/-- An index as a word, the greatest one if it is too large. -/
def indexOfNat (n : Nat) : Int64 := (Word.signed? n).getD Int64.maxValue

/-- Cuts the stack down to a number of entries. -/
def truncate (length : Nat) : StackM Unit := do
  let s ← get
  if s.size < length then throw (.indexOutOfRange (indexOfNat length) s.size)
  set { s with entries := s.entries.shrink length }

end Stack

end ScriptLedger
