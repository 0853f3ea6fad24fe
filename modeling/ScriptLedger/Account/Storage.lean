import ScriptLedger.Json.Fields

/-!
# Storage slots

An account keeps values between runs of its script in named slots.  A slot
has a type for life: a whole number, a text, or a byte string of one kind.  In
a record it is written as name, type and value, and reading one fails unless
the value fits the type.
-/

namespace ScriptLedger

/-- The type of a slot. -/
inductive SlotType
  | int
  | str
  | bytes (kind : Kind)
deriving Repr, DecidableEq

/-- A value that a slot can hold. -/
inductive SlotValue
  | int (value : Int64)
  | str (value : String)
  | bytes (kind : Kind) (value : Blob kind)
deriving DecidableEq

/-- A named slot with its value. -/
structure Slot where
  name : String
  value : SlotValue
deriving DecidableEq

/-! ## Types -/

/-- The tag of a byte string, in records and in messages of a script. -/
def Kind.tag : Kind → String
  | .hash => "hash"
  | .signature => "signature"
  | .pubkey => "pubkey"
  | .keypair => "keypair"

/-- The tag of a type. -/
def SlotType.tag : SlotType → String
  | .int => "int"
  | .str => "str"
  | .bytes kind => kind.tag

/-- Every type of a slot. -/
def SlotType.all : List SlotType :=
  [.int, .str, .bytes .hash, .bytes .signature, .bytes .pubkey, .bytes .keypair]

/-- The type with a tag. -/
def SlotType.ofTag? (tag : String) : Option SlotType := all.find? fun t => t.tag == tag

/-- The type that a value has. -/
def SlotValue.type : SlotValue → SlotType
  | .int _ => .int
  | .str _ => .str
  | .bytes kind _ => .bytes kind

/-! ## Documents -/

/-- The value alone. -/
def SlotValue.toJson : SlotValue → Json
  | .int value => .ofInt64 value
  | .str value => .text value
  | .bytes _ value => .ofBlob value

/-- The value of a type that a document writes. -/
def SlotValue.ofJson? (type : SlotType) (j : Json) : Option SlotValue :=
  match type with
  | .int => j.int64?.map .int
  | .str => j.text?.map .str
  | .bytes kind => (j.blob? kind).map (.bytes kind)

/-- The names of the members of a slot, in the order of its fields. -/
def Slot.fieldNames : List String := ["s_name", "s_type", "s_value"]

/-- A slot with its name, its type and its value. -/
def Slot.toJson (slot : Slot) : Json :=
  .object [("s_name", .text slot.name), ("s_type", .text slot.value.type.tag),
    ("s_value", slot.value.toJson)]

/-- The slot that a document writes. -/
def Slot.ofJson? (j : Json) : Option Slot := do
  match ← j.required? fieldNames with
  | [name, type, value] =>
    let name ← name.text?
    let type ← SlotType.ofTag? (← type.case?)
    let value ← SlotValue.ofJson? type value
    pure ⟨name, value⟩
  | _ => none

end ScriptLedger
