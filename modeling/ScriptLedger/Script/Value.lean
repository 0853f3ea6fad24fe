import ScriptLedger.Account.Storage
import ScriptLedger.Digest.Basic
import ScriptLedger.Json.Printer

/-!
# Values of a script

The stack of a script holds whole numbers, texts, byte strings of the four
kinds, and lists of values.  A value is shown as it would stand in program
text, except that a keypair never shows its bytes.
-/

namespace ScriptLedger

/-- A value on the stack. -/
inductive Value
  | int (value : Int64)
  | str (value : String)
  | list (items : List Value)
  | bytes (kind : Kind) (value : Blob kind)

/-- The type of a value. -/
inductive Shape
  | int
  | str
  | list
  | bytes (kind : Kind)
deriving Repr, DecidableEq

/-- The name of a type, in messages. -/
def Shape.name : Shape → String
  | .int => "int"
  | .str => "str"
  | .list => "list"
  | .bytes kind => kind.tag

/-- The letter that byte strings of a kind begin with in program text. -/
def Kind.mark : Kind → Char
  | .hash => 'h'
  | .pubkey => 'k'
  | .signature => 's'
  | .keypair => 'p'

/-- The kind of byte strings that begin with a letter. -/
def Kind.ofMark? : Char → Option Kind
  | 'h' => some .hash
  | 'k' => some .pubkey
  | 's' => some .signature
  | 'p' => some .keypair
  | _ => none

namespace Value

/-! ## Equality -/

mutual

/-- Whether two values are the same. -/
def same : Value → Value → Bool
  | .int v, .int w => v == w
  | .str s, .str t => s == t
  | .list l, .list m => sameItems l m
  | .bytes k v, .bytes k' w => if h : k = k' then h ▸ v == w else false
  | _, _ => false

/-- Whether two lists hold the same values. -/
def sameItems : List Value → List Value → Bool
  | [], [] => true
  | v :: l, w :: m => v.same w && sameItems l m
  | _, _ => false

end

mutual

theorem same_iff : (v w : Value) → (v.same w ↔ v = w)
  | .int _, w => by cases w <;> simp [same]
  | .str _, w => by cases w <;> simp [same]
  | .list l, w => by
    cases w with
    | list m => simpa [same] using sameItems_iff l m
    | _ => simp [same]
  | .bytes k _, w => by
    cases w with
    | bytes k' _ =>
      by_cases h : k = k'
      · subst h; simp [same]
      · simp [same, h]
    | _ => simp [same]

theorem sameItems_iff : (l m : List Value) → (sameItems l m ↔ l = m)
  | [], m => by cases m <;> simp [sameItems]
  | v :: l, m => by
    cases m with
    | nil => simp [sameItems]
    | cons w m => simp [sameItems, same_iff v w, sameItems_iff l m]

end

instance : DecidableEq Value := fun v w => decidable_of_iff (v.same w) (same_iff v w)

/-! ## Type and size -/

/-- The type of a value. -/
def shape : Value → Shape
  | .int _ => .int
  | .str _ => .str
  | .list _ => .list
  | .bytes kind _ => .bytes kind

mutual

/-- How many values there are in a value, itself included. -/
def size : Value → Nat
  | .list items => 1 + sizeItems items
  | _ => 1

/-- How many values there are in a list. -/
def sizeItems : List Value → Nat
  | [] => 0
  | item :: rest => item.size + sizeItems rest

end

/-- A truth value as a number. -/
def ofBool (b : Bool) : Value := .int (if b then 1 else 0)

/-! ## Storage -/

/-- What a slot holds, as a value. -/
def ofSlot : SlotValue → Value
  | .int value => .int value
  | .str value => .str value
  | .bytes kind value => .bytes kind value

/-- What a slot would hold for a value; lists cannot be stored. -/
def toSlot? : Value → Option SlotValue
  | .int value => some (.int value)
  | .str value => some (.str value)
  | .bytes kind value => some (.bytes kind value)
  | .list _ => none

/-! ## Documents and digests -/

mutual

/-- The document of a value. -/
def toJson : Value → Json
  | .int value => .ofInt64 value
  | .str value => .text value
  | .list items => .array (toJsonItems items)
  | .bytes _ value => .ofBlob value

/-- The documents of the values of a list. -/
def toJsonItems : List Value → List Json
  | [] => []
  | item :: rest => item.toJson :: toJsonItems rest

end

/-- The bytes that stand for a value when it is hashed: the decimal text of a
number, the UTF-8 of a text, the bytes of a byte string, and the document of a
list. -/
def preimage : Value → List UInt8
  | .int value => Bytes.utf8 (String.ofList (Json.renderInt value.toInt))
  | .str value => Bytes.utf8 value
  | .bytes _ value => value.toList
  | .list items => Bytes.utf8 (Value.list items).toJson.print

/-! ## Program text -/

/-- A character of a text in program text. -/
def escape (c : Char) : List Char := if c = '\\' ∨ c = '"' then ['\\', c] else [c]

mutual

/-- A value as it stands in program text; the bytes of a keypair are hidden. -/
def render : Value → List Char
  | .int value => Json.renderInt value.toInt
  | .str value => '"' :: (value.toList.flatMap escape ++ ['"'])
  | .list [] => ['[', ']']
  | .list (item :: rest) => '[' :: (item.render ++ (renderItems rest ++ [']']))
  | .bytes .keypair _ => "p0x<redacted>".toList
  | .bytes kind value => kind.mark :: '0' :: 'x' :: Bytes.Hex.encode value.toList

/-- The values of a list after the first, each behind a space. -/
def renderItems : List Value → List Char
  | [] => []
  | item :: rest => ' ' :: (item.render ++ renderItems rest)

end

/-- The program text of a value. -/
def display (v : Value) : String := String.ofList v.render

end Value

end ScriptLedger
