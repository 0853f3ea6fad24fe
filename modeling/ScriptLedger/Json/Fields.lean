import ScriptLedger.Json.Reader
import ScriptLedger.Bytes.Blob
import ScriptLedger.Word

/-!
# Reading typed values out of a document

A record with named fields is an object, or an array of its fields in the
order in which they are declared.  An object may hold members that are no
field, and they are skipped unread; it may not hold a field twice.  Numbers
are range-checked and byte strings are hexadecimal text.
-/

namespace ScriptLedger.Json

/-! ## Scalars -/

/-- A number that fits an unsigned word. -/
def uint64? : Json → Option UInt64
  | .int i => Word.unsigned? i
  | _ => none

/-- A number that fits a signed word. -/
def int64? : Json → Option Int64
  | .int i => Word.signed? i
  | _ => none

/-- A truth value. -/
def bool? : Json → Option Bool
  | .bool b => some b
  | _ => none

/-- A byte string of a kind. -/
def blob? (k : Kind) : Json → Option (Blob k)
  | .text s => (Blob.ofHex k s).toOption
  | _ => none

/-- An array whose items are read one by one. -/
def list? {α : Type} (item? : Json → Option α) : Json → Option (List α)
  | .array items => items.mapM item?
  | _ => none

/-! ## Records -/

/-- The value of the member with a key, absent if there is none; two such
members are a failure. -/
def single? (members : List (String × Json)) (key : String) : Option (Option Json) :=
  match members.filter fun m => m.1 == key with
  | [] => some none
  | [m] => some (some m.2)
  | _ => none

/-- The values of named fields, as far as the document has them. -/
def fields? (names : List String) : Json → Option (List (Option Json))
  | .object members => names.mapM (single? members)
  | .array items =>
    if items.length ≤ names.length then
      some (items.map some ++ List.replicate (names.length - items.length) none)
    else none
  | _ => none

/-- The values of named fields, all of which have to be there. -/
def required? (names : List String) (j : Json) : Option (List Json) :=
  (j.fields? names).bind fun values => values.mapM id

/-- A field that may be left out, with the value it then has. -/
def orElse? {α : Type} (read? : Json → Option α) (default : α) : Option Json → Option α
  | some j => read? j
  | none => some default

/-- The name of a case without data: a text, or an object that maps it to
null. -/
def case? : Json → Option String
  | .text s => some s
  | .object [(s, .null)] => some s
  | _ => none

/-! ## Writing -/

/-- An unsigned word as a number. -/
def ofUInt64 (w : UInt64) : Json := .int w.toNat

/-- A signed word as a number. -/
def ofInt64 (w : Int64) : Json := .int w.toInt

/-- A byte string as hexadecimal text. -/
def ofBlob {k : Kind} (b : Blob k) : Json := .text b.toHex

end ScriptLedger.Json
