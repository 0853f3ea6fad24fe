import ScriptLedger.Digest.Basic
import ScriptLedger.Json.Printer
import ScriptLedger.Record.Error

/-!
# Records

A record is a value that is kept and named by the digest of its text.  The
text is compact JSON with the members of every object sorted by key, so it is
a function of the value.  Reading a record checks the same rules as making
one.
-/

namespace ScriptLedger

/-- A type of records. -/
class Record (α : Type) where
  /-- The document of a record, members sorted by key. -/
  toJson : α → Json
  /-- The record of a document, with no rule checked. -/
  ofJson? : Json → Option α
  /-- Checks the rules of the record. -/
  validate : α → Except RecordError Unit

namespace Record

variable {α : Type} [Record α]

/-- The text of a record. -/
def text (x : α) : String := (toJson x).print

/-- The bytes of the text of a record. -/
def bytes (x : α) : List UInt8 := (toJson x).render.flatMap String.utf8EncodeChar

theorem bytes_eq (x : α) : bytes x = Bytes.utf8 (text x) := by
  simp [bytes, text, Json.print, Bytes.utf8]

/-- The name of a record: the digest of its text. -/
def hash (x : α) : Hash := sha256 (bytes x)

/-- The record that a text writes, if it follows the rules. -/
def read (α : Type) [Record α] (s : String) : Except RecordError α :=
  match (Json.parse? s).bind ofJson? with
  | none => .error .malformed
  | some x => (validate x).map fun _ => x

end Record

end ScriptLedger
