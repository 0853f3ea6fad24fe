import ScriptLedger.Json.Token

/-!
# Reading JSON text

The second half of reading a document: tokens become a document.  The arrays
and objects that are still open form a stack of frames, so nesting has no
bound here, and each token is looked at once.  The grammar is strict: one
document, no comma before a closing bracket, nothing after the end.
-/

namespace ScriptLedger.Json

/-- An open array or object with what it already holds, latest first. -/
inductive Frame
  | array (items : List Json)
  /-- The member under `key` is being read; an absent key is unreadable. -/
  | object (members : List (Option String × Json)) (key : Option String)

/-- What may come next, inside the frames that are open. -/
inductive State
  /-- A value has to come. -/
  | wantValue (frames : List Frame)
  /-- An array has just been opened. -/
  | firstItem (frames : List Frame)
  /-- An object has just been opened. -/
  | firstKey (frames : List Frame)
  /-- A comma stands behind the members of an object. -/
  | wantKey (frames : List Frame) (members : List (Option String × Json))
  /-- A key has been read. -/
  | wantColon (frames : List Frame) (members : List (Option String × Json)) (key : Option String)
  /-- A value has been read. -/
  | after (frames : List Frame) (value : Json)

/-- The object with the given members, latest first; it is unreadable when a
key is. -/
def ofMembers (members : List (Option String × Json)) : Json :=
  let keyed? (member : Option String × Json) : Option (String × Json) :=
    member.1.map fun key => (key, member.2)
  match members.reverse.mapM keyed? with
  | some members => .object members
  | none => .unreadable

/-- A token where a value has to come. -/
def State.begin (frames : List Frame) : Token → Option State
  | .openArray => some (.firstItem frames)
  | .openObject => some (.firstKey frames)
  | .scalar value => some (.after frames value)
  | .text (some s) => some (.after frames (.text s))
  | .text none => some (.after frames .unreadable)
  | _ => none

/-- Reads one token. -/
def State.step : State → Token → Option State
  | .wantValue frames, token => begin frames token
  | .firstItem frames, .closeArray => some (.after frames (.array []))
  | .firstItem frames, token => begin (.array [] :: frames) token
  | .firstKey frames, .closeObject => some (.after frames (.object []))
  | .firstKey frames, .text key => some (.wantColon frames [] key)
  | .wantKey frames members, .text key => some (.wantColon frames members key)
  | .wantColon frames members key, .colon => some (.wantValue (.object members key :: frames))
  | .after (.array items :: frames) value, .comma =>
    some (.wantValue (.array (value :: items) :: frames))
  | .after (.array items :: frames) value, .closeArray =>
    some (.after frames (.array (value :: items).reverse))
  | .after (.object members key :: frames) value, .comma =>
    some (.wantKey frames ((key, value) :: members))
  | .after (.object members key :: frames) value, .closeObject =>
    some (.after frames (ofMembers ((key, value) :: members)))
  | _, _ => none

/-- The document that has been read, when no array or object is open. -/
def State.finish : State → Option Json
  | .after [] value => some value
  | _ => none

/-- The document of a list of tokens. -/
def ofTokens? (tokens : List Token) : Option Json :=
  (tokens.foldlM State.step (.wantValue [])).bind State.finish

/-- The document that a text writes. -/
def parse? (s : String) : Option Json := (tokens? s.toList).bind ofTokens?

/-- The document that a text writes, if it can be read as one value. -/
def parseValue? (s : String) : Option Json :=
  (parse? s).filter fun j => j.readable && j.depth ≤ maxDepth

end ScriptLedger.Json
