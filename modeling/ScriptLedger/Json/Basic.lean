/-!
# JSON documents

The documents that records are written in.  Numbers are whole and fit a signed
or an unsigned 64-bit word, because every number of the ledger does.  The
members of an object keep their order and their duplicates; `canonical` sorts
them by key and lets the last duplicate win, which makes the text of a
document a function of its content.

A reader also meets well-formed parts that stand for no value here: numbers
with a fraction or beyond 64 bits, and text with half of a surrogate pair.  They become
`unreadable`, which may be skipped and never used.
-/

namespace ScriptLedger

/-- A JSON document. -/
inductive Json
  | null
  | bool (value : Bool)
  /-- A number between `-2⁶³` and `2⁶⁴ - 1`. -/
  | int (value : Int)
  | text (value : String)
  | array (items : List Json)
  | object (members : List (String × Json))
  /-- A well-formed part without a value. -/
  | unreadable
deriving Repr

namespace Json

/-! ## Lookup -/

/-- The first member of an object with a key. -/
def get? (key : String) : Json → Option Json
  | .object members => (members.find? fun m => m.1 == key).map (·.2)
  | _ => none

/-- The text of a text. -/
def text? : Json → Option String
  | .text s => some s
  | _ => none

/-! ## Reading a document as one value -/

mutual

/-- Nesting of arrays and objects. -/
def depth : Json → Nat
  | .array items => depthItems items + 1
  | .object members => depthMembers members + 1
  | _ => 0

/-- The greatest depth among items. -/
def depthItems : List Json → Nat
  | [] => 0
  | item :: rest => max item.depth (depthItems rest)

/-- The greatest depth among the values of members. -/
def depthMembers : List (String × Json) → Nat
  | [] => 0
  | (_, value) :: rest => max value.depth (depthMembers rest)

end

mutual

/-- Whether every part has a value. -/
def readable : Json → Bool
  | .array items => readableItems items
  | .object members => readableMembers members
  | .unreadable => false
  | _ => true

/-- Whether every item is readable. -/
def readableItems : List Json → Bool
  | [] => true
  | item :: rest => item.readable && readableItems rest

/-- Whether the value of every member is readable. -/
def readableMembers : List (String × Json) → Bool
  | [] => true
  | (_, value) :: rest => value.readable && readableMembers rest

end

/-- The deepest nesting of a document that is read as one value. -/
def maxDepth : Nat := 127

/-! ## Canonical order -/

/-- Puts a member into its place among members sorted by key, instead of the
one that has its key. -/
def insertMember (key : String) (value : Json) : List (String × Json) → List (String × Json)
  | [] => [(key, value)]
  | (k, v) :: rest =>
    if key < k then (key, value) :: (k, v) :: rest
    else if key = k then (key, value) :: rest
    else (k, v) :: insertMember key value rest

mutual

/-- The document with the members of every object sorted by key and the last
of several with one key kept. -/
def canonical : Json → Json
  | .array items => .array (canonicalItems items)
  | .object members => .object (canonicalMembers [] members)
  | other => other

/-- Each item in canonical order. -/
def canonicalItems : List Json → List Json
  | [] => []
  | item :: rest => item.canonical :: canonicalItems rest

/-- Sorts members into those already sorted. -/
def canonicalMembers (sorted : List (String × Json)) :
    List (String × Json) → List (String × Json)
  | [] => sorted
  | (key, value) :: rest => canonicalMembers (insertMember key value.canonical sorted) rest

end

end Json

end ScriptLedger
