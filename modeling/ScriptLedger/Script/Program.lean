import ScriptLedger.Script.Integer
import ScriptLedger.Script.Token
import ScriptLedger.Script.Value

/-!
# Programs

A program is a list of items: instructions, and values to push.  Words that
begin like an instruction have to be one; a word with one of the four marks is
a byte string; every other word is a whole number.  Brackets make lists, and a
list holds values only.

Reading is all or nothing.  The lists that are still open form a stack, so
each token is looked at once.
-/

namespace ScriptLedger.Script

/-- One step of a program. -/
inductive Item
  | op (op : Opcode)
  | push (value : Value)
deriving DecidableEq

/-! ## Words -/

/-- Whether a word begins like an instruction. -/
def looksLikeOpcode : List Char → Bool
  | a :: b :: '_' :: _ => a.toUpper == 'O' && b.toUpper == 'P'
  | _ => false

/-- The byte string that a word writes, if it has a mark; absent if it has
none. -/
def markedBytes (word : List Char) : Option (Except ParseCause Value) :=
  match word with
  | mark :: '0' :: 'x' :: digits =>
    (Kind.ofMark? mark).map fun kind =>
      match Blob.ofHex kind (String.ofList digits) with
      | .ok value => .ok (.bytes kind value)
      | .error cause => .error (.badBytes (String.ofList word) cause)
  | _ => none

/-- The item that a word writes. -/
def parseWord (word : List Char) : Except ParseCause Item :=
  if looksLikeOpcode word then
    match Opcode.ofName? word with
    | some op => .ok (.op op)
    | none => .error (.unknownOpcode (String.ofList word))
  else
    match markedBytes word with
    | some value => value.map .push
    | none =>
      match parseInt word with
      | some value => .ok (.push (.int value))
      | none => .error (.invalidToken (String.ofList word))

/-! ## Items -/

/-- A list that has been opened: the place of its bracket, and the items
before it, latest first. -/
structure OpenList where
  place : Place
  before : List Item

/-- The value of an item of a list. -/
def valueInList (place : Place) : Item → Except ParseError Value
  | .push value => .ok value
  | .op op => .error ⟨place, .opcodeInList op⟩

/-- Reads tokens into items, given the lists that are open, innermost first,
and the items read in the innermost one, latest first. -/
def parseItems : List OpenList → List Item → List Token → Except ParseError (List Item)
  | [], items, [] => .ok items.reverse
  | opened :: _, _, [] => .error ⟨opened.place, .unclosedOpen⟩
  | stack, items, token :: rest =>
    match token.lexeme, stack with
    | .open, stack => parseItems (⟨token.place, items⟩ :: stack) [] rest
    | .close, [] => .error ⟨token.place, .unmatchedClose⟩
    | .close, opened :: stack =>
      match items.reverse.mapM (valueInList opened.place) with
      | .ok values => parseItems stack (.push (.list values) :: opened.before) rest
      | .error e => .error e
    | .quoted text, stack => parseItems stack (.push (.str (String.ofList text)) :: items) rest
    | .word word, stack =>
      match parseWord word with
      | .ok item => parseItems stack (item :: items) rest
      | .error cause => .error ⟨token.place, cause⟩

/-- The program that a text writes. -/
def parseProgram (text : String) : Except ParseError (List Item) := do
  parseItems [] [] (← tokenize text.toList)

end ScriptLedger.Script
