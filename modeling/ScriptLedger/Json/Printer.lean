import ScriptLedger.Json.Basic

/-!
# Compact JSON text

A document without any blanks: whole numbers in decimal, text between double
quotes with the quote, the backslash and the characters below the space
escaped, members in the order the document has them.
-/

namespace ScriptLedger.Json

/-! ## Scalars -/

/-- A whole number in decimal. -/
def renderInt (i : Int) : List Char :=
  if i < 0 then '-' :: Nat.toDigits 10 i.natAbs else Nat.toDigits 10 i.natAbs

/-- A character inside a text. -/
def escape (c : Char) : List Char :=
  match c with
  | '"' => ['\\', '"']
  | '\\' => ['\\', '\\']
  | '\x08' => ['\\', 'b']
  | '\x0c' => ['\\', 'f']
  | '\n' => ['\\', 'n']
  | '\r' => ['\\', 'r']
  | '\t' => ['\\', 't']
  | c =>
    if c.toNat < 32 then
      ['\\', 'u', '0', '0', Nat.digitChar (c.toNat / 16), Nat.digitChar (c.toNat % 16)]
    else [c]

/-- A text between quotes. -/
def renderText (s : String) : List Char := '"' :: (s.toList.flatMap escape ++ ['"'])

/-! ## Documents -/

mutual

/-- The characters of a document; a part without a value is written as null. -/
def render : Json → List Char
  | .null => "null".toList
  | .bool true => "true".toList
  | .bool false => "false".toList
  | .int i => renderInt i
  | .text s => renderText s
  | .array [] => ['[', ']']
  | .array (item :: rest) => '[' :: (item.render ++ (renderItems rest ++ [']']))
  | .object [] => ['\x7b', '\x7d']
  | .object ((key, value) :: rest) =>
    '\x7b' :: (renderText key ++ (':' :: (value.render ++ (renderMembers rest ++ ['\x7d']))))
  | .unreadable => "null".toList

/-- Items after the first, each behind a comma. -/
def renderItems : List Json → List Char
  | [] => []
  | item :: rest => ',' :: (item.render ++ renderItems rest)

/-- Members after the first, each behind a comma. -/
def renderMembers : List (String × Json) → List Char
  | [] => []
  | (key, value) :: rest =>
    ',' :: (renderText key ++ (':' :: (value.render ++ renderMembers rest)))

end

/-- The compact text of a document. -/
def print (j : Json) : String := String.ofList j.render

end ScriptLedger.Json
