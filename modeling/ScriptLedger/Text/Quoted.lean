import ScriptLedger.Text.Invisible

/-!
# Quoted text in messages

Error messages show a character or a text between quotes with everything
that could not be read back made visible: the quote itself, the backslash,
the four control characters that have a letter of their own, and every
invisible character by its number in braces.
-/

namespace ScriptLedger.Text

/-- One character inside quotes of the kind `quote`. -/
def escapeIn (quote c : Char) : List Char :=
  match c with
  | '\x00' => ['\\', '0']
  | '\t' => ['\\', 't']
  | '\r' => ['\\', 'r']
  | '\n' => ['\\', 'n']
  | '\\' => ['\\', '\\']
  | c =>
    if c = quote then ['\\', c]
    else if isInvisible c then
      ['\\', 'u', '\x7b'] ++ Nat.toDigits 16 c.toNat ++ ['\x7d']
    else [c]

/-- A character between single quotes. -/
def quoteChar (c : Char) : String :=
  String.ofList (['\''] ++ escapeIn '\'' c ++ ['\''])

/-- A text between double quotes. -/
def quoteText (s : String) : String :=
  String.ofList (['"'] ++ s.toList.flatMap (escapeIn '"') ++ ['"'])

end ScriptLedger.Text
