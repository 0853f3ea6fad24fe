import ScriptLedger.Json.Token
import ScriptLedger.Word

/-!
# Whole numbers in program text

An optional sign, then decimal digits, or a hexadecimal mark and hexadecimal
digits.  The digits may be any number and start with zeros; what counts is
that the value fits a signed word.
-/

namespace ScriptLedger.Script

/-- The sign of a number and the rest after it. -/
def splitSign : List Char → Bool × List Char
  | '-' :: rest => (true, rest)
  | '+' :: rest => (false, rest)
  | rest => (false, rest)

/-- The number that digits write in a base, if there are any digits and each
one has a value. -/
def digits? (base : Nat) (value? : Char → Option Nat) : List Char → Option Nat
  | [] => none
  | digits => digits.foldlM (fun n c => (value? c).map (base * n + ·)) 0

/-- The value of a decimal digit. -/
def decimalValue? (c : Char) : Option Nat := if c.isDigit then some (c.toNat - 48) else none

/-- The number that an unsigned word writes. -/
def magnitude? : List Char → Option Nat
  | '0' :: 'x' :: digits => digits? 16 Json.hexValue? digits
  | '0' :: 'X' :: digits => digits? 16 Json.hexValue? digits
  | digits => digits? 10 decimalValue? digits

/-- The whole number that a word writes. -/
def parseInt (word : List Char) : Option Int64 := do
  let (negative, rest) := splitSign word
  let n ← magnitude? rest
  Word.signed? (if negative then -(n : Int) else n)

end ScriptLedger.Script
