import ScriptLedger.Json.Basic

/-!
# JSON tokens

The first half of reading a document: characters become tokens.  The lexer
reads one character at a time and keeps in its mode what it is in the middle
of, so reading a text is a fold over its characters.

A run of bare characters (letters, digits, signs and points) is taken whole
and has to be a literal or a number.  A text is collected in pieces, because
an escape may stand for one half of a surrogate pair; only two halves in a row
make a character.
-/

namespace ScriptLedger.Json

/-- A token of a document. -/
inductive Token
  | openArray
  | closeArray
  | openObject
  | closeObject
  | comma
  | colon
  /-- A literal or a number. -/
  | scalar (value : Json)
  /-- A text, absent when it holds half of a surrogate pair. -/
  | text (value : Option String)
deriving Repr

/-! ## Bare words and numbers -/

/-- Whether a character belongs to a run of bare characters. -/
def isBare (c : Char) : Bool := c.isAlphanum || c == '-' || c == '+' || c == '.'

/-- The number that decimal digits write. -/
def decimal (digits : List Char) : Nat := digits.foldl (fun n c => 10 * n + (c.toNat - 48)) 0

/-- The document of a whole number: without a value when it has a sign and is
zero, or fits no 64-bit word. -/
def ofWhole (negative : Bool) (n : Nat) : Json :=
  if negative then (if 0 < n ∧ n ≤ UInt64.size / 2 then .int (-n) else .unreadable)
  else (if n < UInt64.size then .int n else .unreadable)

/-- The rest after a fraction, which needs a digit. -/
def skipFraction : List Char → Option (List Char)
  | '.' :: rest => if (rest.takeWhile Char.isDigit).isEmpty then none
    else some (rest.dropWhile Char.isDigit)
  | rest => some rest

/-- The rest after a sign. -/
def skipSign : List Char → List Char
  | '+' :: rest => rest
  | '-' :: rest => rest
  | rest => rest

/-- Whether the rest of a number is empty or an exponent, which needs a digit. -/
def isExponent : List Char → Bool
  | [] => true
  | c :: rest =>
    let digits := skipSign rest
    (c == 'e' || c == 'E') && !digits.isEmpty && digits.all Char.isDigit

/-- The number that a run of bare characters writes. -/
def number? (negative : Bool) (run : List Char) : Option Json :=
  let whole := run.takeWhile Char.isDigit
  let rest := run.dropWhile Char.isDigit
  if whole.isEmpty || (whole.head? == some '0' && 1 < whole.length) then none
  else if rest.isEmpty then some (ofWhole negative (decimal whole))
  else
    match skipFraction rest with
    | some rest => if isExponent rest then some .unreadable else none
    | none => none

/-- The literal or number that a run of bare characters writes. -/
def ofBare (run : List Char) : Option Json :=
  if run = "null".toList then some .null
  else if run = "true".toList then some (.bool true)
  else if run = "false".toList then some (.bool false)
  else
    match run with
    | '-' :: digits => number? true digits
    | digits => number? false digits

/-! ## Text -/

/-- A piece of a text. -/
inductive Piece
  | char (c : Char)
  /-- Half of a surrogate pair, between `0xD800` and `0xDFFF`. -/
  | half (unit : Nat)
deriving Repr

/-- The piece that an escaped code unit stands for. -/
def Piece.ofUnit (unit : Nat) : Piece :=
  if 0xD800 ≤ unit ∧ unit ≤ 0xDFFF then .half unit else .char (Char.ofNat unit)

/-- The characters of a list of pieces, if every half has its other half. -/
def joinPieces : List Piece → Option (List Char)
  | [] => some []
  | .char c :: rest => (joinPieces rest).map (c :: ·)
  | .half high :: .half low :: rest =>
    if high < 0xDC00 ∧ 0xDC00 ≤ low then
      (joinPieces rest).map
        (Char.ofNat (0x10000 + (high - 0xD800) * 0x400 + (low - 0xDC00)) :: ·)
    else none
  | .half _ :: _ => none

/-- The character of a one-letter escape. -/
def escaped? : Char → Option Char
  | '"' => some '"'
  | '\\' => some '\\'
  | '/' => some '/'
  | 'b' => some '\x08'
  | 'f' => some '\x0c'
  | 'n' => some '\n'
  | 'r' => some '\r'
  | 't' => some '\t'
  | _ => none

/-- The value of a hexadecimal digit. -/
def hexValue? (c : Char) : Option Nat :=
  if '0' ≤ c ∧ c ≤ '9' then some (c.toNat - 48)
  else if 'a' ≤ c ∧ c ≤ 'f' then some (c.toNat - 87)
  else if 'A' ≤ c ∧ c ≤ 'F' then some (c.toNat - 55)
  else none

/-! ## The lexer -/

/-- What the lexer is in the middle of; what it has read of it comes latest
first. -/
inductive Mode
  | between
  | bare (read : List Char)
  | text (read : List Piece)
  | escape (read : List Piece)
  /-- An escaped code unit with the digits it still lacks. -/
  | unit (read : List Piece) (missing : Nat) (value : Nat)

/-- The lexer: its mode, and the tokens it has read, latest first. -/
structure Lexer where
  mode : Mode
  tokens : List Token

/-- A character that is in the middle of nothing. -/
def Lexer.start (tokens : List Token) (c : Char) : Option Lexer :=
  match c with
  | ' ' | '\t' | '\n' | '\r' => some ⟨.between, tokens⟩
  | '[' => some ⟨.between, .openArray :: tokens⟩
  | ']' => some ⟨.between, .closeArray :: tokens⟩
  | '\x7b' => some ⟨.between, .openObject :: tokens⟩
  | '\x7d' => some ⟨.between, .closeObject :: tokens⟩
  | ',' => some ⟨.between, .comma :: tokens⟩
  | ':' => some ⟨.between, .colon :: tokens⟩
  | '"' => some ⟨.text [], tokens⟩
  | c => if isBare c then some ⟨.bare [c], tokens⟩ else none

/-- Reads one character. -/
def Lexer.step (lexer : Lexer) (c : Char) : Option Lexer :=
  match lexer.mode with
  | .between => start lexer.tokens c
  | .bare read =>
    if isBare c then some ⟨.bare (c :: read), lexer.tokens⟩
    else (ofBare read.reverse).bind fun value => start (.scalar value :: lexer.tokens) c
  | .text read =>
    if c = '"' then
      some ⟨.between, .text ((joinPieces read.reverse).map String.ofList) :: lexer.tokens⟩
    else if c = '\\' then some ⟨.escape read, lexer.tokens⟩
    else if c.toNat < 32 then none
    else some ⟨.text (.char c :: read), lexer.tokens⟩
  | .escape read =>
    if c = 'u' then some ⟨.unit read 4 0, lexer.tokens⟩
    else (escaped? c).map fun e => ⟨.text (.char e :: read), lexer.tokens⟩
  | .unit read missing value =>
    (hexValue? c).map fun digit =>
      let value := 16 * value + digit
      if missing ≤ 1 then ⟨.text (Piece.ofUnit value :: read), lexer.tokens⟩
      else ⟨.unit read (missing - 1) value, lexer.tokens⟩

/-- The tokens of a text that ends here, first to last. -/
def Lexer.finish (lexer : Lexer) : Option (List Token) :=
  match lexer.mode with
  | .between => some lexer.tokens.reverse
  | .bare read => (ofBare read.reverse).map fun value => (.scalar value :: lexer.tokens).reverse
  | _ => none

/-- The tokens of a text. -/
def tokens? (s : List Char) : Option (List Token) :=
  (s.foldlM Lexer.step ⟨.between, []⟩).bind Lexer.finish

end ScriptLedger.Json
