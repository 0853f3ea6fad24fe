import ScriptLedger.Script.Opcode
import ScriptLedger.Bytes.Blob
import ScriptLedger.Text.Blank

/-!
# Tokens of a program

Program text is cut into words, quoted texts and brackets.  Blanks and
comments separate tokens; a comment starts with two slashes outside a text and
ends with its line.  A text stands between two quotes of one sort, knows two
escapes, and has to be followed by a blank, a closing bracket or the end.

Every token and every failure has a place: lines and columns count from one,
in characters.  The scanner keeps the place of the last character it read.
-/

namespace ScriptLedger.Script

/-- A place in program text. -/
structure Place where
  line : Nat
  column : Nat
deriving Repr, DecidableEq

/-- Why program text is no program. -/
inductive ParseCause
  | unterminatedText
  | badEscape
  | unescapedQuote
  | unmatchedClose
  | unclosedOpen
  | opcodeInList (op : Opcode)
  | unknownOpcode (word : String)
  | badBytes (word : String) (cause : BlobError)
  | invalidToken (word : String)
deriving DecidableEq

/-- A cause and the place where it shows. -/
structure ParseError where
  place : Place
  cause : ParseCause
deriving DecidableEq

/-- The wording of a cause. -/
def ParseCause.message : ParseCause → String
  | .unterminatedText => "unterminated string literal"
  | .badEscape => "only \\\\ and \\\" escapes are allowed"
  | .unescapedQuote => "unescaped closing quote inside string"
  | .unmatchedClose => "unmatched ']'"
  | .unclosedOpen => "unclosed '['"
  | .opcodeInList op => "opcode " ++ op.name ++ " inside list literal"
  | .unknownOpcode word => "unknown opcode " ++ word
  | .badBytes word cause => word ++ ": " ++ cause.message
  | .invalidToken word => "invalid token " ++ word

/-! ## Places -/

/-- The place before the first character. -/
def Place.start : Place := ⟨1, 0⟩

/-- The place after one more character. -/
def Place.advance (p : Place) (c : Char) : Place :=
  if c = '\n' then ⟨p.line + 1, 0⟩ else ⟨p.line, p.column + 1⟩

/-- The place of the next character. -/
def Place.next (p : Place) : Place := ⟨p.line, p.column + 1⟩

/-! ## Tokens -/

/-- What a token is. -/
inductive Lexeme
  | word (text : List Char)
  | quoted (text : List Char)
  | open
  | close
deriving Repr, DecidableEq

/-- A token and the place of its first character. -/
structure Token where
  lexeme : Lexeme
  place : Place
deriving Repr, DecidableEq

/-! ## The scanner -/

/-- What the scanner is in the middle of; what it has read of it comes latest
first. -/
inductive Mode
  | between
  | comment
  | word (start : Place) (read : List Char)
  | quoted (quote : Char) (start : Place) (read : List Char)
  /-- A backslash has just been read. -/
  | escaped (quote : Char) (start : Place) (read : List Char)
  /-- A closing quote has just been read. -/
  | closed (start : Place) (read : List Char)

/-- The scanner: its mode, the place of the last character, and the tokens it
has read, latest first. -/
structure Scanner where
  mode : Mode
  place : Place
  tokens : List Token

/-- Whether a comment starts at a character, given the one behind it. -/
def startsComment (c : Char) (next : Option Char) : Bool := c == '/' && next == some '/'

/-- Whether a character cannot be part of a word. -/
def endsWord (c : Char) (next : Option Char) : Bool :=
  Text.isBlank c || c == '[' || c == ']' || c == '"' || c == '\'' || startsComment c next

namespace Scanner

/-- The scanner after a character, in a mode, with the tokens read so far. -/
def move (s : Scanner) (c : Char) (mode : Mode) (tokens : List Token) : Scanner :=
  ⟨mode, s.place.advance c, tokens⟩

/-- Reads a character that is in the middle of nothing. -/
def begin (s : Scanner) (tokens : List Token) (c : Char) (next : Option Char) : Scanner :=
  if Text.isBlank c then s.move c .between tokens
  else if c = '[' then s.move c .between (⟨.open, s.place.next⟩ :: tokens)
  else if c = ']' then s.move c .between (⟨.close, s.place.next⟩ :: tokens)
  else if c = '"' ∨ c = '\'' then s.move c (.quoted c s.place.next []) tokens
  else if startsComment c next then s.move c .comment tokens
  else s.move c (.word s.place.next [c]) tokens

/-- Reads one character, given the one behind it. -/
def step (s : Scanner) (c : Char) (next : Option Char) : Except ParseError Scanner :=
  match s.mode with
  | .between => .ok (s.begin s.tokens c next)
  | .comment => .ok (s.move c (if c = '\n' then .between else .comment) s.tokens)
  | .word start read =>
    if endsWord c next then .ok (s.begin (⟨.word read.reverse, start⟩ :: s.tokens) c next)
    else .ok (s.move c (.word start (c :: read)) s.tokens)
  | .quoted quote start read =>
    if c = '\\' then .ok (s.move c (.escaped quote start read) s.tokens)
    else if c = quote then .ok (s.move c (.closed start read) s.tokens)
    else .ok (s.move c (.quoted quote start (c :: read)) s.tokens)
  | .escaped quote start read =>
    if c = '\\' ∨ c = '"' then .ok (s.move c (.quoted quote start (c :: read)) s.tokens)
    else .error ⟨s.place.advance c, .badEscape⟩
  | .closed start read =>
    if Text.isBlank c ∨ c = ']' then
      .ok (s.begin (⟨.quoted read.reverse, start⟩ :: s.tokens) c next)
    else .error ⟨s.place, .unescapedQuote⟩

/-- The tokens of a text that ends here, first to last. -/
def finish (s : Scanner) : Except ParseError (List Token) :=
  match s.mode with
  | .between | .comment => .ok s.tokens.reverse
  | .word start read => .ok (⟨.word read.reverse, start⟩ :: s.tokens).reverse
  | .closed start read => .ok (⟨.quoted read.reverse, start⟩ :: s.tokens).reverse
  | .quoted _ start _ => .error ⟨start, .unterminatedText⟩
  | .escaped _ _ _ => .error ⟨s.place, .badEscape⟩

/-- Reads the rest of a text. -/
def run (s : Scanner) : List Char → Except ParseError (List Token)
  | [] => s.finish
  | c :: rest =>
    match s.step c rest.head? with
    | .ok s => run s rest
    | .error e => .error e

end Scanner

/-- The tokens of program text. -/
def tokenize (text : List Char) : Except ParseError (List Token) :=
  Scanner.run ⟨.between, Place.start, []⟩ text

end ScriptLedger.Script
