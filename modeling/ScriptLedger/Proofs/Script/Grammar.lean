import ScriptLedger.Proofs.Script.Descent
import ScriptLedger.Proofs.Script.Words

/-!
# The grammar of programs

A program is a sequence of items, and in a list there are no instructions:

    program := item*
    item    := instruction | literal | '[' list ']'
    list    := (literal | '[' list ']')*

The parser accepts exactly what this grammar derives.  Every token becomes one piece of an item,
and the pieces of all items, one behind the other, are the tokens again, but for the spelling of
words.

The parser keeps the lists that are open on a stack.  What it makes of a list is therefore said
for any stack and any tokens behind the list; and the other way round, what is left to be read is
described list by list, from the innermost one outward: each of them still has to be closed, and
is then an item of the next one.

## Main results

* `Script.Listing`, `Script.Program` — what may stand between brackets, and outside.
* `Script.parseItems_listing` — the parser reads a list and stops before its closing bracket.
* `Script.completes_of_parseItems` — what has been left to read when the parser succeeds.
* `Script.parseItems_exact` — the programs are those of the grammar, and no token is lost.
-/

namespace ScriptLedger

/-! ## Pieces -/

/-- A part of a program that is one token: a bracket, or an item that is no list. -/
inductive Script.Piece
  | open
  | close
  | item (item : Script.Item)
deriving DecidableEq

mutual

/-- The pieces of a value, with the brackets of its lists. -/
def Value.pieces : Value → List Script.Piece
  | .int value => [.item (.push (.int value))]
  | .str value => [.item (.push (.str value))]
  | .bytes kind value => [.item (.push (.bytes kind value))]
  | .list items => .open :: (Value.piecesItems items ++ [.close])

/-- The pieces of the values of a list. -/
def Value.piecesItems : List Value → List Script.Piece
  | [] => []
  | item :: rest => item.pieces ++ Value.piecesItems rest

end

/-- The pieces of an item. -/
def Script.Item.pieces : Script.Item → List Script.Piece
  | .op opcode => [.item (.op opcode)]
  | .push value => value.pieces

namespace Script

/-- A token becomes a piece: a bracket that bracket, a text itself, and a word what it writes. -/
inductive Lexeme.Becomes : Lexeme → Piece → Prop
  | open : Becomes .open .open
  | close : Becomes .close .close
  | quoted (text : List Char) : Becomes (.quoted text) (.item (.push (.str (String.ofList text))))
  | word {word : List Char} {item : Item} (h : Writes word item) : Becomes (.word word) (.item item)

/-! ## The grammar -/

/-- A literal is a text, or a word that writes a value. -/
inductive Literal : Lexeme → Value → Prop
  | text (text : List Char) : Literal (.quoted text) (.str (String.ofList text))
  | word {word : List Char} {value : Value} (h : Writes word (.push value)) :
      Literal (.word word) value

/-- What may stand between two brackets: literals, and brackets with a list between them. -/
inductive Listing : List Lexeme → List Value → Prop
  | nil : Listing [] []
  | literal {lexeme : Lexeme} {value : Value} {more : List Lexeme} {values : List Value}
      (h : Literal lexeme value) (hmore : Listing more values) :
      Listing (lexeme :: more) (value :: values)
  | list {inside more : List Lexeme} {items values : List Value} (hinside : Listing inside items)
      (hmore : Listing more values) :
      Listing (.open :: (inside ++ .close :: more)) (.list items :: values)

/-- A program: instructions, literals, and brackets with a list between them. -/
inductive Program : List Lexeme → List Item → Prop
  | nil : Program [] []
  | instruction {word : List Char} {op : Opcode} {more : List Lexeme} {items : List Item}
      (h : Writes word (.op op)) (hmore : Program more items) :
      Program (.word word :: more) (.op op :: items)
  | literal {lexeme : Lexeme} {value : Value} {more : List Lexeme} {items : List Item}
      (h : Literal lexeme value) (hmore : Program more items) :
      Program (lexeme :: more) (.push value :: items)
  | list {inside more : List Lexeme} {values : List Value} {items : List Item}
      (hinside : Listing inside values) (hmore : Program more items) :
      Program (.open :: (inside ++ .close :: more)) (.push (.list values) :: items)

variable {stack : List OpenList} {before items : List Item} {values : List Value} {value : Value}
  {place place' : Place} {token : Token} {tokens inner rest : List Token} {lexeme : Lexeme}
  {lexemes inside more : List Lexeme} {word : List Char} {op : Opcode}

/-! ## What the grammar derives is read -/

theorem parseItems_literal (h : Literal token.lexeme value) :
    parseItems stack before (token :: rest) = parseItems stack (.push value :: before) rest := by
  obtain ⟨lexeme, place⟩ := token
  cases h with
  | text text => exact parseItems_quoted
  | word h => exact parseItems_word (parseWord_eq_ok_iff.mpr h)

/-- Brackets with tokens between them that are read as values. -/
theorem parseItems_brackets (hinner : ∀ stack before rest, parseItems stack before (inner ++ rest) =
      parseItems stack ((values.map Item.push).reverse ++ before) rest) :
    parseItems stack before (⟨.open, place⟩ :: (inner ++ ⟨.close, place'⟩ :: rest)) =
      parseItems stack (.push (.list values) :: before) rest := by
  rw [parseItems_open, hinner, List.append_nil]
  exact Value.parseItems_close

theorem exists_brackets
    (h : tokens.map Token.lexeme = .open :: (inside ++ .close :: more)) :
    ∃ place inner place' rest, tokens = ⟨.open, place⟩ :: (inner ++ ⟨.close, place'⟩ :: rest) ∧
      inner.map Token.lexeme = inside ∧ rest.map Token.lexeme = more := by
  obtain ⟨place, tokens, rfl, htokens⟩ := Value.exists_token h
  obtain ⟨inner, tokens, rfl, hinner, htokens⟩ := List.map_eq_append_iff.mp htokens
  obtain ⟨place', rest, rfl, hrest⟩ := Value.exists_token htokens
  exact ⟨place, inner, place', rest, rfl, hinner, hrest⟩

/-- A list is read whatever is open around it and whatever stands behind it, and nothing that
stands behind it is. -/
theorem parseItems_listing (h : Listing lexemes values) (htokens : tokens.map Token.lexeme = lexemes)
    (stack : List OpenList) (before : List Item) (rest : List Token) :
    parseItems stack before (tokens ++ rest) =
      parseItems stack ((values.map Item.push).reverse ++ before) rest := by
  induction h generalizing tokens stack before rest with
  | nil =>
      obtain rfl := List.map_eq_nil_iff.mp htokens
      rfl
  | literal h _ ih =>
      obtain ⟨place, tokens, rfl, hmore⟩ := Value.exists_token htokens
      rw [List.cons_append, parseItems_literal h, ih hmore]
      simp
  | list _ _ ihinside ih =>
      obtain ⟨place, inner, place', tokens, rfl, hinner, hmore⟩ := exists_brackets htokens
      rw [List.cons_append, List.append_assoc, List.cons_append,
        parseItems_brackets (ihinside hinner), ih hmore]
      simp

theorem parseItems_program (h : Program lexemes items) (htokens : tokens.map Token.lexeme = lexemes)
    (before : List Item) : parseItems [] before tokens = .ok (before.reverse ++ items) := by
  induction h generalizing tokens before with
  | nil =>
      obtain rfl := List.map_eq_nil_iff.mp htokens
      rw [List.append_nil]
      rfl
  | instruction h _ ih =>
      obtain ⟨place, tokens, rfl, hmore⟩ := Value.exists_token htokens
      rw [parseItems_word (parseWord_eq_ok_iff.mpr h), ih hmore]
      simp
  | literal h _ ih =>
      obtain ⟨place, tokens, rfl, hmore⟩ := Value.exists_token htokens
      rw [parseItems_literal h, ih hmore]
      simp
  | list hinside _ ih =>
      obtain ⟨place, inner, place', tokens, rfl, hinner, hmore⟩ := exists_brackets htokens
      rw [parseItems_brackets (parseItems_listing hinside hinner), ih hmore]
      simp

/-! ## What is read is derived by the grammar -/

/-- What is left to be read gives the items.  If a list is open, the values that have been read in
it and those that stand before its closing bracket are one item of what is around it. -/
def Completes : List OpenList → List Item → List Lexeme → List Item → Prop
  | [], before, lexemes, items => ∃ more, Program lexemes more ∧ items = before.reverse ++ more
  | opened :: stack, before, lexemes, items => ∃ read inside values rest,
      before = List.map Item.push read ∧ lexemes = inside ++ .close :: rest ∧
      Listing inside values ∧
      Completes stack (.push (.list (read.reverse ++ values)) :: opened.before) rest items

/-- The tokens of a value stand before what is left. -/
theorem Completes.push (lexemes : List Lexeme)
    (hlisting : ∀ {more values}, Listing more values →
      Listing (lexemes ++ more) (value :: values))
    (hprogram : ∀ {more items}, Program more items →
      Program (lexemes ++ more) (.push value :: items))
    (h : Completes stack (.push value :: before) more items) :
    Completes stack before (lexemes ++ more) items := by
  cases stack with
  | nil =>
      obtain ⟨rest, hrest, rfl⟩ := h
      exact ⟨.push value :: rest, hprogram hrest, by simp⟩
  | cons opened stack =>
      obtain ⟨read, inside, values, rest, hread, rfl, hinside, hrest⟩ := h
      obtain ⟨_, read, rfl, hvalue, hbefore⟩ := List.map_eq_cons_iff.mp hread.symm
      obtain rfl := Item.push.inj hvalue
      refine ⟨read, lexemes ++ inside, _ :: values, rest, hbefore.symm, by simp,
        hlisting hinside, ?_⟩
      rw [List.reverse_cons, List.append_assoc] at hrest
      exact hrest

theorem Completes.literal (hliteral : Literal lexeme value)
    (h : Completes stack (.push value :: before) more items) :
    Completes stack before (lexeme :: more) items :=
  h.push [lexeme] (.literal hliteral) (.literal hliteral)

/-- An instruction cannot be left in a list that is closed. -/
theorem Completes.instruction (hop : Writes word (.op op))
    (h : Completes stack (.op op :: before) more items) :
    Completes stack before (.word word :: more) items := by
  cases stack with
  | nil =>
      obtain ⟨rest, hrest, rfl⟩ := h
      exact ⟨.op op :: rest, .instruction hop hrest, by simp⟩
  | cons opened stack =>
      obtain ⟨read, _, _, _, hread, -⟩ := h
      obtain ⟨_, _, -, hpush, -⟩ := List.map_eq_cons_iff.mp hread.symm
      cases hpush

theorem Completes.open (h : Completes (⟨place, before⟩ :: stack) [] more items) :
    Completes stack before (.open :: more) items := by
  obtain ⟨read, inside, values, rest, hread, rfl, hinside, hrest⟩ := h
  obtain rfl := List.map_eq_nil_iff.mp hread.symm
  have hbrackets := Completes.push (.open :: (inside ++ [.close]))
    (fun hmore => by simpa using Listing.list hinside hmore)
    (fun hmore => by simpa using Program.list hinside hmore) hrest
  simpa using hbrackets

/-- The items of a list that is accepted are values. -/
theorem eq_map_of_mapM (h : items.mapM (valueInList place) = .ok values) :
    items = values.map Item.push := by
  induction items generalizing values with
  | nil =>
      cases h
      rfl
  | cons item items ih =>
      rw [List.mapM_cons] at h
      obtain ⟨value, hvalue, h⟩ := Sequencing.except_bind_eq_ok.mp h
      obtain ⟨values, hvalues, h⟩ := Sequencing.except_bind_eq_ok.mp h
      cases h
      cases item with
      | op op => cases hvalue
      | push value =>
          cases hvalue
          rw [ih hvalues]
          rfl

theorem Completes.close {opened : OpenList}
    (hvalues : before.reverse.mapM (valueInList opened.place) = .ok values)
    (h : Completes stack (.push (.list values) :: opened.before) more items) :
    Completes (opened :: stack) before (.close :: more) items := by
  refine ⟨values.reverse, [], [], more, ?_, rfl, .nil, ?_⟩
  · rw [List.map_reverse, ← eq_map_of_mapM hvalues, List.reverse_reverse]
  · rw [List.reverse_reverse, List.append_nil]
    exact h

/-- When the parser succeeds, what it had left to read gave the items. -/
theorem completes_of_parseItems (h : parseItems stack before tokens = .ok items) :
    Completes stack before (tokens.map Token.lexeme) items := by
  induction tokens generalizing stack before with
  | nil =>
      cases stack with
      | nil =>
          cases h
          exact ⟨[], .nil, (List.append_nil _).symm⟩
      | cons opened stack => cases h
  | cons token tokens ih =>
      obtain ⟨lexeme, place⟩ := token
      rw [List.map_cons]
      cases lexeme with
      | word word =>
          cases hword : parseWord word with
          | error cause =>
              rw [parseItems_word_of_error hword] at h
              cases h
          | ok item =>
              rw [parseItems_word hword] at h
              have hwrites := parseWord_eq_ok_iff.mp hword
              cases item with
              | op op => exact (ih h).instruction hwrites
              | push value => exact (ih h).literal (.word hwrites)
      | quoted text =>
          rw [parseItems_quoted] at h
          exact (ih h).literal (.text text)
      | «open» =>
          rw [parseItems_open] at h
          exact (ih h).open
      | close =>
          cases stack with
          | nil =>
              rw [parseItems_unmatched] at h
              cases h
          | cons opened stack =>
              cases hvalues : before.reverse.mapM (valueInList opened.place) with
              | error e =>
                  rw [parseItems_closed_of_error hvalues] at h
                  cases h
              | ok values =>
                  rw [parseItems_closed hvalues] at h
                  exact (ih h).close hvalues

theorem parseItems_eq_ok_iff :
    parseItems [] [] tokens = .ok items ↔ Program (tokens.map Token.lexeme) items := by
  constructor
  · intro h
    obtain ⟨more, hmore, rfl⟩ := completes_of_parseItems h
    exact hmore
  · intro h
    exact parseItems_program h rfl []

/-! ## No token is lost -/

theorem Literal.becomes (h : Literal lexeme value) :
    List.Forall₂ Lexeme.Becomes [lexeme] value.pieces := by
  cases h with
  | text text => exact .cons (.quoted text) .nil
  | word h => cases h with
    | bytes h => exact .cons (.word (.bytes h)) .nil
    | int h => exact .cons (.word (.int h)) .nil

theorem becomes_brackets {pieces morePieces : List Piece}
    (hinside : List.Forall₂ Lexeme.Becomes inside pieces)
    (hmore : List.Forall₂ Lexeme.Becomes more morePieces) :
    List.Forall₂ Lexeme.Becomes (.open :: (inside ++ .close :: more))
      (.open :: (pieces ++ [.close]) ++ morePieces) := by
  rw [List.cons_append, List.append_assoc]
  exact .cons .open (List.rel_append hinside (.cons .close hmore))

theorem Listing.becomes (h : Listing lexemes values) :
    List.Forall₂ Lexeme.Becomes lexemes (Value.piecesItems values) := by
  induction h with
  | nil => exact .nil
  | literal h _ ih => exact List.rel_append h.becomes ih
  | list _ _ ihinside ih => exact becomes_brackets ihinside ih

theorem Program.becomes (h : Program lexemes items) :
    List.Forall₂ Lexeme.Becomes lexemes (items.flatMap Item.pieces) := by
  induction h with
  | nil => exact .nil
  | instruction h _ ih => exact .cons (.word h) ih
  | literal h _ ih =>
      rw [List.flatMap_cons]
      exact List.rel_append h.becomes ih
  | list hinside _ ih =>
      rw [List.flatMap_cons]
      exact becomes_brackets hinside.becomes ih

/-! ## Instructions stand in no list -/

theorem Literal.ne_bracket (h : Literal lexeme value) : lexeme ≠ .open ∧ lexeme ≠ .close := by
  cases h <;> exact ⟨nofun, nofun⟩

/-- As many brackets are closed as are opened. -/
theorem Listing.balanced (h : Listing lexemes values) :
    lexemes.count .open = lexemes.count .close := by
  induction h with
  | nil => rfl
  | literal h _ ih =>
      rw [List.count_cons_of_ne h.ne_bracket.1, List.count_cons_of_ne h.ne_bracket.2, ih]
  | list _ _ ihinside ih =>
      simp [ihinside, ih]
      omega

theorem not_writes_both (hop : Writes word (.op op)) : ¬Writes word (.push value) := fun h =>
  nomatch (parseWord_eq_ok_iff.mpr hop).symm.trans (parseWord_eq_ok_iff.mpr h)

theorem Listing.not_instruction (h : Listing lexemes values) (hop : Writes word (.op op)) :
    .word word ∉ lexemes := by
  induction h with
  | nil => exact List.not_mem_nil
  | literal h _ ih =>
      refine List.not_mem_cons_of_ne_of_not_mem ?_ ih
      rintro rfl
      cases h with
      | word h => exact not_writes_both hop h
  | list _ _ ihinside ih =>
      simp [ihinside, ih]

/-- Where an instruction stands, every bracket before it has been closed. -/
theorem Program.balanced_before (h : Program lexemes items) {before after : List Lexeme}
    (hsplit : lexemes = before ++ .word word :: after) (hop : Writes word (.op op)) :
    before.count .open = before.count .close := by
  induction h generalizing before with
  | nil => simp at hsplit
  | instruction _ _ ih =>
      rcases List.cons_eq_append_iff.mp hsplit with ⟨rfl, -⟩ | ⟨before, rfl, hrest⟩
      · rfl
      · simpa using ih hrest
  | literal h _ ih =>
      rcases List.cons_eq_append_iff.mp hsplit with ⟨rfl, -⟩ | ⟨before, rfl, hrest⟩
      · rfl
      · rw [List.count_cons_of_ne h.ne_bracket.1, List.count_cons_of_ne h.ne_bracket.2, ih hrest]
  | list hinside _ ih =>
      rcases List.cons_eq_append_iff.mp hsplit with ⟨rfl, hfirst⟩ | ⟨before, rfl, hrest⟩
      · cases hfirst
      rcases List.append_eq_append_iff.mp hrest with ⟨passed, rfl, hleft⟩ | ⟨left, rfl, hleft⟩
      · -- The list has been closed, so the instruction stands behind it.
        rcases List.cons_eq_append_iff.mp hleft with ⟨rfl, hfirst⟩ | ⟨passed, rfl, hbehind⟩
        · cases hfirst
        · simp [hinside.balanced, ih hbehind]
          omega
      · rcases List.cons_eq_append_iff.mp hleft with ⟨rfl, hfirst⟩ | ⟨left, rfl, -⟩
        · cases hfirst
        · exact absurd (by simp) (hinside.not_instruction hop)

/-! ## Programs -/

/-- The parser makes items of tokens if and only if the grammar derives them, and the descent,
which makes the same of them, then leaves no token.  The pieces of the items are what the tokens
have become, each of them once and in order; and where an instruction stands, all lists before it
have been closed. -/
theorem parseItems_exact (tokens : List Token) :
    (∀ items, parseItems [] [] tokens = .ok items ↔ Program (tokens.map Token.lexeme) items) ∧
    (descend none [] tokens).map (fun read => (read.1, read.2.val)) =
      (parseItems [] [] tokens).map (fun items => (items, [])) ∧
    ∀ items, parseItems [] [] tokens = .ok items →
      List.Forall₂ Lexeme.Becomes (tokens.map Token.lexeme) (items.flatMap Item.pieces) ∧
      ∀ before word op after, tokens.map Token.lexeme = before ++ .word word :: after →
        Writes word (.op op) → before.count .open = before.count .close := by
  refine ⟨fun items => parseItems_eq_ok_iff, descend_eq tokens, fun items h => ?_⟩
  have hprogram := parseItems_eq_ok_iff.mp h
  exact ⟨hprogram.becomes, fun _ _ _ _ hsplit hop => hprogram.balanced_before hsplit hop⟩

/-- Lists in lists, and an instruction behind them. -/
theorem parseItems_exact_nested :
    ∃ tokens items before, tokenize "[] [0x1 ['a']] op_add".toList = .ok tokens ∧
      parseItems [] [] tokens = .ok items ∧
      List.Forall₂ Lexeme.Becomes (tokens.map Token.lexeme) [.open, .close, .open,
        .item (.push (.int 1)), .open, .item (.push (.str "a")), .close, .close,
        .item (.op (.arith (.binary .add)))] ∧
      tokens.map Token.lexeme = before ++ [.word "op_add".toList] ∧
      Writes "op_add".toList (.op (.arith (.binary .add))) ∧
      before.count .open = before.count .close := by
  obtain ⟨tokens, htokens, hitems, hsplit⟩ : ∃ tokens,
      tokenize "[] [0x1 ['a']] op_add".toList = .ok tokens ∧
      parseItems [] [] tokens = .ok [.push (.list []), .push (.list [.int 1, .list [.str "a"]]),
        .op (.arith (.binary .add))] ∧
      tokens.map Token.lexeme = [.open, .close, .open, .word "0x1".toList, .open,
        .quoted "a".toList, .close, .close] ++ [.word "op_add".toList] := ⟨_, rfl, rfl, rfl⟩
  have hop : Writes "op_add".toList (.op (.arith (.binary .add))) := .op (by decide)
  obtain ⟨hpieces, hclosed⟩ := (parseItems_exact tokens).2.2 _ hitems
  exact ⟨tokens, _, _, htokens, hitems, hpieces, hsplit, hop, hclosed _ _ _ [] hsplit hop⟩

end Script

end ScriptLedger
