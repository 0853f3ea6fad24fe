import ScriptLedger.Proofs.Script.Parser
import ScriptLedger.Proofs.Script.Scanner

/-!
# Layout does not change a program

A program is a sequence of tokens.  They may be laid out in any way, as long as a blank stands
behind each of them: blanks of all sorts, ends of lines, and comments that say what they like,
with quotes and brackets in them.  The names of instructions may be written in any case.  Two
texts that lay out the same tokens are the same program, or neither of them is one.

A comment cannot begin inside a text, so two slashes may stand there; they cannot stand in a
word, where they would begin one.

## Main results

* `Script.Spells.scans` — what the scanner makes of one token, however it is spelled.
* `Script.Laid.exists_tokenize` — the tokens of a text are those that are laid out in it.
* `Script.parseProgram_laid` — programs that differ in layout and case only are the same.
-/

namespace ScriptLedger.Script

variable {text text' word : List Char} {lexeme : Lexeme} {lexemes lexemes' : List Lexeme}

/-! ## One token -/

/-- The characters of a token: a bracket, a word, or quotes with a text between them. -/
inductive Spells : List Char → Lexeme → Prop
  | open : Spells ['['] .open
  | close : Spells [']'] .close
  | word {word : List Char} (hne : word ≠ [])
      (hplain : ∀ c ∈ word, Text.isBlank c = false ∧ c ∉ ['[', ']', '"', '\''])
      (hcomment : ¬['/', '/'] <:+: word) : Spells word (.word word)
  | quoted {quote : Char} {inside text : List Char} (hquote : quote = '"' ∨ quote = '\'')
      (h : Quotes quote inside text) : Spells (quote :: (inside ++ [quote])) (.quoted text)

theorem isWord_of_plain
    (hplain : ∀ c ∈ word, Text.isBlank c = false ∧ c ∉ ['[', ']', '"', '\''])
    (hcomment : ¬['/', '/'] <:+: word) : IsWord word := by
  induction word with
  | nil => trivial
  | cons c word ih =>
      obtain ⟨⟨hblank, hmarks⟩, hword⟩ := List.forall_mem_cons.mp hplain
      refine ⟨?_, ih hword fun hinfix => hcomment (List.infix_cons hinfix)⟩
      have hslashes : startsComment c word.head? = false := by
        by_contra hstarts
        simp only [startsComment, Bool.not_eq_false, Bool.and_eq_true, beq_iff_eq] at hstarts
        obtain ⟨rfl, hhead⟩ := hstarts
        obtain ⟨more, rfl⟩ := List.head?_eq_some_iff.mp hhead
        exact hcomment ⟨[], more, rfl⟩
      simp only [List.mem_cons, List.not_mem_nil, or_false, not_or] at hmarks
      simp [endsWord, hblank, hmarks, hslashes]

theorem Spells.scans (h : Spells text lexeme) : Scans text [lexeme] := by
  cases h with
  | «open» =>
      intro p tokens rest _
      exact ⟨p.advance '[', [⟨.open, p.next⟩], rfl, Scanner.run_cons rfl⟩
  | close =>
      intro p tokens rest _
      exact ⟨p.advance ']', [⟨.close, p.next⟩], rfl, Scanner.run_cons rfl⟩
  | word hne hplain hcomment => exact scans_word hne (isWord_of_plain hplain hcomment)
  | quoted hquote h => exact h.scans hquote

/-! ## Many tokens -/

/-- Tokens one behind the other.  A gap that begins with a blank stands behind each of them but
the last, and may stand there too. -/
inductive Lays : List Char → List Lexeme → Prop
  | nil : Lays [] []
  | last {spelling : List Char} {lexeme : Lexeme} (h : Spells spelling lexeme) :
      Lays spelling [lexeme]
  | cons {spelling gap text : List Char} {c : Char} {lexeme : Lexeme} {lexemes : List Lexeme}
      (h : Spells spelling lexeme) (hc : Text.isBlank c = true) (hgap : Gap gap)
      (hmore : Lays text lexemes) : Lays (spelling ++ (c :: gap ++ text)) (lexeme :: lexemes)

/-- The tokens of a text, with a gap before the first one. -/
inductive Laid : List Char → List Lexeme → Prop
  | mk {gap text : List Char} {lexemes : List Lexeme} (hgap : Gap gap) (h : Lays text lexemes) :
      Laid (gap ++ text) lexemes

theorem Lays.scans (h : Lays text lexemes) : Scans text lexemes := by
  induction h with
  | nil => exact .nil
  | last h => exact h.scans
  | cons h hc hgap _ ih =>
      refine h.scans.part (.blank hc hgap) (fun rest d hd => ?_) ih
      obtain rfl := Option.mem_some.mp hd
      exact Or.inl hc

/-- Its tokens are what the scanner finds in a text. -/
theorem Laid.exists_tokenize (h : Laid text lexemes) :
    ∃ tokens, tokenize text = .ok tokens ∧ tokens.map Token.lexeme = lexemes := by
  obtain ⟨hgap, h⟩ := h
  exact (h.scans.behind hgap).exists_tokenize

/-! ## Programs -/

/-- Two outcomes with the same items are the same, or both are failures. -/
theorem cases_of_toOption_eq {α ε : Type} {x y : Except ε α} (h : x.toOption = y.toOption) :
    (∃ a, x = .ok a ∧ y = .ok a) ∨ ∃ e e', x = .error e ∧ y = .error e' := by
  cases x with
  | ok a =>
      cases y with
      | ok b =>
          cases h
          exact Or.inl ⟨a, rfl, rfl⟩
      | error e' => cases h
  | error e =>
      cases y with
      | ok b => cases h
      | error e' => exact Or.inr ⟨e, e', rfl, rfl⟩

/-- Two texts in which the same tokens are laid out, but for the case of instructions, have just
these tokens.  They are the same program, or neither of them is a program. -/
theorem parseProgram_laid {text text' : String} (h : Laid text.toList lexemes)
    (h' : Laid text'.toList lexemes') (halike : List.Forall₂ Lexeme.Alike lexemes lexemes') :
    (∃ tokens, tokenize text.toList = .ok tokens ∧ tokens.map Token.lexeme = lexemes) ∧
    (∃ tokens, tokenize text'.toList = .ok tokens ∧ tokens.map Token.lexeme = lexemes') ∧
    ((∃ items, parseProgram text = .ok items ∧ parseProgram text' = .ok items) ∨
      ∃ e e', parseProgram text = .error e ∧ parseProgram text' = .error e') := by
  obtain ⟨tokens, htokens, rfl⟩ := h.exists_tokenize
  obtain ⟨tokens', htokens', rfl⟩ := h'.exists_tokenize
  refine ⟨⟨tokens, htokens, rfl⟩, ⟨tokens', htokens', rfl⟩, cases_of_toOption_eq ?_⟩
  rw [List.forall₂_map_left_iff, List.forall₂_map_right_iff] at halike
  rw [parseProgram_of_tokenize htokens, parseProgram_of_tokenize htokens']
  exact toOption_parseItems halike rfl []

/-- An instruction, and a text in brackets, in one line and in four, with comments between that
hold quotes and brackets. -/
theorem parseProgram_laid_comments :
    ∃ lexemes lexemes', Laid "op_dup [ 'a//b' ]".toList lexemes ∧
      Laid "// it's [\n OP_Dup\t// ]\n [\n\"a//b\" ] ".toList lexemes' ∧
      List.Forall₂ Lexeme.Alike lexemes lexemes' ∧
      ((∃ items, parseProgram "op_dup [ 'a//b' ]" = .ok items ∧
          parseProgram "// it's [\n OP_Dup\t// ]\n [\n\"a//b\" ] " = .ok items) ∨
        ∃ e e', parseProgram "op_dup [ 'a//b' ]" = .error e ∧
          parseProgram "// it's [\n OP_Dup\t// ]\n [\n\"a//b\" ] " = .error e') := by
  have hlower : Spells "op_dup".toList (.word "op_dup".toList) :=
    .word (by decide) (List.forall_iff_forall_mem.mp (by decide)) (by decide)
  have hmixed : Spells "OP_Dup".toList (.word "OP_Dup".toList) :=
    .word (by decide) (List.forall_iff_forall_mem.mp (by decide)) (by decide)
  have htext : ∀ {quote : Char}, quote = '"' ∨ quote = '\'' →
      Spells (quote :: ("a//b".toList ++ [quote])) (.quoted "a//b".toList) := by
    intro quote hquote
    have hplain : ∀ c ∈ ['a', '/', 'b'], c ≠ quote ∧ c ≠ '\\' := by
      rcases hquote with rfl | rfl <;> simp
    have ha := hplain 'a' (by simp)
    have hslash := hplain '/' (by simp)
    have hb := hplain 'b' (by simp)
    exact .quoted hquote (.plain ha.1 ha.2 (.plain hslash.1 hslash.2
      (.plain hslash.1 hslash.2 (.plain hb.1 hb.2 .nil))))
  have hbare : Laid "op_dup [ 'a//b' ]".toList
      [.word "op_dup".toList, .open, .quoted "a//b".toList, .close] :=
    .mk .nil (.cons hlower (c := ' ') (by decide) .nil
      (.cons .open (c := ' ') (by decide) .nil
        (.cons (htext (Or.inr rfl)) (c := ' ') (by decide) .nil (.last .close))))
  have hbroad : Laid "// it's [\n OP_Dup\t// ]\n [\n\"a//b\" ] ".toList
      [.word "OP_Dup".toList, .open, .quoted "a//b".toList, .close] :=
    .mk (.comment (show '\n' ∉ " it's [".toList by decide) (.blank (c := ' ') (by decide) .nil))
      (.cons hmixed (c := '\t') (by decide)
        (.comment (show '\n' ∉ " ]".toList by decide) (.blank (c := ' ') (by decide) .nil))
        (.cons .open (c := '\n') (by decide) .nil
          (.cons (htext (Or.inl rfl)) (c := ' ') (by decide) .nil
            (.cons .close (c := ' ') (by decide) .nil .nil))))
  have halike : List.Forall₂ Lexeme.Alike
      [.word "op_dup".toList, .open, .quoted "a//b".toList, .close]
      [.word "OP_Dup".toList, .open, .quoted "a//b".toList, .close] :=
    .cons (.recased ⟨rfl, by decide⟩) (.cons (.refl _) (.cons (.refl _) (.cons (.refl _) .nil)))
  exact ⟨_, _, hbare, hbroad, halike, (parseProgram_laid hbare hbroad halike).2.2⟩

end ScriptLedger.Script
