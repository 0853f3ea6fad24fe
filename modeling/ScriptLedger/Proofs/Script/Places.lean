import ScriptLedger.Proofs.Script.Parser

/-!
# Where failures show

A failure shows a line and a column, so that one who has written a program finds what is wrong
with it.  Lines and columns count from one, and the end of a line is the last character of it.

The scanner keeps the place of the last character that it has read.  Tokens, texts that are not
closed and lists that are not closed show the place of their first character, and a quote that
nothing may follow its own.  All of these are characters of the program.

One failure is not.  A backslash that nothing else may stand behind shows the place of the
character behind it once that has been read; and to have read the end of a line is to stand
before the next one, in column zero.

## Main results

* `Script.inside_next` — the place behind what has been read is that of the next character.
* `Script.Scanner.Placed.step` — one character keeps all places inside the program.
* `Script.parseProgram_place` — failures show a character, except at an escaped end of line.
* `Script.exists_parseProgram_outside` — a program whose failure shows none.
-/

namespace ScriptLedger.Script

variable {c : Char} {text read rest : List Char} {place : Place} {tokens : List Token}
  {e : ParseError} {s s' : Scanner} {mode : Mode} {behind : Option Char}

/-! ## Lines -/

/-- The lines of a text, each with the end of line that belongs to it. -/
def lines : List Char → List (List Char)
  | [] => [[]]
  | c :: rest => if c = '\n' then [c] :: lines rest else (lines rest).modifyHead (c :: ·)

theorem exists_lines (text : List Char) : ∃ line more, lines text = line :: more := by
  cases text with
  | nil => exact ⟨[], [], rfl⟩
  | cons c rest =>
      rw [lines]
      by_cases hc : c = '\n'
      · exact ⟨[c], lines rest, if_pos hc⟩
      · obtain ⟨line, more, hlines⟩ := exists_lines rest
        exact ⟨c :: line, more, by rw [if_neg hc, hlines, List.modifyHead_cons]⟩

theorem lines_newline (rest : List Char) : lines ('\n' :: rest) = ['\n'] :: lines rest :=
  if_pos rfl

theorem lines_cons_of_ne (hc : c ≠ '\n') {line : List Char} {more : List (List Char)}
    (h : lines rest = line :: more) : lines (c :: rest) = (c :: line) :: more := by
  rw [lines, if_neg hc, h, List.modifyHead_cons]

theorem length_lines (text : List Char) : (lines text).length = text.count '\n' + 1 := by
  induction text with
  | nil => rfl
  | cons c rest ih =>
      by_cases hc : c = '\n'
      · rw [hc, lines_newline, List.length_cons, ih, List.count_cons_self]
      · obtain ⟨line, more, hlines⟩ := exists_lines rest
        rw [lines_cons_of_ne hc hlines, List.count_cons_of_ne hc, ← ih, hlines]
        rfl

theorem flatten_lines (text : List Char) : (lines text).flatten = text := by
  induction text with
  | nil => rfl
  | cons c rest ih =>
      by_cases hc : c = '\n'
      · rw [hc, lines_newline, List.flatten_cons, ih]
        rfl
      · obtain ⟨line, more, hlines⟩ := exists_lines rest
        rw [hlines, List.flatten_cons] at ih
        rw [lines_cons_of_ne hc hlines, List.flatten_cons, List.cons_append, ih]

/-- A place is that of a character of a text. -/
structure Inside (text : List Char) (place : Place) : Prop where
  line_pos : 1 ≤ place.line
  column_pos : 1 ≤ place.column
  column_le : ∃ line, (lines text)[place.line - 1]? = some line ∧ place.column ≤ line.length

/-- The place of the last character of a text. -/
def Place.after (read : List Char) : Place := read.foldl Place.advance Place.start

theorem Place.after_append (read : List Char) (c : Char) :
    Place.after (read ++ [c]) = (Place.after read).advance c := by
  rw [Place.after, List.foldl_append]
  rfl

theorem Place.advance_of_ne (hc : c ≠ '\n') (p : Place) : p.advance c = p.next := if_neg hc

/-- Counting on from a place: the first line that is left may have lost the columns before it. -/
theorem exists_line (p : Place) (read : List Char) (c : Char) (rest : List Char) :
    p.line ≤ (read.foldl Place.advance p).line ∧
    ∃ line, (lines (read ++ c :: rest))[(read.foldl Place.advance p).line - p.line]? = some line ∧
      (read.foldl Place.advance p).column + 1 ≤
        line.length + if (read.foldl Place.advance p).line = p.line then p.column else 0 := by
  induction read generalizing p with
  | nil =>
      refine ⟨Nat.le_refl _, ?_⟩
      rw [List.foldl_nil, Nat.sub_self, if_pos rfl, List.nil_append]
      by_cases hc : c = '\n'
      · exact ⟨['\n'], by rw [hc, lines_newline]; rfl, by rw [List.length_singleton]; omega⟩
      · obtain ⟨line, more, hlines⟩ := exists_lines rest
        exact ⟨c :: line, by rw [lines_cons_of_ne hc hlines]; rfl, by rw [List.length_cons]; omega⟩
  | cons d read ih =>
      obtain ⟨hle, line, hline, hcolumn⟩ := ih (p.advance d)
      rw [List.foldl_cons, List.cons_append]
      by_cases hd : d = '\n'
      · -- The next line begins, and has all its columns.
        obtain rfl := hd
        have hadvance : p.advance '\n' = ⟨p.line + 1, 0⟩ := if_pos rfl
        rw [hadvance] at hle hline hcolumn ⊢
        generalize read.foldl Place.advance ⟨p.line + 1, 0⟩ = q at hle hline hcolumn ⊢
        dsimp only at hle hline hcolumn
        rw [ite_self] at hcolumn
        refine ⟨by omega, line, ?_, Nat.le_add_right_of_le hcolumn⟩
        rw [lines_newline, show q.line - p.line = (q.line - (p.line + 1)) + 1 by omega]
        exact hline
      · have hadvance : p.advance d = ⟨p.line, p.column + 1⟩ := if_neg hd
        obtain ⟨first, more, hlines⟩ := exists_lines (read ++ c :: rest)
        rw [hadvance] at hle hline hcolumn ⊢
        generalize read.foldl Place.advance ⟨p.line, p.column + 1⟩ = q at hle hline hcolumn ⊢
        dsimp only at hle hline hcolumn
        rw [lines_cons_of_ne hd hlines]
        rw [hlines] at hline
        refine ⟨hle, ?_⟩
        by_cases hfirst : q.line = p.line
        · rw [hfirst, Nat.sub_self] at hline
          obtain rfl := Option.some.inj hline
          rw [if_pos hfirst] at hcolumn
          refine ⟨d :: first, by rw [hfirst, Nat.sub_self]; rfl, ?_⟩
          rw [if_pos hfirst, List.length_cons]
          omega
        · rw [if_neg hfirst] at hcolumn
          obtain ⟨n, hn⟩ : ∃ n, q.line - p.line = n + 1 := ⟨q.line - p.line - 1, by omega⟩
          rw [hn] at hline ⊢
          exact ⟨line, hline, by rw [if_neg hfirst]; exact hcolumn⟩

/-- Behind what has been read is the place of the next character. -/
theorem inside_next (read : List Char) (c : Char) (rest : List Char) :
    Inside (read ++ c :: rest) (Place.after read).next := by
  obtain ⟨hle, line, hline, hcolumn⟩ := exists_line Place.start read c rest
  refine ⟨hle, Nat.succ_pos _, line, hline, ?_⟩
  have hstart : Place.start.column = 0 := rfl
  rw [hstart, ite_self] at hcolumn
  exact hcolumn

/-! ## The scanner -/

/-- A backslash stands at the end of a line, and the failure shows neither of them: it shows the
place before the next line. -/
def EscapesLineEnd (text : List Char) (e : ParseError) : Prop :=
  ∃ before after, text = before ++ '\\' :: '\n' :: after ∧
    e = ⟨⟨(Place.after (before ++ ['\\'])).line + 1, 0⟩, .badEscape⟩

theorem EscapesLineEnd.not_inside (h : EscapesLineEnd text e) : ¬Inside text e.place := by
  obtain ⟨before, after, -, rfl⟩ := h
  exact fun hinside => Nat.not_succ_le_zero 0 hinside.column_pos

/-- A success is good, and a failure shows a character of the text or an escaped end of line. -/
def Locates {α : Type} (text : List Char) (good : α → Prop) : Except ParseError α → Prop
  | .ok a => good a
  | .error e => Inside text e.place ∨ EscapesLineEnd text e

/-- The places that a scanner remembers are inside the text, and so is that of the last character
where it may be shown. -/
def Mode.Placed (text read : List Char) : Mode → Prop
  | .between | .comment => True
  | .word start _ => Inside text start
  | .quoted quote start _ => quote ≠ '\n' ∧ Inside text start
  | .escaped quote start _ => (quote ≠ '\n' ∧ Inside text start) ∧
      Inside text (Place.after read) ∧ ∃ before, read = before ++ ['\\']
  | .closed start _ => Inside text start ∧ Inside text (Place.after read)

namespace Scanner

/-- A scanner that has read the beginning of a text. -/
structure Placed (text read : List Char) (s : Scanner) : Prop where
  place : s.place = Place.after read
  tokens : ∀ token ∈ s.tokens, Inside text token.place
  mode : s.mode.Placed text read

theorem placed_start (text : List Char) : Placed text [] ⟨.between, Place.start, []⟩ :=
  ⟨rfl, nofun, trivial⟩

/-- The place of a character that is no end of line, once it has been read. -/
theorem inside_after (hc : c ≠ '\n') :
    Inside (read ++ c :: rest) (Place.after (read ++ [c])) := by
  rw [Place.after_append, Place.advance_of_ne hc]
  exact inside_next read c rest

namespace Placed

theorem inside_next (h : s.Placed (read ++ c :: rest) read) :
    Inside (read ++ c :: rest) s.place.next := by
  rw [h.place]
  exact Script.inside_next read c rest

theorem move (h : s.Placed text read) (htokens : ∀ token ∈ tokens, Inside text token.place)
    (hmode : mode.Placed text (read ++ [c])) :
    (s.move c mode tokens).Placed text (read ++ [c]) := by
  refine ⟨?_, htokens, hmode⟩
  rw [Place.after_append, ← h.place]
  rfl

/-- A character in the middle of nothing. -/
theorem begin (h : s.Placed (read ++ c :: rest) read)
    (htokens : ∀ token ∈ tokens, Inside (read ++ c :: rest) token.place) (behind : Option Char) :
    (s.begin tokens c behind).Placed (read ++ c :: rest) (read ++ [c]) := by
  have hone : ∀ lexeme, ∀ token ∈ ⟨lexeme, s.place.next⟩ :: tokens,
      Inside (read ++ c :: rest) token.place := fun _ =>
    List.forall_mem_cons.mpr ⟨h.inside_next, htokens⟩
  unfold Scanner.begin
  split_ifs with hblank hopen hclose hquote hslash
  · exact h.move htokens trivial
  · exact h.move (hone _) trivial
  · exact h.move (hone _) trivial
  · refine h.move htokens ⟨?_, h.inside_next⟩
    rintro rfl
    exact hblank (by decide)
  · exact h.move htokens trivial
  · exact h.move htokens h.inside_next

/-- One character keeps all places inside the text. -/
theorem step (h : s.Placed (read ++ c :: rest) read) (behind : Option Char) :
    Locates (read ++ c :: rest) (Placed (read ++ c :: rest) (read ++ [c])) (s.step c behind) := by
  have hmode := h.mode
  unfold Scanner.step
  cases hs : s.mode with
  | between => exact h.begin h.tokens behind
  | comment => exact h.move h.tokens (by split <;> trivial)
  | word start word =>
      rw [hs] at hmode
      have hstart : Inside (read ++ c :: rest) start := hmode
      dsimp only
      split_ifs
      · exact h.begin (List.forall_mem_cons.mpr ⟨hstart, h.tokens⟩) behind
      · exact h.move h.tokens hstart
  | quoted quote start word =>
      rw [hs] at hmode
      obtain ⟨hquote, hstart⟩ := hmode
      dsimp only
      split_ifs with hslash hclose
      · obtain rfl := hslash
        exact h.move h.tokens ⟨⟨hquote, hstart⟩, inside_after (by decide), read, rfl⟩
      · obtain rfl := hclose
        exact h.move h.tokens ⟨hstart, inside_after hquote⟩
      · exact h.move h.tokens ⟨hquote, hstart⟩
  | escaped quote start word =>
      rw [hs] at hmode
      obtain ⟨hquoted, -, before, rfl⟩ := hmode
      dsimp only
      split_ifs with hescape
      · exact h.move h.tokens hquoted
      · rw [h.place]
        by_cases hc : c = '\n'
        · obtain rfl := hc
          exact Or.inr ⟨before, rest, by simp, rfl⟩
        · left
          rw [← Place.after_append]
          exact inside_after hc
  | closed start word =>
      rw [hs] at hmode
      obtain ⟨hstart, hafter⟩ := hmode
      dsimp only
      split_ifs
      · exact h.begin (List.forall_mem_cons.mpr ⟨hstart, h.tokens⟩) behind
      · rw [h.place]
        exact Or.inl hafter

/-- And so does the end of the text. -/
theorem finish (h : s.Placed text read) :
    Locates text (fun tokens => ∀ token ∈ tokens, Inside text token.place) s.finish := by
  have hmode := h.mode
  have hgiven : ∀ given : List Token, (∀ token ∈ given, Inside text token.place) →
      ∀ token ∈ given.reverse, Inside text token.place := fun given hall token hmem =>
    hall token (List.mem_reverse.mp hmem)
  unfold Scanner.finish
  cases hs : s.mode with
  | between | comment => exact hgiven _ h.tokens
  | word start word =>
      rw [hs] at hmode
      exact hgiven _ (List.forall_mem_cons.mpr ⟨hmode, h.tokens⟩)
  | closed start word =>
      rw [hs] at hmode
      exact hgiven _ (List.forall_mem_cons.mpr ⟨hmode.1, h.tokens⟩)
  | quoted quote start word =>
      rw [hs] at hmode
      exact Or.inl hmode.2
  | escaped quote start word =>
      rw [hs] at hmode
      dsimp only
      rw [h.place]
      exact Or.inl hmode.2.1

/-- All places are inside the text, whatever is read of it. -/
theorem run (h : s.Placed (read ++ rest) read) :
    Locates (read ++ rest) (fun tokens => ∀ token ∈ tokens, Inside (read ++ rest) token.place)
      (s.run rest) := by
  induction rest generalizing s read with
  | nil => exact h.finish
  | cons c rest ih =>
      have hstep := h.step rest.head?
      rw [Scanner.run]
      cases hs : s.step c rest.head? with
      | error e =>
          rw [hs] at hstep
          exact hstep
      | ok s' =>
          rw [hs] at hstep
          rw [List.append_cons] at hstep ⊢
          exact ih hstep

end Placed

end Scanner

/-- So all tokens of a text have their places in it. -/
theorem locates_tokenize (text : List Char) :
    Locates text (fun tokens => ∀ token ∈ tokens, Inside text token.place) (tokenize text) := by
  have hstart : Scanner.Placed ([] ++ text) [] ⟨.between, Place.start, []⟩ :=
    Scanner.placed_start text
  exact hstart.run

/-! ## Programs -/

/-- A failure shows a character of the program exactly if it is not about an end of line behind a
backslash. -/
theorem parseProgram_place {text : String} (h : parseProgram text = .error e) :
    Inside text.toList e.place ↔ ¬EscapesLineEnd text.toList e := by
  have hscan := locates_tokenize text.toList
  cases htokens : tokenize text.toList with
  | ok tokens =>
      rw [htokens] at hscan
      rw [parseProgram_of_tokenize htokens] at h
      have hinside := place_of_parseItems (fun _ hmem => absurd hmem List.not_mem_nil) hscan h
      exact ⟨fun _ hescapes => hescapes.not_inside hinside, fun _ => hinside⟩
  | error e' =>
      rw [htokens] at hscan
      rw [parseProgram, htokens] at h
      obtain rfl : e' = e := Except.error.inj h
      exact ⟨fun hinside hescapes => hescapes.not_inside hinside, hscan.resolve_right⟩

/-- A word in the second line is no token, and its first character is shown. -/
theorem parseProgram_place_second_line :
    ∃ e, parseProgram "1 2\n  bogus" = .error e ∧ e.place = ⟨2, 3⟩ ∧
      Inside "1 2\n  bogus".toList e.place := by
  have hfailed : parseProgram "1 2\n  bogus" = .error ⟨⟨2, 3⟩, .invalidToken "bogus"⟩ := by rfl
  refine ⟨_, hfailed, rfl, (parseProgram_place hfailed).mpr ?_⟩
  rintro ⟨before, after, -, hescape⟩
  exact nomatch congrArg ParseError.cause hescape

/-- A text with an escaped end of line shows a place that no character has. -/
theorem exists_parseProgram_outside :
    ∃ (text : String) (e : ParseError), parseProgram text = .error e ∧
      ¬Inside text.toList e.place :=
  ⟨"\"\\\n", ⟨⟨2, 0⟩, .badEscape⟩, by rfl, fun h => Nat.not_succ_le_zero 0 h.column_pos⟩

end ScriptLedger.Script
