import ScriptLedger.Script.Token

/-!
# What the scanner makes of a spelling

The scanner gives a token out when it meets what stands behind it, so a spelling is looked at
with anything behind it that parts it: a blank, a closing bracket, or nothing.  Such a spelling
leaves the scanner in the middle of nothing, with the tokens it spells, and so spellings can be
put together.

Which tokens these are is told by their lexemes.  Their places depend on what stands before
them, and only failures show places.

Blanks and comments leave the scanner where they find it, in the middle of nothing.

## Main results

* `Script.scans_word` — characters that do not end a word spell one.
* `Script.Quotes.scans` — two quotes with anything between them that the scanner understands
  spell a text.
* `Script.Gap.run` — nothing comes of blanks and comments.
* `Script.Scans.part`, `Script.Scans.brackets` — spellings with a gap between them, and between
  brackets.
* `Script.Scans.exists_tokenize` — a text that is spelled has the tokens that it spells.
-/

namespace ScriptLedger.Script

variable {c : Char} {rest word text text' : List Char} {p start : Place} {tokens : List Token}
variable {lexemes lexemes' : List Lexeme}

/-- Nothing follows, or what no token goes on with. -/
def Parted (rest : List Char) : Prop := ∀ c ∈ rest.head?, Text.isBlank c = true ∨ c = ']'

theorem parted_nil : Parted [] := nofun

theorem parted_blank (rest : List Char) : Parted (' ' :: rest) := by
  rintro c ⟨⟩
  exact Or.inl (by decide)

theorem parted_close (rest : List Char) : Parted (']' :: rest) := by
  rintro c ⟨⟩
  exact Or.inr rfl

/-- A spelling becomes tokens wherever it stands, if it is parted from what follows. -/
def Scans (text : List Char) (lexemes : List Lexeme) : Prop :=
  ∀ (p : Place) (tokens : List Token) (rest : List Char), Parted rest →
    ∃ (p' : Place) (read : List Token), read.map Token.lexeme = lexemes ∧
      Scanner.run ⟨.between, p, tokens⟩ (text ++ rest) =
        Scanner.run ⟨.between, p', read.reverse ++ tokens⟩ rest

namespace Scanner

theorem run_cons {s s' : Scanner} (h : s.step c rest.head? = .ok s') :
    s.run (c :: rest) = s'.run rest := by
  rw [run, h]

/-! ## The end of a token -/

theorem endsWord_of_parted (h : Parted (c :: rest)) (next : Option Char) :
    endsWord c next = true := by
  rcases h c rfl with hblank | rfl
  · simp [endsWord, hblank]
  · simp [endsWord]

/-- A word that is parted from what follows might as well have been given out. -/
theorem run_word_of_parted (read : List Char) (h : Parted rest) :
    run ⟨.word start read, p, tokens⟩ rest =
      run ⟨.between, p, ⟨.word read.reverse, start⟩ :: tokens⟩ rest := by
  cases rest with
  | nil => rfl
  | cons c rest =>
      rw [run, run, step, step]
      dsimp only
      rw [if_pos (endsWord_of_parted h _)]
      rfl

/-- And so might a text. -/
theorem run_closed_of_parted (read : List Char) (h : Parted rest) :
    run ⟨.closed start read, p, tokens⟩ rest =
      run ⟨.between, p, ⟨.quoted read.reverse, start⟩ :: tokens⟩ rest := by
  cases rest with
  | nil => rfl
  | cons c rest =>
      rw [run, run, step, step]
      dsimp only
      rw [if_pos (h c rfl)]
      rfl

end Scanner

open Scanner

/-! ## Words -/

/-- No character ends the word, given the one behind it. -/
def IsWord : List Char → Prop
  | [] => True
  | c :: rest => endsWord c rest.head? = false ∧ IsWord rest

/-- A character that ends no word even before a slash ends none. -/
theorem endsWord_of_slash (h : endsWord c (some '/') = false) (next : Option Char) :
    endsWord c next = false := by
  simp only [endsWord, startsComment, Bool.or_eq_false_iff] at h ⊢
  obtain ⟨hends, hslash⟩ := h
  refine ⟨hends, ?_⟩
  rw [beq_self_eq_true, Bool.and_true] at hslash
  rw [hslash, Bool.false_and]

theorem isWord_of_forall (h : ∀ c ∈ word, endsWord c (some '/') = false) : IsWord word := by
  induction word with
  | nil => trivial
  | cons c word ih =>
      obtain ⟨hc, hword⟩ := List.forall_mem_cons.mp h
      exact ⟨endsWord_of_slash hc _, ih hword⟩

/-- What follows a word is no slash, so it makes no comment with the last character. -/
theorem endsWord_append (h : Parted rest) :
    endsWord c (word ++ rest).head? = endsWord c word.head? := by
  cases word with
  | cons d word => rfl
  | nil =>
      cases rest with
      | nil => rfl
      | cons d rest =>
          have hd : (d == '/') = false := by
            rcases h d rfl with hblank | rfl
            · rw [beq_eq_false_iff_ne]
              rintro rfl
              exact absurd hblank (by decide)
            · rfl
          simp [endsWord, startsComment, hd]

/-- Where a character ends no word, one begins. -/
theorem begin_of_word (s : Scanner) (tokens : List Token) {next : Option Char}
    (h : endsWord c next = false) :
    s.begin tokens c next = s.move c (.word s.place.next [c]) tokens := by
  simp only [endsWord, Bool.or_eq_false_iff, beq_eq_false_iff_ne] at h
  obtain ⟨⟨⟨⟨⟨hblank, hopen⟩, hclose⟩, hquote⟩, hquote'⟩, hslash⟩ := h
  simp [Scanner.begin, hblank, hopen, hclose, hquote, hquote', hslash]

theorem run_word_append (start p : Place) (tokens : List Token) (hword : IsWord word)
    (hrest : Parted rest) (read : List Char) :
    ∃ p', Scanner.run ⟨.word start read, p, tokens⟩ (word ++ rest) =
      Scanner.run ⟨.word start (word.reverse ++ read), p', tokens⟩ rest := by
  induction word generalizing p read with
  | nil => exact ⟨p, rfl⟩
  | cons c word ih =>
      obtain ⟨hc, hword⟩ := hword
      obtain ⟨p', hrun⟩ := ih (p.advance c) hword (c :: read)
      refine ⟨p', ?_⟩
      have hstep : Scanner.step ⟨.word start read, p, tokens⟩ c (word ++ rest).head? =
          .ok ⟨.word start (c :: read), p.advance c, tokens⟩ := by
        rw [step]
        dsimp only
        rw [endsWord_append hrest, hc]
        rfl
      rw [List.cons_append, run_cons hstep, hrun]
      simp

theorem scans_word (hne : word ≠ []) (hword : IsWord word) : Scans word [.word word] := by
  intro p tokens rest hrest
  obtain ⟨c, word, rfl⟩ := List.exists_cons_of_ne_nil hne
  obtain ⟨hc, hword⟩ := hword
  obtain ⟨p', hrun⟩ := run_word_append p.next (p.advance c) tokens hword hrest [c]
  refine ⟨p', [⟨.word (c :: word), p.next⟩], rfl, ?_⟩
  have hstep : Scanner.step ⟨.between, p, tokens⟩ c (word ++ rest).head? =
      .ok ⟨.word p.next [c], p.advance c, tokens⟩ :=
    congrArg Except.ok (begin_of_word _ tokens ((endsWord_append hrest).trans hc))
  rw [List.cons_append, run_cons hstep, hrun, run_word_of_parted _ hrest]
  simp

/-! ## Texts between quotes -/

/-- What stands between two quotes, and the text that it means.  A character means itself, unless
it is the quote or a backslash; a backslash and a double quote may stand behind a backslash. -/
inductive Quotes (quote : Char) : (inside text : List Char) → Prop
  | nil : Quotes quote [] []
  | plain {c : Char} {inside text : List Char} (hquote : c ≠ quote) (hslash : c ≠ '\\')
      (h : Quotes quote inside text) : Quotes quote (c :: inside) (c :: text)
  | escape {c : Char} {inside text : List Char} (hc : c = '\\' ∨ c = '"')
      (h : Quotes quote inside text) : Quotes quote ('\\' :: c :: inside) (c :: text)

namespace Quotes

variable {quote : Char} {inside : List Char}

/-- The scanner reads what is meant. -/
theorem run (h : Quotes quote inside text) (start p : Place) (tokens : List Token)
    (rest read : List Char) :
    ∃ p', Scanner.run ⟨.quoted quote start read, p, tokens⟩ (inside ++ rest) =
      Scanner.run ⟨.quoted quote start (text.reverse ++ read), p', tokens⟩ rest := by
  induction h generalizing p read with
  | nil => exact ⟨p, rfl⟩
  | @plain c inside text hquote hslash _ ih =>
      obtain ⟨p', hmore⟩ := ih (p.advance c) (c :: read)
      have hstep : ∀ next, Scanner.step ⟨.quoted quote start read, p, tokens⟩ c next =
          .ok ⟨.quoted quote start (c :: read), p.advance c, tokens⟩ :=
        fun _ => (if_neg hslash).trans (if_neg hquote)
      refine ⟨p', ?_⟩
      rw [List.cons_append, run_cons (hstep _), hmore]
      simp
  | @escape c inside text hc _ ih =>
      obtain ⟨p', hmore⟩ := ih ((p.advance '\\').advance c) (c :: read)
      have hslash : ∀ next, Scanner.step ⟨.quoted quote start read, p, tokens⟩ '\\' next =
          .ok ⟨.escaped quote start read, p.advance '\\', tokens⟩ := fun _ => rfl
      have hescaped : ∀ p next, Scanner.step ⟨.escaped quote start read, p, tokens⟩ c next =
          .ok ⟨.quoted quote start (c :: read), p.advance c, tokens⟩ := fun _ _ => if_pos hc
      refine ⟨p', ?_⟩
      rw [List.cons_append, run_cons (hslash _), List.cons_append, run_cons (hescaped _ _), hmore]
      simp

/-- A quote begins a text and the next one of its sort ends it. -/
theorem scans (h : Quotes quote inside text) (hquote : quote = '"' ∨ quote = '\'') :
    Scans (quote :: (inside ++ [quote])) [.quoted text] := by
  intro p tokens rest hrest
  obtain ⟨p', hrun⟩ := h.run p.next (p.advance quote) tokens (quote :: rest) []
  refine ⟨p'.advance quote, [⟨.quoted text, p.next⟩], rfl, ?_⟩
  have hopen : ∀ next, Scanner.step ⟨.between, p, tokens⟩ quote next =
      .ok ⟨.quoted quote p.next [], p.advance quote, tokens⟩ := by
    rcases hquote with rfl | rfl <;> exact fun _ => rfl
  have hclose : ∀ read next, Scanner.step ⟨.quoted quote p.next read, p', tokens⟩ quote next =
      .ok ⟨.closed p.next read, p'.advance quote, tokens⟩ := by
    rcases hquote with rfl | rfl <;> exact fun _ _ => rfl
  rw [List.cons_append, List.append_assoc, List.singleton_append, run_cons (hopen _), hrun,
    run_cons (hclose _ _), run_closed_of_parted _ hrest]
  simp

end Quotes

/-! ## Gaps -/

/-- Blanks and comments in any order.  A comment goes up to the end of its line. -/
inductive Gap : List Char → Prop
  | nil : Gap []
  | blank {c : Char} {more : List Char} (hc : Text.isBlank c = true) (h : Gap more) :
      Gap (c :: more)
  | comment {text more : List Char} (htext : '\n' ∉ text) (h : Gap more) :
      Gap ('/' :: '/' :: (text ++ '\n' :: more))

/-- A comment may say anything, as long as it does so in one line. -/
theorem run_comment (htext : '\n' ∉ text) (p : Place) (tokens : List Token) (rest : List Char) :
    ∃ p', Scanner.run ⟨.comment, p, tokens⟩ (text ++ '\n' :: rest) =
      Scanner.run ⟨.between, p', tokens⟩ rest := by
  induction text generalizing p with
  | nil =>
      have hend : ∀ next, Scanner.step ⟨.comment, p, tokens⟩ '\n' next =
          .ok ⟨.between, p.advance '\n', tokens⟩ := fun _ => rfl
      exact ⟨p.advance '\n', run_cons (hend _)⟩
  | cons c text ih =>
      obtain ⟨hc, htext⟩ := List.ne_and_not_mem_of_not_mem_cons htext
      obtain ⟨p', hmore⟩ := ih htext (p.advance c)
      have hstep : ∀ next, Scanner.step ⟨.comment, p, tokens⟩ c next =
          .ok ⟨.comment, p.advance c, tokens⟩ := by
        intro next
        simp only [step, move, if_neg hc.symm]
      exact ⟨p', by rw [List.cons_append, run_cons (hstep _), hmore]⟩

/-- Nothing comes of a gap, whatever follows it. -/
theorem Gap.run {gap : List Char} (h : Gap gap) (p : Place) (tokens : List Token)
    (rest : List Char) :
    ∃ p', Scanner.run ⟨.between, p, tokens⟩ (gap ++ rest) =
      Scanner.run ⟨.between, p', tokens⟩ rest := by
  induction h generalizing p with
  | nil => exact ⟨p, rfl⟩
  | @blank c more hc _ ih =>
      obtain ⟨p', hmore⟩ := ih (p.advance c)
      have hstep : ∀ next, Scanner.step ⟨.between, p, tokens⟩ c next =
          .ok ⟨.between, p.advance c, tokens⟩ := by
        intro next
        simp only [step, begin, if_pos hc, move]
      exact ⟨p', by rw [List.cons_append, run_cons (hstep _), hmore]⟩
  | @comment text more htext _ ih =>
      -- The second slash is already inside the comment that the first one begins.
      have hinside : '\n' ∉ '/' :: text := List.not_mem_cons_of_ne_of_not_mem (by decide) htext
      obtain ⟨p₁, hcomment⟩ := run_comment hinside (p.advance '/') tokens (more ++ rest)
      obtain ⟨p₂, hmore⟩ := ih p₁
      have hstep : Scanner.step ⟨.between, p, tokens⟩ '/' (some '/') =
          .ok ⟨.comment, p.advance '/', tokens⟩ := rfl
      refine ⟨p₂, ?_⟩
      rw [← hmore, ← hcomment, List.cons_append, List.cons_append, List.append_assoc,
        List.cons_append, List.cons_append]
      exact run_cons hstep

/-! ## Spellings put together -/

namespace Scans

theorem nil : Scans [] [] := fun p _ _ _ => ⟨p, [], rfl, rfl⟩

/-- A spelling behind a gap. -/
theorem behind {gap : List Char} (h : Scans text lexemes) (hgap : Gap gap) :
    Scans (gap ++ text) lexemes := by
  intro p tokens rest hrest
  obtain ⟨p₁, hblank⟩ := hgap.run p tokens (text ++ rest)
  obtain ⟨p₂, read, hread, hrun⟩ := h p₁ tokens rest hrest
  exact ⟨p₂, read, hread, by rw [List.append_assoc, hblank, hrun]⟩

/-- Two spellings with a gap between them that parts them. -/
theorem part {gap : List Char} (h : Scans text lexemes) (hgap : Gap gap)
    (hparted : ∀ rest, Parted (gap ++ rest)) (h' : Scans text' lexemes') :
    Scans (text ++ (gap ++ text')) (lexemes ++ lexemes') := by
  intro p tokens rest hrest
  obtain ⟨p₁, read, hread, hrun⟩ := h p tokens (gap ++ (text' ++ rest)) (hparted _)
  obtain ⟨p₂, read', hread', hrun'⟩ :=
    h'.behind hgap p₁ (read.reverse ++ tokens) rest hrest
  refine ⟨p₂, read ++ read', by rw [List.map_append, hread, hread'], ?_⟩
  rw [List.append_assoc, List.append_assoc, hrun, ← List.append_assoc, hrun']
  simp

/-- Two spellings with a space between them. -/
theorem blank (h : Scans text lexemes) (h' : Scans text' lexemes') :
    Scans (text ++ ' ' :: text') (lexemes ++ lexemes') :=
  h.part (.blank (by decide) .nil : Gap [' ']) parted_blank h'

/-- A spelling between brackets. -/
theorem brackets (h : Scans text lexemes) :
    Scans ('[' :: (text ++ [']'])) (.open :: (lexemes ++ [.close])) := by
  intro p tokens rest _
  obtain ⟨p', read, hread, hrun⟩ :=
    h (p.advance '[') (⟨.open, p.next⟩ :: tokens) (']' :: rest) (parted_close rest)
  refine ⟨p'.advance ']', ⟨.open, p.next⟩ :: (read ++ [⟨.close, p'.next⟩]), by simp [hread], ?_⟩
  have hopen : ∀ next, Scanner.step ⟨.between, p, tokens⟩ '[' next =
      .ok ⟨.between, p.advance '[', ⟨.open, p.next⟩ :: tokens⟩ := fun _ => rfl
  have hclose : ∀ tokens next, Scanner.step ⟨.between, p', tokens⟩ ']' next =
      .ok ⟨.between, p'.advance ']', ⟨.close, p'.next⟩ :: tokens⟩ := fun _ _ => rfl
  rw [List.cons_append, List.append_assoc, List.singleton_append, run_cons (hopen _), hrun,
    run_cons (hclose _ _)]
  simp

/-- A text that is spelled has the tokens that it spells. -/
theorem exists_tokenize (h : Scans text lexemes) :
    ∃ tokens, tokenize text = .ok tokens ∧ tokens.map Token.lexeme = lexemes := by
  obtain ⟨p, read, hread, hrun⟩ := h Place.start [] [] parted_nil
  refine ⟨read, ?_, hread⟩
  rw [List.append_nil, List.append_nil] at hrun
  rw [tokenize, hrun, run, finish]
  simp

end Scans

end ScriptLedger.Script
