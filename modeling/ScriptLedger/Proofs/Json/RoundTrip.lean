import Mathlib.Data.List.TakeWhile
import ScriptLedger.Json.Printer
import ScriptLedger.Json.Reader

/-!
# The text of a document is read as the document

The compact text of a document is read back as just this document, members in the order in
which it has them.  So no two documents have one text.

Both halves of the reader are run on what the printer writes, with anything behind it.  The
lexer takes a run of bare characters whole, so what stands behind a number must not be bare;
behind a value the printer writes a comma or a closing bracket, or nothing.  The parser comes
out of a value in the frames in which it went in.

## Main results

* `Json.lex_render` — the text of a document becomes its tokens.
* `Json.parse_written` — the tokens of a document become the document.
* `Json.parse?_print`, `Json.print_inj` — reading undoes printing.
-/

namespace ScriptLedger.Json

/-- Every part of the document has a value, and every number fits a word. -/
inductive Writable : Json → Prop
  | null : Writable .null
  | bool (value : Bool) : Writable (.bool value)
  | int {value : Int} (hlow : -(UInt64.size / 2 : Nat) ≤ value) (hhigh : value < UInt64.size) :
      Writable (.int value)
  | text (value : String) : Writable (.text value)
  | array {items : List Json} (hitems : ∀ item ∈ items, Writable item) : Writable (.array items)
  | object {members : List (String × Json)} (hmembers : ∀ member ∈ members, Writable member.2) :
      Writable (.object members)

/-! ## Numbers -/

theorem decimal_toDigits (n : Nat) : decimal (Nat.toDigits 10 n) = n :=
  Nat.ofDigitChars_ten_toDigits

theorem isDigit_of_mem {n : Nat} {c : Char} (h : c ∈ Nat.toDigits 10 n) : c.isDigit = true :=
  Nat.isDigit_of_mem_toDigits (by decide) (by decide) h

/-- A number that is not zero is written without a zero in front. -/
theorem head?_toDigits {n : Nat} (h : 0 < n) : (Nat.toDigits 10 n).head? ≠ some '0' := by
  induction n using Nat.strongRecOn with
  | _ n ih =>
      by_cases hlt : n < 10
      · have hdigit : ∀ d : Fin 10, 0 < d.val → d.val.digitChar ≠ '0' := by decide
        rw [Nat.toDigits_of_lt_base hlt]
        simpa using hdigit ⟨n, hlt⟩ h
      · have hle : 10 ≤ n := Nat.le_of_not_lt hlt
        have hmore := ih (n / 10) (by omega) (by omega)
        rw [Nat.toDigits_of_base_le (by decide) hle]
        obtain ⟨d, digits, hdigits⟩ :=
          List.exists_cons_of_ne_nil (Nat.toDigits_ne_nil (n := n / 10) (b := 10))
        rw [hdigits] at hmore ⊢
        exact hmore

theorem number?_toDigits (negative : Bool) (n : Nat) :
    number? negative (Nat.toDigits 10 n) = some (ofWhole negative n) := by
  have hall : ∀ c ∈ Nat.toDigits 10 n, c.isDigit = true := fun c => isDigit_of_mem
  have hzero : ((Nat.toDigits 10 n).head? == some '0' && decide (1 < (Nat.toDigits 10 n).length)) =
      false := by
    by_cases hn : 0 < n
    · rw [beq_eq_false_iff_ne.mpr (head?_toDigits hn), Bool.false_and]
    · obtain rfl : n = 0 := by omega
      rfl
  have hempty : (Nat.toDigits 10 n).isEmpty = false :=
    List.isEmpty_eq_false_iff.mpr Nat.toDigits_ne_nil
  rw [number?, List.takeWhile_eq_self_iff.mpr hall, List.dropWhile_eq_nil_iff.mpr hall, hempty,
    hzero, decimal_toDigits]
  rfl

theorem ofBare_renderInt {i : Int} (hlow : -(UInt64.size / 2 : Nat) ≤ i) (hhigh : i < UInt64.size) :
    ofBare (renderInt i) = some (.int i) := by
  unfold renderInt
  by_cases hneg : i < 0
  · rw [if_pos hneg, ofBare, if_neg (by simp), if_neg (by simp), if_neg (by simp)]
    show number? true _ = _
    rw [number?_toDigits, ofWhole, if_pos rfl, if_pos (by omega)]
    congr 2
    omega
  · rw [if_neg hneg]
    obtain ⟨d, digits, hdigits⟩ :=
      List.exists_cons_of_ne_nil (Nat.toDigits_ne_nil (n := i.natAbs) (b := 10))
    have hd : d.isDigit = true := isDigit_of_mem (hdigits ▸ List.mem_cons_self)
    have hne : ∀ c : Char, c.isDigit = false → d ≠ c := by
      rintro c hc rfl
      rw [hc] at hd
      cases hd
    have hnumber : ofBare (d :: digits) = number? false (d :: digits) := by
      rw [ofBare, if_neg (by simp [hne 'n' rfl]), if_neg (by simp [hne 't' rfl]),
        if_neg (by simp [hne 'f' rfl])]
      exact fun _ heq => hne '-' rfl (List.cons.inj heq).1
    rw [hdigits, hnumber, ← hdigits, number?_toDigits, ofWhole, if_neg (by simp), if_pos (by omega)]
    congr 2
    omega

/-- A number is written with bare characters. -/
theorem isBare_of_mem_renderInt {i : Int} {c : Char} (h : c ∈ renderInt i) : isBare c = true := by
  have hdigits : ∀ c ∈ Nat.toDigits 10 i.natAbs, isBare c = true := by
    intro c hc
    simp [isBare, Char.isAlphanum, isDigit_of_mem hc]
  unfold renderInt at h
  split at h
  · rcases List.mem_cons.mp h with rfl | h
    · decide
    · exact hdigits c h
  · exact hdigits c h

theorem renderInt_ne_nil (i : Int) : renderInt i ≠ [] := by
  unfold renderInt
  split
  · exact List.cons_ne_nil _ _
  · exact Nat.toDigits_ne_nil

/-! ## The lexer on characters -/

/-- The tokens of a text from the middle of it. -/
def lex (lexer : Lexer) (s : List Char) : Option (List Token) :=
  (s.foldlM Lexer.step lexer).bind Lexer.finish

/-- What stands behind a run of bare characters is not bare. -/
def Closed (rest : List Char) : Prop := ∀ c ∈ rest.head?, isBare c = false

variable {c : Char} {tokens : List Token} {rest : List Char} {j : Json}

theorem lex_cons {lexer : Lexer} (next : Lexer) (h : lexer.step c = some next)
    (rest : List Char) : lex lexer (c :: rest) = lex next rest := by
  rw [lex, List.foldlM_cons, h]
  rfl

theorem start_of_bare (h : isBare c = true) (tokens : List Token) :
    Lexer.start tokens c = some ⟨.bare [c], tokens⟩ := by
  unfold Lexer.start
  split
  all_goals first
    | exact absurd h (by decide)
    | exact if_pos h

theorem lex_bare_append {run read : List Char} (hrun : ∀ c ∈ run, isBare c = true) :
    lex ⟨.bare read, tokens⟩ (run ++ rest) = lex ⟨.bare (run.reverse ++ read), tokens⟩ rest := by
  induction run generalizing read with
  | nil => rfl
  | cons c run ih =>
      obtain ⟨hc, hrun⟩ := List.forall_mem_cons.mp hrun
      have hstep : Lexer.step ⟨.bare read, tokens⟩ c = some ⟨.bare (c :: read), tokens⟩ := if_pos hc
      rw [List.cons_append, lex_cons _ hstep, ih hrun]
      simp

/-- A run of bare characters is one token. -/
theorem lex_bare {run : List Char} {value : Json} (hvalue : ofBare run = some value)
    (hne : run ≠ []) (hrun : ∀ c ∈ run, isBare c = true) (hrest : Closed rest) :
    lex ⟨.between, tokens⟩ (run ++ rest) = lex ⟨.between, .scalar value :: tokens⟩ rest := by
  obtain ⟨c, run, rfl⟩ := List.exists_cons_of_ne_nil hne
  obtain ⟨hc, hmore⟩ := List.forall_mem_cons.mp hrun
  have hstart : Lexer.step ⟨.between, tokens⟩ c = some ⟨.bare [c], tokens⟩ :=
    start_of_bare hc tokens
  rw [List.cons_append, lex_cons _ hstart, lex_bare_append hmore]
  have hread : (run.reverse ++ [c]).reverse = c :: run := by simp
  -- The token is made when the run ends, at another character or at the end of the text.
  cases rest with
  | nil => simp [lex, Lexer.finish, hread, hvalue]
  | cons d rest =>
      have hd : isBare d = false := hrest d rfl
      simp [lex, List.foldlM_cons, Lexer.step, hread, hvalue, hd]

/-! ## The lexer on text -/

theorem joinPieces_map_char (cs : List Char) : joinPieces (cs.map .char) = some cs := by
  induction cs with
  | nil => rfl
  | cons c cs ih =>
      rw [List.map_cons, joinPieces, ih]
      rfl

theorem hexValue?_digitChar {d : Nat} (h : d < 16) : hexValue? d.digitChar = some d := by
  have hall : ∀ d : Fin 16, hexValue? d.val.digitChar = some d.val := by decide
  exact hall ⟨d, h⟩

/-- An escape of two characters. -/
theorem lex_letter {letter : Char} (h : escaped? letter = some c) (hne : letter ≠ 'u')
    (read : List Piece) (tokens : List Token) (rest : List Char) :
    lex ⟨.text read, tokens⟩ ('\\' :: letter :: rest) =
      lex ⟨.text (.char c :: read), tokens⟩ rest := by
  have hletter : Lexer.step ⟨.escape read, tokens⟩ letter =
      some ⟨.text (.char c :: read), tokens⟩ := by
    simp [Lexer.step, hne, h]
  rw [lex_cons ⟨.escape read, tokens⟩ rfl, lex_cons _ hletter]

/-- A digit of an escape, and the last one. -/
theorem lex_digit {d : Nat} (hd : d < 16) (missing value : Nat) (read : List Piece)
    (tokens : List Token) (rest : List Char) :
    lex ⟨.unit read missing value, tokens⟩ (d.digitChar :: rest) =
      if missing ≤ 1 then lex ⟨.text (Piece.ofUnit (16 * value + d) :: read), tokens⟩ rest
      else lex ⟨.unit read (missing - 1) (16 * value + d), tokens⟩ rest := by
  by_cases hmissing : missing ≤ 1
  · rw [if_pos hmissing]
    refine lex_cons _ ?_ rest
    simp [Lexer.step, hexValue?_digitChar hd, hmissing]
  · rw [if_neg hmissing]
    refine lex_cons _ ?_ rest
    simp [Lexer.step, hexValue?_digitChar hd, hmissing]

/-- What is written for a character is read as the character. -/
theorem lex_escape (c : Char) (read : List Piece) (tokens : List Token) (rest : List Char) :
    lex ⟨.text read, tokens⟩ (escape c ++ rest) = lex ⟨.text (.char c :: read), tokens⟩ rest := by
  unfold escape
  split
  iterate 7 exact lex_letter rfl (by decide) read tokens rest
  next _ hquote hslash _ _ _ _ _ =>
    by_cases hcontrol : c.toNat < 32
    · have hvalue : 16 * (16 * (16 * (16 * 0 + 0) + 0) + c.toNat / 16) + c.toNat % 16 =
          c.toNat := by omega
      have hunit : Piece.ofUnit c.toNat = .char c := by
        rw [Piece.ofUnit, if_neg (by omega), Char.ofNat_toNat]
      rw [if_pos hcontrol]
      show lex _ ('\\' :: 'u' :: Nat.digitChar 0 :: Nat.digitChar 0 ::
        Nat.digitChar (c.toNat / 16) :: Nat.digitChar (c.toNat % 16) :: rest) = _
      rw [lex_cons ⟨.escape read, tokens⟩ rfl, lex_cons ⟨.unit read 4 0, tokens⟩ rfl,
        lex_digit (by decide), if_neg (by decide), lex_digit (by decide), if_neg (by decide),
        lex_digit (by omega), if_neg (by decide), lex_digit (by omega), if_pos (by decide), hvalue,
        hunit]
    · rw [if_neg hcontrol]
      refine lex_cons _ ?_ rest
      show (if c = '"' then _ else _) = _
      rw [if_neg hquote, if_neg hslash, if_neg hcontrol]

theorem lex_escapes (cs : List Char) (read : List Piece) (tokens : List Token) (rest : List Char) :
    lex ⟨.text read, tokens⟩ (cs.flatMap escape ++ rest) =
      lex ⟨.text ((cs.map .char).reverse ++ read), tokens⟩ rest := by
  induction cs generalizing read with
  | nil => rfl
  | cons c cs ih =>
      rw [List.flatMap_cons, List.append_assoc, lex_escape, ih]
      simp

/-- A text between quotes is one token. -/
theorem lex_renderText (s : String) (tokens : List Token) (rest : List Char) :
    lex ⟨.between, tokens⟩ (renderText s ++ rest) =
      lex ⟨.between, .text (some s) :: tokens⟩ rest := by
  rw [renderText, List.cons_append, List.append_assoc,
    lex_cons ⟨.text [], tokens⟩ rfl, lex_escapes, List.singleton_append]
  refine lex_cons _ ?_ rest
  simp [Lexer.step, joinPieces_map_char, ← List.map_reverse]

/-! ## The lexer on documents -/

mutual

/-- The tokens of the text of a document. -/
def written : Json → List Token
  | .text s => [.text (some s)]
  | .array [] => [.openArray, .closeArray]
  | .array (item :: rest) => .openArray :: (item.written ++ (writtenItems rest ++ [.closeArray]))
  | .object [] => [.openObject, .closeObject]
  | .object ((key, value) :: rest) =>
    .openObject :: .text (some key) :: .colon ::
      (value.written ++ (writtenMembers rest ++ [.closeObject]))
  | other => [.scalar other]

/-- The tokens of items after the first. -/
def writtenItems : List Json → List Token
  | [] => []
  | item :: rest => .comma :: (item.written ++ writtenItems rest)

/-- The tokens of members after the first. -/
def writtenMembers : List (String × Json) → List Token
  | [] => []
  | (key, value) :: rest =>
    .comma :: .text (some key) :: .colon :: (value.written ++ writtenMembers rest)

end

/-- The text of a document becomes its tokens, if it is closed by what stands behind it. -/
def Lexes (j : Json) : Prop := ∀ (tokens : List Token) (rest : List Char), Closed rest →
  lex ⟨.between, tokens⟩ (j.render ++ rest) = lex ⟨.between, j.written.reverse ++ tokens⟩ rest

theorem closed_renderItems (items : List Json) (h : Closed rest) :
    Closed (renderItems items ++ rest) := by
  cases items with
  | nil => exact h
  | cons => simp [Closed, renderItems]; decide

theorem closed_renderMembers (members : List (String × Json)) (h : Closed rest) :
    Closed (renderMembers members ++ rest) := by
  cases members with
  | nil => exact h
  | cons => simp [Closed, renderMembers]; decide

theorem lex_renderItems {items : List Json} (h : ∀ item ∈ items, Lexes item) (hrest : Closed rest) :
    lex ⟨.between, tokens⟩ (renderItems items ++ rest) =
      lex ⟨.between, (writtenItems items).reverse ++ tokens⟩ rest := by
  induction items generalizing tokens with
  | nil => rfl
  | cons item items ih =>
      obtain ⟨hitem, hitems⟩ := List.forall_mem_cons.mp h
      rw [renderItems, List.cons_append, List.append_assoc,
        lex_cons ⟨.between, .comma :: tokens⟩ rfl,
        hitem _ _ (closed_renderItems items hrest), ih hitems]
      simp [writtenItems]

theorem lex_renderMembers {members : List (String × Json)}
    (h : ∀ member ∈ members, Lexes member.2) (hrest : Closed rest) :
    lex ⟨.between, tokens⟩ (renderMembers members ++ rest) =
      lex ⟨.between, (writtenMembers members).reverse ++ tokens⟩ rest := by
  induction members generalizing tokens with
  | nil => rfl
  | cons member members ih =>
      obtain ⟨key, value⟩ := member
      obtain ⟨hvalue, hmembers⟩ := List.forall_mem_cons.mp h
      rw [renderMembers, List.cons_append, List.append_assoc, List.cons_append, List.append_assoc,
        lex_cons ⟨.between, .comma :: tokens⟩ rfl, lex_renderText,
        lex_cons ⟨.between, .colon :: .text (some key) :: .comma :: tokens⟩ rfl,
        hvalue _ _ (closed_renderMembers members hrest), ih hmembers]
      simp [writtenMembers]

theorem lex_render (h : j.Writable) : Lexes j := by
  intro tokens rest hrest
  induction h generalizing tokens rest with
  | null => exact lex_bare rfl (by decide) (List.all_eq_true.mp rfl) hrest
  | bool value =>
      cases value <;> exact lex_bare rfl (by decide) (List.all_eq_true.mp rfl) hrest
  | @int value hlow hhigh =>
      exact lex_bare (ofBare_renderInt hlow hhigh) (renderInt_ne_nil value)
        (fun c => isBare_of_mem_renderInt) hrest
  | text value => exact lex_renderText value tokens rest
  | @array items _ ih =>
      cases items with
      | nil => rfl
      | cons item items =>
          obtain ⟨hitem, hitems⟩ := List.forall_mem_cons.mp ih
          have hclosed : Closed (']' :: rest) := by simp [Closed]; decide
          rw [render, List.cons_append, List.append_assoc, List.append_assoc, List.singleton_append,
            lex_cons ⟨.between, .openArray :: tokens⟩ rfl,
            hitem _ _ (closed_renderItems items hclosed), lex_renderItems hitems hclosed]
          refine lex_cons _ ?_ rest
          simp [Lexer.step, Lexer.start, written]
  | @object members _ ih =>
      cases members with
      | nil => rfl
      | cons member members =>
          obtain ⟨key, value⟩ := member
          obtain ⟨hvalue, hmembers⟩ := List.forall_mem_cons.mp ih
          have hclosed : Closed ('\x7d' :: rest) := by simp [Closed]; decide
          rw [render, List.cons_append, List.append_assoc, List.cons_append, List.append_assoc,
            List.append_assoc, List.singleton_append,
            lex_cons ⟨.between, .openObject :: tokens⟩ rfl, lex_renderText,
            lex_cons ⟨.between, .colon :: .text (some key) :: .openObject :: tokens⟩ rfl,
            hvalue _ _ (closed_renderMembers members hclosed), lex_renderMembers hmembers hclosed]
          refine lex_cons _ ?_ rest
          simp [Lexer.step, Lexer.start, written]

theorem tokens?_render (h : j.Writable) : tokens? j.render = some j.written := by
  have hlex := lex_render h [] [] (by simp [Closed])
  rw [List.append_nil, List.append_nil] at hlex
  refine hlex.trans ?_
  simp [lex, Lexer.finish]

/-! ## The parser -/

/-- The document of the tokens that are still to come. -/
def parseFrom (state : State) (tokens : List Token) : Option Json :=
  (tokens.foldlM State.step state).bind State.finish

theorem parseFrom_cons {state : State} (next : State) {token : Token}
    (h : state.step token = some next) (tokens : List Token) :
    parseFrom state (token :: tokens) = parseFrom next tokens := by
  rw [parseFrom, List.foldlM_cons, h]
  rfl

/-- The tokens of a document are read as the document, inside any frames. -/
def Parses (j : Json) : Prop := ∀ (frames : List Frame) (tokens : List Token),
  parseFrom (.wantValue frames) (j.written ++ tokens) = parseFrom (.after frames j) tokens

/-- A document does not begin with a closing bracket. -/
theorem exists_written (j : Json) :
    ∃ token more, j.written = token :: more ∧ token ≠ .closeArray := by
  cases j with
  | text s => exact ⟨_, _, rfl, nofun⟩
  | array items => cases items <;> exact ⟨_, _, rfl, nofun⟩
  | object members => cases members <;> exact ⟨_, _, rfl, nofun⟩
  | _ => exact ⟨_, _, rfl, nofun⟩

/-- The first item of an array is read as any other value. -/
theorem parseFrom_firstItem (j : Json) (frames : List Frame) (tokens : List Token) :
    parseFrom (.firstItem frames) (j.written ++ tokens) =
      parseFrom (.wantValue (.array [] :: frames)) (j.written ++ tokens) := by
  obtain ⟨token, more, hwritten, hne⟩ := exists_written j
  have hstep : State.step (.firstItem frames) token =
      State.step (.wantValue (.array [] :: frames)) token := by
    cases token with
    | closeArray => exact absurd rfl hne
    | _ => rfl
  rw [hwritten, List.cons_append, parseFrom, parseFrom, List.foldlM_cons, List.foldlM_cons, hstep]

variable {frames : List Frame} {value : Json}

theorem parse_writtenItems {items before : List Json} (h : ∀ item ∈ items, Parses item) :
    parseFrom (.after (.array before :: frames) value)
        (writtenItems items ++ .closeArray :: tokens) =
      parseFrom (.after frames (.array ((value :: before).reverse ++ items))) tokens := by
  induction items generalizing before value with
  | nil =>
      rw [List.append_nil]
      exact parseFrom_cons _ rfl tokens
  | cons item items ih =>
      obtain ⟨hitem, hitems⟩ := List.forall_mem_cons.mp h
      rw [writtenItems, List.cons_append, List.append_assoc,
        parseFrom_cons (.wantValue (.array (value :: before) :: frames)) rfl, hitem, ih hitems]
      simp

/-- A member whose key can be read. -/
def keyed (member : String × Json) : Option String × Json := (some member.1, member.2)

theorem ofMembers_keyed (members : List (String × Json)) :
    ofMembers (members.map keyed) = .object members.reverse := by
  have hkeyed : ∀ l : List (String × Json),
      (l.map keyed).mapM (fun member => member.1.map fun key => (key, member.2)) = some l := by
    intro l
    induction l with
    | nil => rfl
    | cons member l ih =>
        rw [List.map_cons, List.mapM_cons, ih]
        rfl
  rw [ofMembers, ← List.map_reverse, hkeyed]

theorem parse_writtenMembers {members : List (String × Json)} (before : List (String × Json))
    {key : String} (h : ∀ member ∈ members, Parses member.2) :
    parseFrom (.after (.object (before.map keyed) (some key) :: frames) value)
        (writtenMembers members ++ .closeObject :: tokens) =
      parseFrom (.after frames (.object (((key, value) :: before).reverse ++ members))) tokens := by
  induction members generalizing before key value with
  | nil =>
      rw [List.append_nil, ← ofMembers_keyed]
      exact parseFrom_cons _ rfl tokens
  | cons member members ih =>
      obtain ⟨key', value'⟩ := member
      obtain ⟨hvalue, hmembers⟩ := List.forall_mem_cons.mp h
      have hbefore : (some key, value) :: before.map keyed = ((key, value) :: before).map keyed :=
        rfl
      rw [writtenMembers, List.cons_append, List.cons_append, List.cons_append, List.append_assoc,
        parseFrom_cons (.wantKey frames ((some key, value) :: before.map keyed)) rfl,
        parseFrom_cons (.wantColon frames ((some key, value) :: before.map keyed) (some key')) rfl,
        parseFrom_cons (.wantValue (.object ((some key, value) :: before.map keyed) (some key') ::
          frames)) rfl, hvalue, hbefore, ih _ hmembers]
      simp

theorem parse_written (h : j.Writable) : Parses j := by
  intro frames tokens
  induction h generalizing frames tokens with
  | null => rfl
  | bool value => rfl
  | int hlow hhigh => rfl
  | text value => rfl
  | @array items _ ih =>
      cases items with
      | nil => rfl
      | cons item items =>
          obtain ⟨hitem, hitems⟩ := List.forall_mem_cons.mp ih
          rw [written, List.cons_append, List.append_assoc, List.append_assoc,
            List.singleton_append, parseFrom_cons (.firstItem frames) rfl, parseFrom_firstItem,
            hitem, parse_writtenItems hitems]
          rfl
  | @object members _ ih =>
      cases members with
      | nil => rfl
      | cons member members =>
          obtain ⟨key, value⟩ := member
          obtain ⟨hvalue, hmembers⟩ := List.forall_mem_cons.mp ih
          rw [written, List.cons_append, List.cons_append, List.cons_append, List.append_assoc,
            List.append_assoc, List.singleton_append,
            parseFrom_cons (.firstKey frames) rfl,
            parseFrom_cons (.wantColon frames [] (some key)) rfl,
            parseFrom_cons (.wantValue (.object [] (some key) :: frames)) rfl, hvalue]
          exact parse_writtenMembers [] hmembers

/-! ## Documents -/

/-- The text of a document is read as the document. -/
theorem parse?_print (h : j.Writable) : parse? j.print = some j := by
  have hparse := parse_written h [] []
  rw [List.append_nil] at hparse
  rw [parse?, print, String.toList_ofList, tokens?_render h]
  exact hparse

/-- Documents with one text are the same. -/
theorem print_inj {k : Json} (hj : j.Writable) (hk : k.Writable) (h : j.print = k.print) :
    j = k := by
  have hread := parse?_print hj
  rw [h, parse?_print hk] at hread
  exact (Option.some.inj hread).symm

end ScriptLedger.Json
