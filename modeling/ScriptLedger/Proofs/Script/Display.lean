import ScriptLedger.Proofs.Json.RoundTrip
import ScriptLedger.Proofs.Script.Parser
import ScriptLedger.Proofs.Script.Scanner
import ScriptLedger.Script.Error

/-!
# What is shown of values can be read again

The program text of a value is read as the value, with other values around it and at any depth
of lists.  A text may hold quotes of both sorts, backslashes, brackets, slashes and ends of
lines: only double quotes and backslashes are escaped, and nothing else has a meaning inside a
text.

Keypairs are the exception.  They are shown by one and the same word, which is no byte string,
so program text with a keypair anywhere in it is refused, and the refusal says nothing about it.

## Main results

* `Value.scans_render` — the tokens of the program text of a value.
* `Value.Reads` — what the parser makes of them, inside any lists that are open.
* `Value.parseValues_display` — reading undoes showing, keypairs apart.
-/

namespace ScriptLedger

open Script

namespace Value

/-! ## Values and what is in them -/

/-- What holds of a list as soon as it holds of its items, and of all other values, holds of
every value. -/
theorem induction {motive : Value → Prop} (int : ∀ n, motive (.int n))
    (str : ∀ s, motive (.str s))
    (list : ∀ items, (∀ item ∈ items, motive item) → motive (.list items))
    (bytes : ∀ kind b, motive (.bytes kind b)) (v : Value) : motive v :=
  Value.rec (motive_1 := motive) (motive_2 := fun items => ∀ item ∈ items, motive item)
    int str list bytes (fun _ h => absurd h List.not_mem_nil)
    (fun _ _ hitem hitems => List.forall_mem_cons.mpr ⟨hitem, hitems⟩) v

/-- A keypair is somewhere in the value. -/
inductive HoldsKeypair : Value → Prop
  | self (pair : Keypair) : HoldsKeypair (.bytes .keypair pair)
  | inside {items : List Value} {item : Value} (hmem : item ∈ items) (h : HoldsKeypair item) :
      HoldsKeypair (.list items)

@[simp] theorem holdsKeypair_int {n : Int64} : ¬HoldsKeypair (.int n) := nofun

@[simp] theorem holdsKeypair_str {s : String} : ¬HoldsKeypair (.str s) := nofun

@[simp] theorem holdsKeypair_bytes {kind : Kind} {b : Blob kind} :
    HoldsKeypair (.bytes kind b) ↔ kind = .keypair := by
  constructor
  · rintro ⟨⟩
    rfl
  · rintro rfl
    exact .self b

@[simp] theorem holdsKeypair_list {items : List Value} :
    HoldsKeypair (.list items) ↔ ∃ item ∈ items, item.HoldsKeypair :=
  ⟨fun | .inside hmem h => ⟨_, hmem, h⟩, fun ⟨_, hmem, h⟩ => .inside hmem h⟩

end Value

/-! ## Words -/

namespace Script

variable {c : Char} {word : List Char}

/-- What holds of the ten digits holds of every character of a decimal text. -/
theorem forall_toDigits (P : Char → Prop) (h : ∀ d : Fin 10, P d.val.digitChar) {n : Nat}
    (hc : c ∈ Nat.toDigits 10 n) : P c := by
  have hdigit := Json.isDigit_of_mem hc
  simp only [Char.isDigit, Bool.and_eq_true, decide_eq_true_eq] at hdigit
  have hlow : 48 ≤ c.toNat := UInt32.le_iff_toNat_le.mp hdigit.1
  have hhigh : c.toNat ≤ 57 := UInt32.le_iff_toNat_le.mp hdigit.2
  have hchar : ∀ d : Fin 10, d.val.digitChar = Char.ofNat (d.val + 48) := by decide
  have hthis := h ⟨c.toNat - 48, by omega⟩
  rw [hchar, Nat.sub_add_cancel hlow, Char.ofNat_toNat] at hthis
  exact hthis

/-- A decimal number is written with digits behind a sign, so it is a word, and none of those
that begin like something else. -/
theorem renderInt_chars {i : Int} (h : c ∈ Json.renderInt i) :
    endsWord c (some '/') = false ∧ c ≠ '_' ∧ c ≠ 'x' := by
  have hdigit : ∀ d : Fin 10, endsWord d.val.digitChar (some '/') = false ∧
      d.val.digitChar ≠ '_' ∧ d.val.digitChar ≠ 'x' := by decide
  have hdigits := forall_toDigits (fun c => endsWord c (some '/') = false ∧ c ≠ '_' ∧ c ≠ 'x')
    hdigit (n := i.natAbs) (c := c)
  unfold Json.renderInt at h
  split at h
  · rcases List.mem_cons.mp h with rfl | h
    · decide
    · exact hdigits h
  · exact hdigits h

theorem looksLikeOpcode_eq_false (h : ∀ c ∈ word, c ≠ '_') : looksLikeOpcode word = false := by
  unfold looksLikeOpcode
  split
  · exact absurd rfl (h '_' (by simp))
  · rfl

theorem markedBytes_eq_none (h : ∀ c ∈ word, c ≠ 'x') : markedBytes word = none := by
  unfold markedBytes
  split
  · exact absurd rfl (h 'x' (by simp))
  · rfl

/-- Decimal digits write the number that they are the digits of. -/
theorem digits?_toDigits (n : Nat) :
    digits? 10 decimalValue? (Nat.toDigits 10 n) = some n := by
  have hfold : ∀ (digits : List Char) (start : Nat), (∀ c ∈ digits, c.isDigit = true) →
      digits.foldlM (fun n c => (decimalValue? c).map (10 * n + ·)) start =
        some (digits.foldl (fun n c => 10 * n + (c.toNat - 48)) start) := by
    intro digits
    induction digits with
    | nil => exact fun _ _ => rfl
    | cons d digits ih =>
        intro start h
        obtain ⟨hd, hdigits⟩ := List.forall_mem_cons.mp h
        rw [List.foldlM_cons, decimalValue?, if_pos hd, List.foldl_cons, ← ih _ hdigits]
        rfl
  have hvalue := hfold (Nat.toDigits 10 n) 0 fun c => Json.isDigit_of_mem
  obtain ⟨d, digits, hdigits⟩ :=
    List.exists_cons_of_ne_nil (Nat.toDigits_ne_nil (n := n) (b := 10))
  have hdecimal := Json.decimal_toDigits n
  rw [hdigits] at hvalue hdecimal ⊢
  rw [digits?, hvalue]
  exacts [congrArg some hdecimal, List.cons_ne_nil _ _]

theorem magnitude?_toDigits (n : Nat) : magnitude? (Nat.toDigits 10 n) = some n := by
  have hne : ∀ c ∈ Nat.toDigits 10 n, c ≠ 'x' ∧ c ≠ 'X' := fun c =>
    forall_toDigits (fun c => c ≠ 'x' ∧ c ≠ 'X') (by decide)
  unfold magnitude?
  split
  next heq => exact absurd rfl (hne 'x' (by simp [heq])).1
  next heq => exact absurd rfl (hne 'X' (by simp [heq])).2
  next => exact digits?_toDigits n

theorem splitSign_toDigits (n : Nat) :
    splitSign (Nat.toDigits 10 n) = (false, Nat.toDigits 10 n) := by
  have hne : ∀ c ∈ Nat.toDigits 10 n, c ≠ '-' ∧ c ≠ '+' := fun c =>
    forall_toDigits (fun c => c ≠ '-' ∧ c ≠ '+') (by decide)
  unfold splitSign
  split
  next heq => exact absurd rfl (hne '-' (by simp [heq])).1
  next heq => exact absurd rfl (hne '+' (by simp [heq])).2
  next => rfl

/-- A whole number is what its decimal text is read as, the least one included. -/
theorem parseInt_renderInt (value : Int64) : parseInt (Json.renderInt value.toInt) = some value := by
  have hword : ∀ i : Int, i = value.toInt → Word.signed? i = some value := by
    rintro _ rfl
    exact Word.signed?_eq_some_iff.mpr rfl
  unfold Json.renderInt
  by_cases hneg : value.toInt < 0
  · rw [if_pos hneg]
    show ((magnitude? (Nat.toDigits 10 _)).bind fun n => Word.signed? (-(n : Int))) = _
    rw [magnitude?_toDigits]
    exact hword _ (by omega)
  · rw [if_neg hneg, parseInt, splitSign_toDigits]
    show ((magnitude? (Nat.toDigits 10 _)).bind fun n => Word.signed? (n : Int)) = _
    rw [magnitude?_toDigits]
    exact hword _ (by omega)

theorem parseWord_renderInt (value : Int64) :
    parseWord (Json.renderInt value.toInt) = .ok (.push (.int value)) := by
  rw [parseWord, looksLikeOpcode_eq_false fun c hc => (renderInt_chars hc).2.1,
    markedBytes_eq_none fun c hc => (renderInt_chars hc).2.2, parseInt_renderInt]
  rfl

theorem parseWord_hex (kind : Kind) (b : Blob kind) :
    parseWord (kind.mark :: '0' :: 'x' :: Bytes.Hex.encode b.toList) =
      .ok (.push (.bytes kind b)) := by
  have hmark : Kind.ofMark? kind.mark = some kind := by cases kind <;> rfl
  have hread : Blob.ofHex kind (String.ofList (Bytes.Hex.encode b.toList)) = .ok b :=
    Blob.ofHex_toHex b
  rw [parseWord, if_neg (by simp [looksLikeOpcode]), markedBytes, hmark, Option.map_some, hread]
  rfl

/-- What is shown of a keypair has a mark, but no digits. -/
theorem parseWord_redacted : parseWord "p0x<redacted>".toList =
    .error (.badBytes "p0x<redacted>" (.badHex (.badDigit '<'.toUInt8 0))) := by
  rfl

theorem endsWord_of_mem_encode {bytes : List UInt8} (h : c ∈ Bytes.Hex.encode bytes) :
    endsWord c (some '/') = false := by
  have hdigit : ∀ n : Fin 16, endsWord n.val.digitChar (some '/') = false := by decide
  obtain ⟨byte, -, hc⟩ := List.mem_flatMap.mp h
  have hbyte := byte.toNat_lt
  simp only [Bytes.Hex.pair, List.mem_cons, List.not_mem_nil, or_false] at hc
  rcases hc with rfl | rfl
  · exact hdigit ⟨byte.toNat / 16, by omega⟩
  · exact hdigit ⟨byte.toNat % 16, by omega⟩

/-! ## Texts -/

/-- The characters of a text come out as they went in. -/
theorem quotes_escape (s : List Char) : Quotes '"' (s.flatMap Value.escape) s := by
  induction s with
  | nil => exact .nil
  | cons c s ih =>
      rw [List.flatMap_cons, Value.escape]
      by_cases hc : c = '\\' ∨ c = '"'
      · rw [if_pos hc]
        exact .escape hc ih
      · obtain ⟨hslash, hquote⟩ := not_or.mp hc
        rw [if_neg hc]
        exact .plain hquote hslash ih

theorem scans_quoted (s : List Char) :
    Scans ('"' :: (s.flatMap Value.escape ++ ['"'])) [.quoted s] :=
  (quotes_escape s).scans (Or.inl rfl)

end Script

namespace Value

/-! ## The tokens of a value -/

mutual

/-- The tokens of the program text of a value. -/
def lexemes : Value → List Lexeme
  | .int value => [.word (Value.int value).render]
  | .str value => [.quoted value.toList]
  | .list items => .open :: (lexemesItems items ++ [.close])
  | .bytes kind value => [.word (Value.bytes kind value).render]

/-- The tokens of the values of a list. -/
def lexemesItems : List Value → List Lexeme
  | [] => []
  | item :: rest => item.lexemes ++ lexemesItems rest

end

theorem render_nil : (Value.list []).render = ['[', ']'] := rfl

theorem render_cons (item : Value) (rest : List Value) :
    (Value.list (item :: rest)).render = '[' :: (item.render ++ (renderItems rest ++ [']'])) := rfl

theorem renderItems_cons (item : Value) (rest : List Value) :
    renderItems (item :: rest) = ' ' :: (item.render ++ renderItems rest) := rfl

theorem scans_bytes (kind : Kind) (b : Blob kind) :
    Scans (Value.bytes kind b).render [.word (Value.bytes kind b).render] := by
  refine scans_word (by cases kind <;> exact List.cons_ne_nil _ _) (isWord_of_forall ?_)
  have hhex : ∀ c ∈ kind.mark :: '0' :: 'x' :: Bytes.Hex.encode b.toList,
      endsWord c (some '/') = false := by
    have hmark : endsWord kind.mark (some '/') = false := by cases kind <;> decide
    simp only [List.forall_mem_cons]
    exact ⟨hmark, by decide, by decide, fun c => endsWord_of_mem_encode⟩
  cases kind with
  | keypair =>
      have hredacted : ("p0x<redacted>".toList.all fun c => !endsWord c (some '/')) = true := by
        decide
      intro c hc
      have hsafe := List.all_eq_true.mp hredacted c hc
      simpa only [Bool.not_eq_true'] using hsafe
  | _ => exact hhex

/-- Values behind a first spelling, each with a space in front. -/
theorem scans_renderItems {items : List Value} {text : List Char} {spelled : List Lexeme}
    (h : ∀ item ∈ items, Scans item.render item.lexemes) (htext : Scans text spelled) :
    Scans (text ++ renderItems items) (spelled ++ lexemesItems items) := by
  induction items generalizing text spelled with
  | nil =>
      show Scans (text ++ []) (spelled ++ [])
      rw [List.append_nil, List.append_nil]
      exact htext
  | cons item items ih =>
      obtain ⟨hitem, hitems⟩ := List.forall_mem_cons.mp h
      have hmore := ih hitems (htext.blank hitem)
      rw [renderItems_cons, lexemesItems]
      simpa using hmore

theorem scans_render (v : Value) : Scans v.render v.lexemes := by
  induction v using Value.induction with
  | int value =>
      refine scans_word (Json.renderInt_ne_nil _) (isWord_of_forall fun c hc => ?_)
      exact (renderInt_chars hc).1
  | str value => exact scans_quoted value.toList
  | bytes kind b => exact scans_bytes kind b
  | list items ih =>
      cases items with
      | nil =>
          rw [render_nil, lexemes, lexemesItems]
          exact Scans.nil.brackets
      | cons item items =>
          obtain ⟨hitem, hitems⟩ := List.forall_mem_cons.mp ih
          have hinside := (scans_renderItems hitems hitem).brackets
          rw [render_cons, lexemes, lexemesItems, ← List.append_assoc item.render]
          exact hinside

/-! ## The parser -/

section Parser

variable {stack : List OpenList} {before : List Item} {place : Place} {rest : List Token}

/-- The values of items that push values. -/
theorem mapM_push {ε : Type} {value? : Item → Except ε Value} (h : ∀ v, value? (.push v) = .ok v)
    (values : List Value) : (values.map Item.push).mapM value? = .ok values := by
  induction values with
  | nil => rfl
  | cons v values ih =>
      rw [List.map_cons, List.mapM_cons, h, ih]
      rfl

/-- A bracket closes a list of values. -/
theorem parseItems_close {opened : OpenList} {values : List Value} :
    parseItems (opened :: stack) (values.map Item.push).reverse (⟨.close, place⟩ :: rest) =
      parseItems stack (.push (.list values) :: opened.before) rest := by
  refine parseItems_closed ?_
  rw [List.reverse_reverse]
  exact mapM_push (fun _ => rfl) values

end Parser

/-- The failure of reading what is shown of a keypair. -/
def redacted (place : Place) : ParseError :=
  ⟨place, .badBytes "p0x<redacted>" (.badHex (.badDigit '<'.toUInt8 0))⟩

/-- What the parser makes of the tokens of a value, inside any lists that are open and with
anything behind them: the value, or a failure if there is a keypair in it. -/
structure Reads (v : Value) : Prop where
  value : ¬v.HoldsKeypair → ∀ (stack : List OpenList) (before : List Item)
    (tokens rest : List Token), tokens.map Token.lexeme = v.lexemes →
      parseItems stack before (tokens ++ rest) = parseItems stack (.push v :: before) rest
  refused : v.HoldsKeypair → ∀ (stack : List OpenList) (before : List Item)
    (tokens rest : List Token), tokens.map Token.lexeme = v.lexemes →
      ∃ place, parseItems stack before (tokens ++ rest) = .error (redacted place)

theorem exists_token {tokens : List Token} {lexeme : Lexeme} {more : List Lexeme}
    (h : tokens.map Token.lexeme = lexeme :: more) :
    ∃ place tokens', tokens = ⟨lexeme, place⟩ :: tokens' ∧ tokens'.map Token.lexeme = more := by
  obtain ⟨token, tokens', rfl, rfl, hmore⟩ := List.map_eq_cons_iff.mp h
  exact ⟨token.place, tokens', rfl, hmore⟩

/-- A spelling of one word is one token. -/
theorem reads_word {v : Value} {word : List Char} (hlexemes : v.lexemes = [.word word])
    (hitem : parseWord word = .ok (.push v)) (hopen : ¬v.HoldsKeypair) : Reads v where
  value _ stack before tokens rest htokens := by
    rw [hlexemes] at htokens
    obtain ⟨place, tokens, rfl, hnil⟩ := exists_token htokens
    obtain rfl := List.map_eq_nil_iff.mp hnil
    exact parseItems_word hitem
  refused h := absurd h hopen

theorem reads_keypair (pair : Keypair) : Reads (.bytes .keypair pair) where
  value h := absurd (.self pair) h
  refused _ stack before tokens rest htokens := by
    obtain ⟨place, tokens, rfl, -⟩ := exists_token htokens
    exact ⟨place, parseItems_word_of_error parseWord_redacted⟩

section Items

variable {items : List Value} {tokens : List Token}

theorem parseItems_lexemesItems (h : ∀ v ∈ items, Reads v)
    (hopen : ∀ item ∈ items, ¬item.HoldsKeypair) (stack : List OpenList) (before : List Item)
    (rest : List Token) (htokens : tokens.map Token.lexeme = lexemesItems items) :
    parseItems stack before (tokens ++ rest) =
      parseItems stack ((items.map Item.push).reverse ++ before) rest := by
  induction items generalizing before tokens with
  | nil =>
      obtain rfl := List.map_eq_nil_iff.mp htokens
      rfl
  | cons item items ih =>
      obtain ⟨hitem, hitems⟩ := List.forall_mem_cons.mp h
      obtain ⟨hfirst, hmore⟩ := List.forall_mem_cons.mp hopen
      obtain ⟨first, more, rfl, hread, hrest⟩ := List.map_eq_append_iff.mp htokens
      rw [List.append_assoc, hitem.value hfirst _ _ _ _ hread, ih hitems hmore _ hrest]
      simp

/-- The first keypair in a list is where reading it stops. -/
theorem exists_redacted (h : ∀ item ∈ items, Reads item)
    (hholds : ∃ item ∈ items, item.HoldsKeypair) (stack : List OpenList) (before : List Item)
    (rest : List Token) (htokens : tokens.map Token.lexeme = lexemesItems items) :
    ∃ place, parseItems stack before (tokens ++ rest) = .error (redacted place) := by
  induction items generalizing before tokens with
  | nil =>
      obtain ⟨item, hmem, -⟩ := hholds
      exact absurd hmem List.not_mem_nil
  | cons item items ih =>
      obtain ⟨hitem, hitems⟩ := List.forall_mem_cons.mp h
      obtain ⟨first, more, rfl, hread, hrest⟩ := List.map_eq_append_iff.mp htokens
      rw [List.append_assoc]
      by_cases hfirst : item.HoldsKeypair
      · exact hitem.refused hfirst _ _ _ _ hread
      · have hmore : ∃ item ∈ items, item.HoldsKeypair := by
          obtain ⟨other, hmem, hother⟩ := hholds
          rcases List.mem_cons.mp hmem with rfl | hmem
          · exact absurd hother hfirst
          · exact ⟨other, hmem, hother⟩
        rw [hitem.value hfirst _ _ _ _ hread]
        exact ih hitems hmore _ hrest

end Items

/-- The tokens of a list are its brackets and, between them, those of its items. -/
theorem exists_tokens_list {items : List Value} {tokens : List Token}
    (h : tokens.map Token.lexeme = (Value.list items).lexemes) :
    ∃ place inside place', tokens = ⟨.open, place⟩ :: (inside ++ [⟨.close, place'⟩]) ∧
      inside.map Token.lexeme = lexemesItems items := by
  obtain ⟨place, tokens, rfl, hmore⟩ := exists_token h
  obtain ⟨inside, last, rfl, hinside, hlast⟩ := List.map_eq_append_iff.mp hmore
  obtain ⟨place', tokens, rfl, hnil⟩ := exists_token hlast
  obtain rfl := List.map_eq_nil_iff.mp hnil
  exact ⟨place, inside, place', rfl, hinside⟩

theorem reads_list {items : List Value} (h : ∀ item ∈ items, Reads item) : Reads (.list items) where
  value hopen stack before tokens rest htokens := by
    obtain ⟨place, inside, place', rfl, hinside⟩ := exists_tokens_list htokens
    have hitems : ∀ item ∈ items, ¬item.HoldsKeypair :=
      fun item hmem hholds => hopen (.inside hmem hholds)
    rw [List.cons_append, parseItems_open, List.append_assoc,
      parseItems_lexemesItems h hitems _ _ _ hinside, List.append_nil]
    exact parseItems_close
  refused hholds stack before tokens rest htokens := by
    obtain ⟨place, inside, place', rfl, hinside⟩ := exists_tokens_list htokens
    rw [List.cons_append, parseItems_open, List.append_assoc]
    exact exists_redacted h (holdsKeypair_list.mp hholds) _ _ _ hinside

theorem reads (v : Value) : Reads v := by
  induction v using Value.induction with
  | int value => exact reads_word rfl (parseWord_renderInt value) holdsKeypair_int
  | str value =>
      refine ⟨fun _ stack before tokens rest htokens => ?_, fun h => absurd h holdsKeypair_str⟩
      obtain ⟨place, tokens, rfl, hnil⟩ := exists_token htokens
      obtain rfl := List.map_eq_nil_iff.mp hnil
      rw [List.singleton_append, parseItems_quoted, String.ofList_toList]
  | list items ih => exact reads_list ih
  | bytes kind b =>
      cases kind with
      | keypair => exact reads_keypair b
      | _ => exact reads_word rfl (parseWord_hex _ b) (by simp)

/-! ## Texts of values -/

/-- The texts of values with single spaces between them. -/
theorem toList_joined (v : Value) (rest : List Value) :
    (" ".intercalate ((v :: rest).map display)).toList = v.render ++ renderItems rest := by
  induction rest generalizing v with
  | nil =>
      rw [List.map_singleton, String.intercalate_singleton, display, String.toList_ofList]
      exact (List.append_nil _).symm
  | cons w rest ih =>
      have hmore := ih w
      rw [List.map_cons] at hmore
      rw [List.map_cons, List.map_cons, String.intercalate_cons_cons, String.toList_append,
        String.toList_append, hmore, display, String.toList_ofList, renderItems_cons]
      simp

theorem exists_tokenize_joined (values : List Value) :
    ∃ tokens, tokenize (" ".intercalate (values.map display)).toList = .ok tokens ∧
      tokens.map Token.lexeme = lexemesItems values := by
  cases values with
  | nil => exact Scans.nil.exists_tokenize
  | cons v rest =>
      rw [toList_joined]
      exact (scans_renderItems (fun item _ => scans_render item) (scans_render v)).exists_tokenize

/-- Values without a keypair in them are read back from their texts with single spaces between
them.  The text of a value with a keypair in it is refused. -/
theorem parseValues_display :
    (∀ values : List Value, (∀ v ∈ values, ¬v.HoldsKeypair) →
      parseValues (" ".intercalate (values.map display)) = .ok values) ∧
    ∀ v : Value, v.HoldsKeypair →
      ∃ place, parseValues v.display = .error (.parse (redacted place)) := by
  have hparse : ∀ {text : String} {tokens : List Token}, tokenize text.toList = .ok tokens →
      parseProgram text = parseItems [] [] tokens := by
    intro text tokens h
    rw [parseProgram, h]
    rfl
  constructor
  · intro values hopen
    obtain ⟨tokens, htokens, hlexemes⟩ := exists_tokenize_joined values
    have hread := parseItems_lexemesItems (fun v _ => reads v) hopen [] [] [] hlexemes
    rw [List.append_nil, List.append_nil] at hread
    have hitems : parseItems [] (values.map Item.push).reverse [] =
        .ok (values.map Item.push) := congrArg Except.ok (List.reverse_reverse _)
    rw [parseValues, hparse htokens, hread, hitems]
    exact mapM_push (fun _ => rfl) values
  · intro v hholds
    obtain ⟨tokens, htokens, hlexemes⟩ := exists_tokenize_joined [v]
    rw [List.map_singleton, String.intercalate_singleton] at htokens
    obtain ⟨place, hfailed⟩ := exists_redacted (fun v _ => reads v)
      ⟨v, List.mem_singleton_self v, hholds⟩ [] [] [] hlexemes
    rw [List.append_nil] at hfailed
    exact ⟨place, by rw [parseValues, hparse htokens, hfailed]⟩

/-- The least word, a text of quotes, backslashes, brackets and an end of line, and lists. -/
def sample : List Value :=
  [.int Int64.minValue, .str "\\\"] // [\n", .list [.list [], .bytes .hash Blob.zero, .str ""]]

/-- A number, and a keypair two lists down. -/
def secret : Value := .list [.int 0, .list [.bytes .keypair Blob.zero]]

theorem parseValues_display_sample :
    (∀ v ∈ sample, ¬v.HoldsKeypair) ∧ secret.HoldsKeypair ∧
    parseValues (" ".intercalate (sample.map display)) = .ok sample ∧
    ∃ place, parseValues secret.display = .error (.parse (redacted place)) := by
  have hopen : ∀ v ∈ sample, ¬v.HoldsKeypair := by simp [sample]
  have hholds : secret.HoldsKeypair := by simp [secret]
  exact ⟨hopen, hholds, parseValues_display.1 sample hopen, parseValues_display.2 secret hholds⟩

end Value

end ScriptLedger
