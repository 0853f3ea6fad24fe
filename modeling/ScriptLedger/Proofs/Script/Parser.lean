import Mathlib.Data.List.Forall2
import ScriptLedger.Script.Program

/-!
# What the parser makes of tokens

There is one equation for each sort of token, whatever lists are open and whatever has been read
in them.  Two facts about whole runs of the parser follow by going through the tokens.

The items depend neither on the places of the tokens, which only failures show, nor on the case
in which the names of instructions are written.  And what a failure shows is the place of one of
the tokens, or of the bracket of a list that was open before.

## Main results

* `Script.parseItems_open`, `Script.parseItems_quoted`, `Script.parseItems_word`,
  `Script.parseItems_closed` — one token, in the middle of anything.
* `Script.toOption_parseItems` — tokens that differ in places and case only make the same items.
* `Script.place_of_parseItems` — where failures show.
-/

namespace ScriptLedger.Script

variable {stack stack' : List OpenList} {items : List Item} {place place' : Place}
  {tokens tokens' rest : List Token} {word word' : List Char}

/-- A program is what its tokens are read as. -/
theorem parseProgram_of_tokenize {text : String} (h : tokenize text.toList = .ok tokens) :
    parseProgram text = parseItems [] [] tokens := by
  rw [parseProgram, h]
  rfl

/-! ## One token -/

theorem parseItems_open :
    parseItems stack items (⟨.open, place⟩ :: rest) =
      parseItems (⟨place, items⟩ :: stack) [] rest := by
  cases stack <;> rfl

theorem parseItems_quoted {text : List Char} :
    parseItems stack items (⟨.quoted text, place⟩ :: rest) =
      parseItems stack (.push (.str (String.ofList text)) :: items) rest := by
  cases stack <;> rfl

theorem parseItems_word {item : Item} (h : parseWord word = .ok item) :
    parseItems stack items (⟨.word word, place⟩ :: rest) =
      parseItems stack (item :: items) rest := by
  cases stack <;> simp only [parseItems, h]

theorem parseItems_word_of_error {cause : ParseCause} (h : parseWord word = .error cause) :
    parseItems stack items (⟨.word word, place⟩ :: rest) = .error ⟨place, cause⟩ := by
  cases stack <;> simp only [parseItems, h]

theorem parseItems_unmatched :
    parseItems [] items (⟨.close, place⟩ :: rest) = .error ⟨place, .unmatchedClose⟩ := rfl

theorem parseItems_closed {opened : OpenList} {values : List Value}
    (h : items.reverse.mapM (valueInList opened.place) = .ok values) :
    parseItems (opened :: stack) items (⟨.close, place⟩ :: rest) =
      parseItems stack (.push (.list values) :: opened.before) rest := by
  simp only [parseItems, h]

theorem parseItems_closed_of_error {opened : OpenList} {e : ParseError}
    (h : items.reverse.mapM (valueInList opened.place) = .error e) :
    parseItems (opened :: stack) items (⟨.close, place⟩ :: rest) = .error e := by
  simp only [parseItems, h]

/-! ## Case -/

/-- The name of one instruction, or of none, in different case. -/
def Recased (word word' : List Char) : Prop :=
  looksLikeOpcode word = true ∧ word.map Char.toUpper = word'.map Char.toUpper

theorem eq_underscore_of_toUpper {c : Char} (h : c.toUpper = '_') : c = '_' := by
  unfold Char.toUpper at h
  split at h
  next hlower =>
    have hlow : 97 ≤ c.val.toNat := UInt32.le_iff_toNat_le.mp hlower.1
    have hhigh : c.val.toNat ≤ 122 := UInt32.le_iff_toNat_le.mp hlower.2
    have hval := congrArg (fun d : Char => d.val.toNat) h
    have hshift : ('A'.val - 'a'.val).toNat = 2 ^ 32 - 32 := by decide
    have hunderscore : '_'.val.toNat = 95 := by decide
    simp only [UInt32.toNat_add, hshift, hunderscore] at hval
    omega
  next => exact h

theorem Recased.looksLikeOpcode (h : Recased word word') : looksLikeOpcode word' = true := by
  obtain ⟨hword, hcase⟩ := h
  unfold Script.looksLikeOpcode at hword
  split at hword
  next a b more =>
    rw [List.map_cons, List.map_cons, List.map_cons] at hcase
    obtain ⟨a', _, rfl, ha, hcase⟩ := List.map_eq_cons_iff.mp hcase.symm
    obtain ⟨b', _, rfl, hb, hcase⟩ := List.map_eq_cons_iff.mp hcase
    obtain ⟨c', more', rfl, hc, -⟩ := List.map_eq_cons_iff.mp hcase
    obtain rfl := eq_underscore_of_toUpper hc
    rw [Script.looksLikeOpcode, ha, hb]
    exact hword
  next => cases hword

/-- The case of an instruction does not matter. -/
theorem Recased.toOption_parseWord (h : Recased word word') :
    (parseWord word).toOption = (parseWord word').toOption := by
  have hname : Opcode.ofName? word = Opcode.ofName? word' := by
    rw [Opcode.ofName?, Opcode.ofName?, h.2]
  rw [parseWord, if_pos h.1, parseWord, if_pos h.looksLikeOpcode, hname]
  cases Opcode.ofName? word' <;> rfl

/-- The same token, but for the case of the name of an instruction. -/
inductive Lexeme.Alike : Lexeme → Lexeme → Prop
  | refl (lexeme : Lexeme) : Alike lexeme lexeme
  | recased {word word' : List Char} (h : Recased word word') : Alike (.word word) (.word word')

/-! ## Items without their places -/

/-- The value of an item, if it is one. -/
def Item.value? : Item → Option Value
  | .push value => some value
  | .op _ => none

/-- Whether items make a list does not depend on where it was opened. -/
theorem toOption_mapM_valueInList (place : Place) (items : List Item) :
    (items.mapM (valueInList place)).toOption = items.mapM Item.value? := by
  induction items with
  | nil => rfl
  | cons item items ih =>
      rw [List.mapM_cons, List.mapM_cons, ← ih]
      cases item with
      | op op => rfl
      | push value => cases items.mapM (valueInList place) <;> rfl

theorem toOption_parseItems_word :
    (parseItems stack items (⟨.word word, place⟩ :: rest)).toOption =
      (parseWord word).toOption.bind fun item =>
        (parseItems stack (item :: items) rest).toOption := by
  cases hword : parseWord word with
  | ok item => rw [parseItems_word hword]; rfl
  | error cause => rw [parseItems_word_of_error hword]; rfl

theorem toOption_parseItems_close (opened : OpenList) :
    (parseItems (opened :: stack) items (⟨.close, place⟩ :: rest)).toOption =
      (items.reverse.mapM Item.value?).bind fun values =>
        (parseItems stack (.push (.list values) :: opened.before) rest).toOption := by
  rw [← toOption_mapM_valueInList opened.place]
  cases hvalues : items.reverse.mapM (valueInList opened.place) with
  | ok values => rw [parseItems_closed hvalues]; rfl
  | error e => rw [parseItems_closed_of_error hvalues]; rfl

/-- Tokens that differ in places and in the case of instructions only make the same items, or
none. -/
theorem toOption_parseItems
    (htokens : List.Forall₂ (fun t t' => Lexeme.Alike t.lexeme t'.lexeme) tokens tokens')
    (hstack : stack.map OpenList.before = stack'.map OpenList.before) (items : List Item) :
    (parseItems stack items tokens).toOption = (parseItems stack' items tokens').toOption := by
  induction htokens generalizing stack stack' items with
  | nil =>
      cases stack with
      | nil =>
          obtain rfl := List.map_eq_nil_iff.mp hstack.symm
          rfl
      | cons opened stack =>
          obtain ⟨opened', stack', rfl, -⟩ := List.map_eq_cons_iff.mp hstack.symm
          rfl
  | @cons t t' tokens tokens' halike _ ih =>
      obtain ⟨lexeme, place⟩ := t
      obtain ⟨lexeme', place'⟩ := t'
      dsimp only at halike
      cases halike with
      | recased h =>
          rw [toOption_parseItems_word, toOption_parseItems_word, h.toOption_parseWord]
          simp only [ih hstack]
      | refl =>
          cases lexeme with
          | word word =>
              rw [toOption_parseItems_word, toOption_parseItems_word]
              simp only [ih hstack]
          | quoted text =>
              rw [parseItems_quoted, parseItems_quoted]
              exact ih hstack _
          | «open» =>
              rw [parseItems_open, parseItems_open]
              exact ih (by rw [List.map_cons, List.map_cons, hstack]) _
          | close =>
              cases stack with
              | nil =>
                  obtain rfl := List.map_eq_nil_iff.mp hstack.symm
                  rfl
              | cons opened stack =>
                  obtain ⟨opened', stack', rfl, hbefore, hmore⟩ :=
                    List.map_eq_cons_iff.mp hstack.symm
                  rw [toOption_parseItems_close, toOption_parseItems_close, hbefore]
                  simp only [ih hmore.symm]

/-! ## Places -/

theorem place_of_mapM {P : Place → Prop} {e : ParseError} (hplace : P place)
    (h : items.mapM (valueInList place) = .error e) : P e.place := by
  induction items generalizing e with
  | nil => cases h
  | cons item items ih =>
      rw [List.mapM_cons] at h
      cases item with
      | op op =>
          cases h
          exact hplace
      | push value =>
          cases hmore : items.mapM (valueInList place) with
          | ok values =>
              rw [hmore] at h
              cases h
          | error e' =>
              rw [hmore] at h
              cases h
              exact ih hmore

/-- A failure shows the place of a token, or of a bracket that was open. -/
theorem place_of_parseItems {P : Place → Prop} {e : ParseError}
    (hstack : ∀ opened ∈ stack, P opened.place) (htokens : ∀ token ∈ tokens, P token.place)
    (h : parseItems stack items tokens = .error e) : P e.place := by
  induction tokens generalizing stack items with
  | nil =>
      cases stack with
      | nil => cases h
      | cons opened stack =>
          cases h
          exact hstack opened List.mem_cons_self
  | cons token tokens ih =>
      obtain ⟨hplace, hmore⟩ := List.forall_mem_cons.mp htokens
      obtain ⟨lexeme, place⟩ := token
      cases lexeme with
      | word word =>
          cases hword : parseWord word with
          | ok item =>
              rw [parseItems_word hword] at h
              exact ih hstack hmore h
          | error cause =>
              rw [parseItems_word_of_error hword] at h
              cases h
              exact hplace
      | quoted text =>
          rw [parseItems_quoted] at h
          exact ih hstack hmore h
      | «open» =>
          rw [parseItems_open] at h
          exact ih (List.forall_mem_cons.mpr ⟨hplace, hstack⟩) hmore h
      | close =>
          cases stack with
          | nil =>
              rw [parseItems_unmatched] at h
              cases h
              exact hplace
          | cons opened stack =>
              obtain ⟨hopened, hstack⟩ := List.forall_mem_cons.mp hstack
              cases hvalues : items.reverse.mapM (valueInList opened.place) with
              | ok values =>
                  rw [parseItems_closed hvalues] at h
                  exact ih hstack hmore h
              | error e' =>
                  rw [parseItems_closed_of_error hvalues] at h
                  cases h
                  exact place_of_mapM hopened hvalues

end ScriptLedger.Script
