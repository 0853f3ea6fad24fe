import Mathlib.Data.List.Infix
import ScriptLedger.Proofs.Script.Parser
import ScriptLedger.Proofs.Sequencing

/-!
# Reading lists by descent

Where a list is opened, a reader of lists may call itself: for the list, and then for what stands
behind it.  One cursor is moved by all these calls, and whether a closing bracket or the end is in
order depends on whether a list is open.

The cursor is what is left of the tokens.  It is carried with the proof that it is a rest of those
that a call was given, and this is why the calls come to an end.  The stack of the parser holds
what the calls would come back to, so both make the same of the same tokens, failures included.

## Main results

* `Script.parseItems_eq_descend` — any stack of open lists goes on from where a call has ended.
* `Script.descend_top` — outside of all lists a call ends only where nothing is left.
* `Script.descend_eq` — the descent and the parser agree.
-/

namespace ScriptLedger.Script

open Sequencing

/-- A place behind some of the tokens: those that are left. -/
abbrev Cursor (tokens : List Token) := { rest : List Token // rest <:+ tokens }

/-- The same place, seen from further back. -/
def Cursor.widen {tokens tokens' : List Token} (h : tokens' <:+ tokens) (cursor : Cursor tokens') :
    Cursor tokens :=
  ⟨cursor.val, cursor.property.trans h⟩

/-- Reads items to the closing bracket of the list that is open, or to the end if there is none,
given the place of its bracket and the items read in it, latest first. -/
def descend (opened : Option Place) (items : List Item) (tokens : List Token) :
    Except ParseError (List Item × Cursor tokens) :=
  match tokens with
  | [] =>
    match opened with
    | some place => .error ⟨place, .unclosedOpen⟩
    | none => .ok (items.reverse, ⟨[], List.suffix_rfl⟩)
  | token :: rest =>
    match token.lexeme with
    | .open => do
      let (inner, cursor) ← descend (some token.place) [] rest
      let values ← inner.mapM (valueInList token.place)
      let (items, last) ← descend opened (.push (.list values) :: items) cursor.val
      return (items, last.widen (cursor.property.trans (List.suffix_cons token rest)))
    | .close =>
      match opened with
      | some _ => .ok (items.reverse, ⟨rest, List.suffix_cons token rest⟩)
      | none => .error ⟨token.place, .unmatchedClose⟩
    | .quoted text => do
      let (items, last) ← descend opened (.push (.str (String.ofList text)) :: items) rest
      return (items, last.widen (List.suffix_cons token rest))
    | .word word =>
      match parseWord word with
      | .ok item => do
        let (items, last) ← descend opened (item :: items) rest
        return (items, last.widen (List.suffix_cons token rest))
      | .error cause => .error ⟨token.place, cause⟩
termination_by tokens.length
decreasing_by
  all_goals first
    | exact Nat.lt_succ_self _
    | exact Nat.lt_succ_of_le cursor.property.length_le

variable {opened : Option Place} {stack : List OpenList} {items read : List Item}
  {tokens : List Token}

/-! ## The stack -/

/-- What is made of the items that a call has read, and of the tokens behind them. -/
def resume (stack : List OpenList) (items : List Item) (rest : List Token) :
    Except ParseError (List Item) :=
  match stack with
  | [] => .ok items
  | opened :: stack => do
    let values ← items.mapM (valueInList opened.place)
    parseItems stack (.push (.list values) :: opened.before) rest

/-- The parser does what one call does, and goes on from where that ends. -/
theorem parseItems_eq_descend (hopened : stack.head?.map OpenList.place = opened) :
    parseItems stack items tokens =
      descend opened items tokens >>= fun read => resume stack read.1 read.2.val := by
  fun_induction descend opened items tokens generalizing stack with
  | case1 items place =>
      obtain ⟨opened, hhead, rfl⟩ := Option.map_eq_some_iff.mp hopened
      obtain ⟨stack, rfl⟩ := List.head?_eq_some_iff.mp hhead
      rfl
  | case2 items =>
      obtain rfl := List.head?_eq_none_iff.mp (Option.map_eq_none_iff.mp hopened)
      rfl
  | case3 opened items token rest hlexeme ihinside ihmore =>
      -- The call for the list goes on into the call for what stands behind it.
      obtain ⟨_, place⟩ := token
      obtain rfl := hlexeme
      rw [parseItems_open, ihinside rfl, bind_assoc]
      refine bind_congr fun inner => ?_
      rw [resume, bind_assoc]
      refine bind_congr fun values => ?_
      rw [ihmore inner.2 values hopened, bind_assoc]
      rfl
  | case4 items token rest hlexeme place =>
      obtain ⟨_, place'⟩ := token
      obtain rfl := hlexeme
      obtain ⟨opened, hhead, rfl⟩ := Option.map_eq_some_iff.mp hopened
      obtain ⟨stack, rfl⟩ := List.head?_eq_some_iff.mp hhead
      show _ = resume (opened :: stack) items.reverse rest
      rw [resume]
      cases hvalues : items.reverse.mapM (valueInList opened.place) with
      | error e => exact parseItems_closed_of_error hvalues
      | ok values => exact parseItems_closed hvalues
  | case5 items token rest hlexeme =>
      obtain ⟨_, place⟩ := token
      obtain rfl := hlexeme
      obtain rfl := List.head?_eq_none_iff.mp (Option.map_eq_none_iff.mp hopened)
      rfl
  | case6 opened items token rest text hlexeme ih =>
      obtain ⟨_, place⟩ := token
      obtain rfl := hlexeme
      rw [parseItems_quoted, ih hopened, bind_assoc]
      rfl
  | case7 opened items token rest word hlexeme item hitem ih =>
      obtain ⟨_, place⟩ := token
      obtain rfl := hlexeme
      rw [parseItems_word hitem, ih hopened, bind_assoc]
      rfl
  | case8 opened items token rest word hlexeme cause hcause =>
      obtain ⟨_, place⟩ := token
      obtain rfl := hlexeme
      rw [parseItems_word_of_error hcause]
      rfl

/-! ## The cursor -/

/-- Outside of all lists a call ends only where nothing is left. -/
theorem descend_top {cursor : Cursor tokens} (hopened : opened = none)
    (h : descend opened items tokens = .ok (read, cursor)) : cursor.val = [] := by
  fun_induction descend opened items tokens generalizing read with
  | case1 => cases hopened
  | case2 =>
      cases h
      rfl
  | case3 _ _ _ _ _ _ ihmore =>
      obtain ⟨inner, -, h⟩ := except_bind_eq_ok.mp h
      obtain ⟨values, -, h⟩ := except_bind_eq_ok.mp h
      obtain ⟨more, hmore, h⟩ := except_bind_eq_ok.mp h
      cases h
      exact ihmore _ _ hopened hmore
  | case4 => cases hopened
  | case5 => cases h
  | case6 _ _ _ _ _ _ ih =>
      obtain ⟨more, hmore, h⟩ := except_bind_eq_ok.mp h
      cases h
      exact ih hopened hmore
  | case7 _ _ _ _ _ _ _ _ ih =>
      obtain ⟨more, hmore, h⟩ := except_bind_eq_ok.mp h
      cases h
      exact ih hopened hmore
  | case8 => cases h

/-- The descent makes of the tokens what the parser makes of them, and leaves none. -/
theorem descend_eq (tokens : List Token) :
    (descend none [] tokens).map (fun read => (read.1, read.2.val)) =
      (parseItems [] [] tokens).map fun items => (items, []) := by
  have hparser : parseItems [] [] tokens = descend none [] tokens >>= fun read => .ok read.1 :=
    parseItems_eq_descend rfl
  rw [hparser]
  cases h : descend none [] tokens with
  | error e => rfl
  | ok read =>
      show Except.ok (read.1, read.2.val) = Except.ok (read.1, [])
      rw [descend_top rfl h]

end ScriptLedger.Script
