import Mathlib.Data.List.Nodup
import ScriptLedger.Proofs.Script.Display
import ScriptLedger.Proofs.Script.Numerals
import ScriptLedger.Proofs.Sequencing

/-!
# What words write

A word is the name of an instruction, in letters of either case; or a byte string, a mark and `0x`
and two hexadecimal digits for each byte; or a whole number.  The parser decides from the first
characters of a word which of these it is, and never looks back.  It need not: names, byte strings
and numbers begin differently.

## Main results

* `Bytes.Hex.decode_eq_ok_iff` — digits in either case, and nothing else, are read as bytes.
* `Opcode.ofName?_eq_some_iff` — every instruction is found under its name.
* `Script.parseWord_eq_ok_iff` — the words that are read, and what they write.
-/

namespace ScriptLedger

open Sequencing

/-! ## Byte strings -/

/-- Two digits for each byte, the high half first, in letters of either case. -/
inductive Script.Hexadecimal : List Char → List UInt8 → Prop
  | nil : Hexadecimal [] []
  | cons {high low : Char} {byte : UInt8} {word : List Char} {bytes : List UInt8}
      (hhigh : IsDigit 16 high (byte.toNat / 16)) (hlow : IsDigit 16 low (byte.toNat % 16))
      (h : Hexadecimal word bytes) : Hexadecimal (high :: low :: word) (byte :: bytes)

namespace Bytes.Hex

open Script

variable {c : Char} {byte high low : UInt8} {bytes rest : List UInt8} {word : List Char}
  {position d : Nat}

/-- The first byte of a long character is no digit. -/
theorem exists_utf8_of_long (hc : ¬c.toNat < 128) :
    ∃ byte more, String.utf8EncodeChar c = byte :: more ∧ value? byte = none := by
  have hnone : ∀ n < 64, value? (UInt8.ofNat (n + 192)) = none := by decide
  have hlong : ¬c.val.toNat ≤ 127 := fun h => hc (Nat.lt_succ_of_le h)
  unfold String.utf8EncodeChar
  dsimp only
  rw [if_neg hlong]
  split_ifs
  · exact ⟨_, _, rfl, hnone (c.val.toNat / 64 % 32) (by omega)⟩
  · exact ⟨_, _, rfl, hnone (c.val.toNat / 4096 % 16 + 32) (by omega)⟩
  · exact ⟨_, _, rfl, hnone (c.val.toNat / 262144 % 8 + 48) (by omega)⟩

/-- A character of ASCII is one byte, and has the same value as that. -/
theorem utf8_of_ascii (hc : c.toNat < 128) :
    ∃ byte, String.utf8EncodeChar c = [byte] ∧ value? byte = Json.hexValue? c := by
  have hascii : ∀ code : Fin 128,
      value? (UInt8.ofNat code) = Json.hexValue? (Char.ofNat code) := by decide
  have hvalue := hascii ⟨c.toNat, hc⟩
  rw [Char.ofNat_toNat] at hvalue
  exact ⟨_, if_pos (Nat.le_of_lt_succ hc), hvalue⟩

theorem utf8_of_isDigit (h : IsDigit 16 c d) :
    ∃ byte, String.utf8EncodeChar c = [byte] ∧ value? byte = some d := by
  obtain ⟨byte, hbytes, hvalue⟩ := utf8_of_ascii h.toNat_lt
  exact ⟨byte, hbytes, hvalue.trans (hexValue?_eq_some_iff.mpr h)⟩

/-- A character whose first byte is a digit is one, and has no other byte. -/
theorem isDigit_of_value? (hbytes : String.utf8EncodeChar c = byte :: rest)
    (hvalue : value? byte = some d) : IsDigit 16 c d ∧ rest = [] := by
  by_cases hc : c.toNat < 128
  · obtain ⟨byte', hbytes', hsame⟩ := utf8_of_ascii hc
    obtain ⟨rfl, rfl⟩ := List.cons.inj (hbytes.symm.trans hbytes')
    exact ⟨hexValue?_eq_some_iff.mp (hsame.symm.trans hvalue), rfl⟩
  · obtain ⟨byte', more, hbytes', hnone⟩ := exists_utf8_of_long hc
    obtain ⟨rfl, -⟩ := List.cons.inj (hbytes.symm.trans hbytes')
    rw [hnone] at hvalue
    cases hvalue

theorem exists_utf8 (c : Char) : ∃ byte more, String.utf8EncodeChar c = byte :: more := by
  by_cases hc : c.toNat < 128
  · obtain ⟨byte, hbytes, -⟩ := utf8_of_ascii hc
    exact ⟨byte, [], hbytes⟩
  · obtain ⟨byte, more, hbytes, -⟩ := exists_utf8_of_long hc
    exact ⟨byte, more, hbytes⟩

theorem valueAt_eq_ok_iff : valueAt byte position = .ok d ↔ value? byte = some d := by
  rw [valueAt]
  cases value? byte <;> simp

theorem decodeFrom_cons_eq_ok_iff : decodeFrom position (high :: low :: rest) = .ok bytes ↔
    ∃ h, value? high = some h ∧ ∃ l, value? low = some l ∧
      ∃ tail, decodeFrom (position + 2) rest = .ok tail ∧
        UInt8.ofNat (16 * h + l) :: tail = bytes := by
  rw [decodeFrom]
  simp only [except_bind_eq_ok, valueAt_eq_ok_iff]
  simp only [pure, Except.pure, Except.ok.injEq]

/-- Two halves make the byte whose halves they are. -/
theorem ofNat_halves {h l : Nat} (hh : h < 16) (hl : l < 16) :
    (UInt8.ofNat (16 * h + l)).toNat / 16 = h ∧ (UInt8.ofNat (16 * h + l)).toNat % 16 = l := by
  have hvalue : (UInt8.ofNat (16 * h + l)).toNat = 16 * h + l :=
    UInt8.toNat_ofNat_of_lt (by show 16 * h + l < 256; omega)
  rw [hvalue]
  omega

theorem ofNat_toNat_halves (byte : UInt8) :
    UInt8.ofNat (16 * (byte.toNat / 16) + byte.toNat % 16) = byte := by
  rw [Nat.div_add_mod, UInt8.ofNat_toNat]

/-- Digits are single bytes, and are read two by two. -/
theorem decodeFrom_of_hexadecimal (h : Hexadecimal word bytes) (position : Nat) :
    (word.flatMap String.utf8EncodeChar).length = 2 * bytes.length ∧
      decodeFrom position (word.flatMap String.utf8EncodeChar) = .ok bytes := by
  induction h generalizing position with
  | nil => exact ⟨rfl, rfl⟩
  | @cons high low byte word bytes hhigh hlow _ ih =>
      obtain ⟨high', hbytes, hvalue⟩ := utf8_of_isDigit hhigh
      obtain ⟨low', hbytes', hvalue'⟩ := utf8_of_isDigit hlow
      obtain ⟨hlength, hmore⟩ := ih (position + 2)
      rw [List.flatMap_cons, List.flatMap_cons, hbytes, hbytes', List.singleton_append,
        List.singleton_append]
      refine ⟨?_, decodeFrom_cons_eq_ok_iff.mpr
        ⟨_, hvalue, _, hvalue', bytes, hmore, ?_⟩⟩
      · rw [List.length_cons, List.length_cons, hlength, List.length_cons]
        omega
      · rw [ofNat_toNat_halves]

/-- What has been read was written in digits.  The bytes are taken two by two although they are
not those of two characters if one of these is long; but then the first of its bytes is refused. -/
theorem hexadecimal_of_decodeFrom (position : Nat) : ∀ (word : List Char) {bytes : List UInt8},
    (word.flatMap String.utf8EncodeChar).length % 2 = 0 →
    decodeFrom position (word.flatMap String.utf8EncodeChar) = .ok bytes → Hexadecimal word bytes
  | [], bytes, _, h => by
    cases h
    exact .nil
  | [c], bytes, heven, h => by
    obtain ⟨byte, more, hbytes⟩ := exists_utf8 c
    rw [List.flatMap_singleton, hbytes] at heven h
    cases more with
    | nil => cases heven
    | cons next more =>
        obtain ⟨_, hvalue, -⟩ := decodeFrom_cons_eq_ok_iff.mp h
        exact nomatch (isDigit_of_value? hbytes hvalue).2
  | high :: low :: word, bytes, heven, h => by
    obtain ⟨byte, more, hbytes⟩ := exists_utf8 high
    obtain ⟨byte', more', hbytes'⟩ := exists_utf8 low
    rw [List.flatMap_cons, List.flatMap_cons, hbytes, hbytes'] at heven h
    cases more with
    | cons next more =>
        obtain ⟨_, hvalue, -⟩ := decodeFrom_cons_eq_ok_iff.mp h
        exact nomatch (isDigit_of_value? hbytes hvalue).2
    | nil =>
        obtain ⟨d, hvalue, d', hvalue', tail, htail, rfl⟩ := decodeFrom_cons_eq_ok_iff.mp h
        obtain ⟨hhigh, -⟩ := isDigit_of_value? hbytes hvalue
        obtain ⟨hlow, rfl⟩ := isDigit_of_value? hbytes' hvalue'
        obtain ⟨hd, hd'⟩ := ofNat_halves hhigh.lt hlow.lt
        have hrest : (word.flatMap String.utf8EncodeChar).length % 2 = 0 := by
          simp only [List.cons_append, List.nil_append, List.length_cons] at heven
          omega
        exact .cons (hd.symm ▸ hhigh) (hd'.symm ▸ hlow)
          (hexadecimal_of_decodeFrom (position + 2) word hrest htail)

theorem decode_eq_ok_iff : decode (utf8 (String.ofList word)) = .ok bytes ↔
    Hexadecimal word bytes := by
  rw [decode, utf8, String.toList_ofList]
  constructor
  · intro h
    split at h
    next => cases h
    next hodd => exact hexadecimal_of_decodeFrom 0 word (by omega) h
  · intro h
    obtain ⟨hlength, hread⟩ := decodeFrom_of_hexadecimal h 0
    rw [if_neg (by omega), hread]

end Bytes.Hex

theorem Blob.ofHex_eq_ok_iff {k : Kind} {b : Blob k} {word : List Char} :
    Blob.ofHex k (String.ofList word) = .ok b ↔ Script.Hexadecimal word b.toList := by
  rw [Blob.ofHex, ← Bytes.Hex.decode_eq_ok_iff]
  cases hread : Bytes.Hex.decode (Bytes.utf8 (String.ofList word)) with
  | error cause => exact iff_of_false (by simp) (by simp)
  | ok bytes =>
      constructor
      · intro h
        rw [Blob.toList_of_ofList h]
      · intro h
        obtain rfl : bytes = b.toList := Except.ok.inj h
        exact Blob.ofList_toList b

/-! ## Instructions -/

namespace Opcode

variable {op : Opcode} {word : List Char}

theorem mem_table (op : Opcode) : (op, op.name) ∈ table := by
  cases op with
  | crypto op => cases op <;> decide
  | stack op => cases op <;> decide
  | frame op => cases op <;> decide
  | control op => cases op <;> decide
  | list op => cases op <;> decide
  | account op => cases op <;> decide
  | kill => decide
  | arith op =>
      cases op with
      | binary op => cases op <;> decide
      | _ => decide

/-- The names in the table are different, begin alike, and are in upper case. -/
theorem table_names : (table.map (·.2)).Nodup ∧ ∀ entry ∈ table, entry.1.name = entry.2 ∧
    Script.looksLikeOpcode entry.2.toList = true ∧
    entry.2.toList.map Char.toUpper = entry.2.toList := by decide

theorem name_inj {op' : Opcode} (h : op.name = op'.name) : op = op' :=
  congrArg Prod.fst (List.inj_on_of_nodup_map table_names.1 (mem_table op) (mem_table op') h)

/-- An instruction is found under its name, in either case, and under no other. -/
theorem ofName?_eq_some_iff :
    ofName? word = some op ↔ word.map Char.toUpper = op.name.toList := by
  have hfind : ∀ {entry}, (table.find? fun entry => entry.2.toList == word.map Char.toUpper) =
      some entry → entry.1.name.toList = word.map Char.toUpper := by
    intro entry h
    have hspelled := List.find?_some h
    rw [(table_names.2 entry (List.mem_of_find?_eq_some h)).1]
    exact beq_iff_eq.mp hspelled
  rw [ofName?, Option.map_eq_some_iff]
  constructor
  · rintro ⟨entry, h, rfl⟩
    exact (hfind h).symm
  · intro hword
    have hfound : (table.find? fun entry => entry.2.toList == word.map Char.toUpper).isSome := by
      rw [List.find?_isSome]
      exact ⟨_, mem_table op, beq_iff_eq.mpr hword.symm⟩
    obtain ⟨entry, h⟩ := Option.isSome_iff_exists.mp hfound
    exact ⟨entry, h, name_inj (String.toList_inj.mp ((hfind h).trans hword))⟩

/-- Names are recognized before they are looked up. -/
theorem looksLikeOpcode_of_name (h : word.map Char.toUpper = op.name.toList) :
    Script.looksLikeOpcode word = true := by
  obtain ⟨-, hbegins, hupper⟩ := table_names.2 _ (mem_table op)
  have hname : Script.Recased op.name.toList word := ⟨hbegins, hupper.trans h.symm⟩
  exact hname.looksLikeOpcode

end Opcode

/-! ## Words -/

namespace Script

variable {word digits : List Char} {item : Item} {c : Char} {n base : Nat} {i : Int}

/-- What a word writes: an instruction by its name, a byte string, or a whole number. -/
inductive Writes : List Char → Item → Prop
  | op {word : List Char} {op : Opcode} (h : word.map Char.toUpper = op.name.toList) :
      Writes word (.op op)
  | bytes {kind : Kind} {digits : List Char} {b : Blob kind} (h : Hexadecimal digits b.toList) :
      Writes (kind.mark :: '0' :: 'x' :: digits) (.push (.bytes kind b))
  | int {word : List Char} {value : Int64} (h : Numeral word value.toInt) :
      Writes word (.push (.int value))

theorem ofMark?_eq_some_iff {kind : Kind} : Kind.ofMark? c = some kind ↔ c = kind.mark := by
  constructor
  · intro h
    unfold Kind.ofMark? at h
    split at h <;> cases h <;> rfl
  · rintro rfl
    cases kind <;> rfl

theorem ne_underscore_of_magnitude (h : Magnitude word n) (hc : c ∈ word) : c ≠ '_' := by
  have hdigit : ∀ {c d}, IsDigit 16 c d → c ≠ '_' := by
    rintro _ d hd rfl
    exact nomatch (hexValue?_eq_some_iff.mpr hd)
  cases h with
  | decimal h =>
      obtain ⟨d, hd⟩ := h.of_mem hc
      exact hdigit (d := d) ⟨hd.lt.trans (by decide), hd.eq⟩
  | hexadecimal hmark h =>
      rcases List.mem_cons.mp hc with rfl | hc
      · decide
      rcases List.mem_cons.mp hc with rfl | hc
      · rcases hmark with rfl | rfl <;> decide
      · obtain ⟨d, hd⟩ := h.of_mem hc
        exact hdigit hd

/-- No number begins like an instruction. -/
theorem looksLikeOpcode_of_numeral (h : Numeral word i) : looksLikeOpcode word = false := by
  refine looksLikeOpcode_eq_false fun c hc => ?_
  cases h with
  | plain h => exact ne_underscore_of_magnitude h hc
  | plus h | minus h =>
      rcases List.mem_cons.mp hc with rfl | hc
      · decide
      · exact ne_underscore_of_magnitude h hc

theorem numeral_head (h : Numeral (c :: word) i) : c = '+' ∨ c = '-' ∨ ∃ d, IsDigit 10 c d := by
  cases h with
  | plain h => exact Or.inr (Or.inr h.head)
  | plus => exact Or.inl rfl
  | minus => exact Or.inr (Or.inl rfl)

/-- No number begins like a byte string. -/
theorem markedBytes_of_numeral (h : Numeral word i) : markedBytes word = none := by
  unfold markedBytes
  split
  next mark digits =>
    refine Option.map_eq_none_iff.mpr (Option.eq_none_iff_forall_not_mem.mpr fun kind hkind => ?_)
    obtain rfl := ofMark?_eq_some_iff.mp hkind
    have hmark : decimalValue? kind.mark = none := by cases kind <;> rfl
    rcases numeral_head h with hsign | hsign | ⟨d, hd⟩
    · cases kind <;> exact absurd hsign (by decide)
    · cases kind <;> exact absurd hsign (by decide)
    · exact not_isDigit hmark hd
  next => rfl

theorem markedBytes_of_hexadecimal {kind : Kind} {b : Blob kind} (h : Hexadecimal digits b.toList) :
    markedBytes (kind.mark :: '0' :: 'x' :: digits) = some (.ok (.bytes kind b)) := by
  rw [markedBytes, ofMark?_eq_some_iff.mpr rfl, Option.map_some, Blob.ofHex_eq_ok_iff.mpr h]

theorem writes_of_markedBytes {value : Value} (h : markedBytes word = some (.ok value)) :
    Writes word (.push value) := by
  unfold markedBytes at h
  split at h
  next mark digits =>
    obtain ⟨kind, hkind, hvalue⟩ := Option.map_eq_some_iff.mp h
    obtain rfl := ofMark?_eq_some_iff.mp hkind
    cases hread : Blob.ofHex kind (String.ofList digits) with
    | error cause =>
        rw [hread] at hvalue
        cases hvalue
    | ok b =>
        rw [hread] at hvalue
        cases hvalue
        exact .bytes (Blob.ofHex_eq_ok_iff.mp hread)
  next => cases h

theorem writes_of_parseWord (h : parseWord word = .ok item) : Writes word item := by
  rw [parseWord] at h
  by_cases hname : looksLikeOpcode word = true
  · rw [if_pos hname] at h
    cases hop : Opcode.ofName? word with
    | none =>
        rw [hop] at h
        cases h
    | some op =>
        rw [hop] at h
        cases h
        exact .op (Opcode.ofName?_eq_some_iff.mp hop)
  · rw [if_neg hname] at h
    cases hbytes : markedBytes word with
    | some read =>
        rw [hbytes] at h
        obtain ⟨value, rfl, rfl⟩ := except_map_eq_ok.mp h
        exact writes_of_markedBytes hbytes
    | none =>
        rw [hbytes] at h
        cases hint : parseInt word with
        | none =>
            rw [hint] at h
            cases h
        | some value =>
            rw [hint] at h
            cases h
            exact .int (parseInt_eq_some_iff.mp hint)

/-- A word is read as what it writes, and one that writes nothing is refused. -/
theorem parseWord_eq_ok_iff : parseWord word = .ok item ↔ Writes word item := by
  refine ⟨writes_of_parseWord, fun h => ?_⟩
  cases h with
  | op h =>
      rw [parseWord, if_pos (Opcode.looksLikeOpcode_of_name h), Opcode.ofName?_eq_some_iff.mpr h]
  | @bytes kind digits b h =>
      have hname : looksLikeOpcode (kind.mark :: '0' :: 'x' :: digits) = false := rfl
      rw [parseWord, hname, markedBytes_of_hexadecimal h]
      rfl
  | int h =>
      rw [parseWord, looksLikeOpcode_of_numeral h, markedBytes_of_numeral h,
        parseInt_eq_some_iff.mpr h]
      rfl

end Script

end ScriptLedger
