import Mathlib.Data.List.Forall2
import Mathlib.Data.Nat.Digits.Defs
import ScriptLedger.Script.Integer

/-!
# Whole numbers in digits

A whole number is written with a sign or without one, in decimal digits or, behind `0x` or `0X`,
in hexadecimal ones.  There may be any number of digits, and zeros before the others.  What the
digits write is a sum of powers of the base; a word is read if this number, with its sign, is a
signed word of 64 bits, and it is then read as exactly this number.

A reader that keeps what it has read so far in a wider word, and gives up when that overflows,
reads the same numbers: a number that has outgrown the wider word does not come back.  Such a
reader may take a sign of its own; then a second sign has to be refused before it is called.

## Main results

* `Script.Numeral` — the words that write a whole number.
* `Script.digits?_eq_some_iff`, `Script.magnitude?_eq_some_iff` — digits are read as their number.
* `Script.parseIntWithin_eq` — a wider word that may overflow makes no difference.
* `Script.parseInt_exact` — the numbers that are read, and those that are not.
-/

namespace ScriptLedger.Script

variable {base d n start max : Nat} {i : Int} {c : Char} {word : List Char}
  {value? : Char → Option Nat}

/-! ## Numerals -/

/-- A character is the digit of a value in a base.  A letter may stand in either case. -/
structure IsDigit (base : Nat) (c : Char) (value : Nat) : Prop where
  lt : value < base
  eq : c = value.digitChar ∨ c = value.digitChar.toUpper

instance : Decidable (IsDigit base c d) :=
  decidable_of_iff (d < base ∧ (c = d.digitChar ∨ c = d.digitChar.toUpper))
    ⟨fun h => ⟨h.1, h.2⟩, fun h => ⟨h.lt, h.eq⟩⟩

/-- One digit or more in a base, the greatest first, and the number that they write. -/
structure Digits (base : Nat) (word : List Char) (n : Nat) : Prop where
  ne_nil : word ≠ []
  exists_values : ∃ values, List.Forall₂ (IsDigit base) word values ∧
    n = Nat.ofDigits base values.reverse

/-- The digits of a number without a sign, in one of the two bases. -/
inductive Magnitude : List Char → Nat → Prop
  | decimal {word : List Char} {n : Nat} (h : Digits 10 word n) : Magnitude word n
  | hexadecimal {mark : Char} {word : List Char} {n : Nat} (hmark : mark = 'x' ∨ mark = 'X')
      (h : Digits 16 word n) : Magnitude ('0' :: mark :: word) n

/-- A whole number with at most one sign. -/
inductive Numeral : List Char → Int → Prop
  | plain {word : List Char} {n : Nat} (h : Magnitude word n) : Numeral word n
  | plus {word : List Char} {n : Nat} (h : Magnitude word n) : Numeral ('+' :: word) n
  | minus {word : List Char} {n : Nat} (h : Magnitude word n) : Numeral ('-' :: word) (-n)

/-! ## Digits -/

/-- The digits are ASCII, so there are few characters to look at. -/
theorem value?_eq_some_iff (hascii : ∀ c, (value? c).isSome → c.toNat < 128)
    (hvalue : ∀ code : Fin 128, ∀ d ∈ value? (Char.ofNat code), IsDigit base (Char.ofNat code) d)
    (hdigit : ∀ d : Fin base, value? d.val.digitChar = some d.val ∧
      value? d.val.digitChar.toUpper = some d.val) :
    value? c = some d ↔ IsDigit base c d := by
  constructor
  · intro h
    have hlt : c.toNat < 128 := hascii c (by rw [h]; rfl)
    have hthis := hvalue ⟨c.toNat, hlt⟩ d
    rw [Char.ofNat_toNat] at hthis
    exact hthis h
  · rintro ⟨hlt, rfl | rfl⟩
    · exact (hdigit ⟨d, hlt⟩).1
    · exact (hdigit ⟨d, hlt⟩).2

theorem decimalValue?_eq_some_iff : decimalValue? c = some d ↔ IsDigit 10 c d := by
  refine value?_eq_some_iff (fun c h => ?_) (by decide) (by decide)
  unfold decimalValue? at h
  split at h
  next hc =>
    simp only [Char.isDigit, Bool.and_eq_true, decide_eq_true_eq] at hc
    have hhigh : c.toNat ≤ 57 := UInt32.le_iff_toNat_le.mp hc.2
    omega
  next => cases h

theorem not_isDigit (h : decimalValue? c = none) : ¬IsDigit 10 c d := fun hd =>
  nomatch h.symm.trans (decimalValue?_eq_some_iff.mpr hd)

theorem hexValue?_eq_some_iff : Json.hexValue? c = some d ↔ IsDigit 16 c d := by
  refine value?_eq_some_iff (fun c h => ?_) (by decide) (by decide)
  have hle : ∀ {a : Char}, c ≤ a → c.toNat ≤ a.toNat := UInt32.le_iff_toNat_le.mp
  unfold Json.hexValue? at h
  split_ifs at h with hdecimal hlower hupper
  · exact (hle hdecimal.2).trans_lt (by decide)
  · exact (hle hlower.2).trans_lt (by decide)
  · exact (hle hupper.2).trans_lt (by decide)
  · cases h

theorem IsDigit.toNat_lt (h : IsDigit 16 c d) : c.toNat < 128 := by
  have hdigit : ∀ d : Fin 16, d.val.digitChar.toNat < 128 ∧
      d.val.digitChar.toUpper.toNat < 128 := by decide
  obtain ⟨hlt, rfl | rfl⟩ := h
  · exact (hdigit ⟨d, hlt⟩).1
  · exact (hdigit ⟨d, hlt⟩).2

/-! ## Numbers -/

/-- Digits are read one by one, each behind what the ones before it write. -/
theorem foldlM_eq_some_iff (hvalue : ∀ c d, value? c = some d ↔ IsDigit base c d) :
    word.foldlM (fun n c => (value? c).map (base * n + ·)) start = some n ↔
      ∃ values, List.Forall₂ (IsDigit base) word values ∧
        n = values.foldl (fun n d => base * n + d) start := by
  induction word generalizing start with
  | nil =>
      rw [List.foldlM_nil]
      constructor
      · rintro ⟨⟩
        exact ⟨[], .nil, rfl⟩
      · rintro ⟨_, ⟨⟩, rfl⟩
        rfl
  | cons c word ih =>
      rw [List.foldlM_cons, Option.bind_eq_bind, Option.bind_eq_some_iff]
      constructor
      · rintro ⟨next, hnext, hmore⟩
        obtain ⟨d, hd, rfl⟩ := Option.map_eq_some_iff.mp hnext
        obtain ⟨values, hvalues, rfl⟩ := ih.mp hmore
        exact ⟨d :: values, .cons ((hvalue c d).mp hd) hvalues, rfl⟩
      · rintro ⟨_, hall, rfl⟩
        obtain ⟨d, values, hd, hvalues, rfl⟩ := List.forall₂_cons_left_iff.mp hall
        exact ⟨base * start + d, Option.map_eq_some_iff.mpr ⟨d, (hvalue c d).mpr hd, rfl⟩,
          ih.mpr ⟨values, hvalues, rfl⟩⟩

theorem foldl_eq_ofDigits (base : Nat) (values : List Nat) :
    values.foldl (fun n d => base * n + d) 0 = Nat.ofDigits base values.reverse := by
  rw [Nat.ofDigits_eq_foldr, List.foldr_reverse]
  simp only [Nat.cast_id, Nat.add_comm]

theorem digits?_eq_some_iff (hvalue : ∀ c d, value? c = some d ↔ IsDigit base c d) :
    digits? base value? word = some n ↔ Digits base word n := by
  cases word with
  | nil => exact ⟨nofun, fun h => absurd rfl h.ne_nil⟩
  | cons c word =>
      rw [digits?, foldlM_eq_some_iff hvalue]
      simp only [foldl_eq_ofDigits]
      · exact ⟨fun h => ⟨List.cons_ne_nil _ _, h⟩, fun h => h.exists_values⟩
      · exact List.cons_ne_nil _ _

/-- Every character is a digit. -/
theorem Digits.of_mem (h : Digits base word n) (hc : c ∈ word) : ∃ d, IsDigit base c d := by
  obtain ⟨values, hvalues, -⟩ := h.exists_values
  clear h
  induction hvalues with
  | nil => exact absurd hc List.not_mem_nil
  | @cons _ d _ _ hd _ ih =>
      rcases List.mem_cons.mp hc with rfl | hc
      · exact ⟨d, hd⟩
      · exact ih hc

/-- The mark of the other base is no decimal digit. -/
theorem not_digits_of_mark {mark : Char} (hmark : mark = 'x' ∨ mark = 'X') :
    ¬Digits 10 (c :: mark :: word) n := by
  intro h
  obtain ⟨d, hd⟩ := h.of_mem (c := mark) (by simp)
  rcases hmark with rfl | rfl
  · exact not_isDigit rfl hd
  · exact not_isDigit rfl hd

theorem magnitude?_eq_some_iff : magnitude? word = some n ↔ Magnitude word n := by
  have hhex : ∀ {digits : List Char},
      digits? 16 Json.hexValue? digits = some n ↔ Digits 16 digits n :=
    digits?_eq_some_iff fun _ _ => hexValue?_eq_some_iff
  unfold magnitude?
  split
  next digits =>
    rw [hhex]
    refine ⟨.hexadecimal (Or.inl rfl), ?_⟩
    rintro (h | ⟨-, h⟩)
    · exact absurd h (not_digits_of_mark (Or.inl rfl))
    · exact h
  next digits =>
    rw [hhex]
    refine ⟨.hexadecimal (Or.inr rfl), ?_⟩
    rintro (h | ⟨-, h⟩)
    · exact absurd h (not_digits_of_mark (Or.inr rfl))
    · exact h
  next hlower hupper =>
    rw [digits?_eq_some_iff fun _ _ => decimalValue?_eq_some_iff]
    refine ⟨.decimal, ?_⟩
    rintro (h | @⟨mark, digits, -, rfl | rfl, h⟩)
    · exact h
    · exact absurd rfl (hlower digits)
    · exact absurd rfl (hupper digits)

/-! ## Signs -/

theorem Magnitude.head (h : Magnitude (c :: word) n) : ∃ d, IsDigit 10 c d := by
  cases h with
  | decimal h => exact h.of_mem List.mem_cons_self
  | hexadecimal => exact ⟨0, by decide⟩

/-- A magnitude begins with a digit, so a sign before it is the only one. -/
theorem splitSign_of_magnitude (h : Magnitude word n) : splitSign word = (false, word) := by
  unfold splitSign
  split
  · exact h.head.elim fun _ hd => absurd hd (not_isDigit rfl)
  · exact h.head.elim fun _ hd => absurd hd (not_isDigit rfl)
  · rfl

theorem splitSign_cases (word : List Char) : (∃ rest, word = '-' :: rest) ∨
    (∃ rest, word = '+' :: rest) ∨ splitSign word = (false, word) := by
  unfold splitSign
  split
  next rest => exact Or.inl ⟨rest, rfl⟩
  next rest => exact Or.inr (Or.inl ⟨rest, rfl⟩)
  next => exact Or.inr (Or.inr rfl)

theorem numeral_iff : Numeral word i ↔ ∃ n : Nat, Magnitude (splitSign word).2 n ∧
    i = if (splitSign word).1 then -(n : Int) else n := by
  constructor
  · rintro (h | h | h)
    · rw [splitSign_of_magnitude h]
      exact ⟨_, h, rfl⟩
    · exact ⟨_, h, rfl⟩
    · exact ⟨_, h, rfl⟩
  · rintro ⟨n, h, rfl⟩
    rcases splitSign_cases word with ⟨rest, rfl⟩ | ⟨rest, rfl⟩ | hplain
    · exact .minus h
    · exact .plus h
    · rw [hplain] at h ⊢
      exact .plain h

theorem parseInt_eq_some_iff {value : Int64} :
    parseInt word = some value ↔ Numeral word value.toInt := by
  rw [parseInt, Option.bind_eq_bind, Option.bind_eq_some_iff, numeral_iff]
  simp only [magnitude?_eq_some_iff, Word.signed?_eq_some_iff]

/-! ## Words that may overflow -/

/-- The number that digits write, in a word that holds numbers up to `max`. -/
def digitsWithin? (max base : Nat) (value? : Char → Option Nat) : List Char → Option Nat
  | [] => none
  | digits => digits.foldlM (fun n c => (value? c).bind fun d =>
      if base * n + d ≤ max then some (base * n + d) else none) 0

/-- The whole number that digits write behind a sign or without one, in a word that holds numbers
up to `max`, and negative ones of one more. -/
def signedWithin? (max base : Nat) (value? : Char → Option Nat) : List Char → Option Int
  | '-' :: digits => (digitsWithin? (max + 1) base value? digits).map fun n => -(n : Int)
  | '+' :: digits => (digitsWithin? max base value? digits).map Int.ofNat
  | digits => (digitsWithin? max base value? digits).map Int.ofNat

/-- The same reader, if the sign that it would take is not there. -/
def unsignedWithin? (max base : Nat) (value? : Char → Option Nat) : List Char → Option Int
  | '-' :: _ => none
  | '+' :: _ => none
  | digits => signedWithin? max base value? digits

/-- The number that an unsigned word writes, in a word that holds numbers up to `max`. -/
def magnitudeWithin? (max : Nat) : List Char → Option Int
  | '0' :: 'x' :: digits => unsignedWithin? max 16 Json.hexValue? digits
  | '0' :: 'X' :: digits => unsignedWithin? max 16 Json.hexValue? digits
  | digits => unsignedWithin? max 10 decimalValue? digits

/-- The whole number that a word writes, read behind its sign in a word that holds numbers up to
`max`. -/
def parseIntWithin (max : Nat) (word : List Char) : Option Int64 := do
  let (negative, rest) := splitSign word
  let n ← magnitudeWithin? max rest
  Word.signed? (if negative then -n else n)

/-- More digits never make a number smaller. -/
theorem le_of_foldlM (hbase : 0 < base)
    (h : word.foldlM (fun n c => (value? c).map (base * n + ·)) start = some n) : start ≤ n := by
  induction word generalizing start with
  | nil => exact Nat.le_of_eq (Option.some.inj h)
  | cons c word ih =>
      rw [List.foldlM_cons, Option.bind_eq_bind, Option.bind_eq_some_iff] at h
      obtain ⟨next, hnext, hmore⟩ := h
      obtain ⟨d, -, rfl⟩ := Option.map_eq_some_iff.mp hnext
      exact (Nat.le_mul_of_pos_left start hbase).trans ((Nat.le_add_right _ _).trans (ih hmore))

/-- Numbers that overflow are those that are too great in the end. -/
theorem foldlM_within (hbase : 0 < base) (hstart : start ≤ max) (word : List Char) :
    word.foldlM (fun n c => (value? c).bind fun d =>
        if base * n + d ≤ max then some (base * n + d) else none) start =
      (word.foldlM (fun n c => (value? c).map (base * n + ·)) start).filter (· ≤ max) := by
  induction word generalizing start with
  | nil =>
      rw [List.foldlM_nil, List.foldlM_nil, Option.pure_def, Option.filter_some,
        if_pos (decide_eq_true hstart)]
  | cons c word ih =>
      rw [List.foldlM_cons, List.foldlM_cons]
      cases hc : value? c with
      | none => rfl
      | some d =>
          simp only [Option.bind_eq_bind, Option.bind_some, Option.map_some]
          by_cases hnext : base * start + d ≤ max
          · rw [if_pos hnext, Option.bind_some, ih hnext]
          · rw [if_neg hnext, Option.bind_none]
            refine (Option.filter_eq_none_iff.mpr fun n hn hle => hnext ?_).symm
            exact (le_of_foldlM hbase hn).trans (of_decide_eq_true hle)

theorem digitsWithin?_eq (hbase : 0 < base) (word : List Char) :
    digitsWithin? max base value? word = (digits? base value? word).filter (· ≤ max) := by
  cases word with
  | nil => rfl
  | cons c word => exact foldlM_within hbase (Nat.zero_le _) (c :: word)

theorem digits?_of_sign (hsign : value? c = none) (word : List Char) :
    digits? base value? (c :: word) = none := by
  rw [digits?, List.foldlM_cons, hsign]
  · rfl
  · exact List.cons_ne_nil _ _

/-- A second sign is no digit, so nothing is lost where it is refused. -/
theorem unsignedWithin?_eq (hbase : 0 < base) (hminus : value? '-' = none)
    (hplus : value? '+' = none) (word : List Char) : unsignedWithin? max base value? word =
      ((digits? base value? word).filter (· ≤ max)).map Int.ofNat := by
  unfold unsignedWithin?
  split
  next digits =>
    rw [digits?_of_sign hminus]
    rfl
  next digits =>
    rw [digits?_of_sign hplus]
    rfl
  next hminus hplus =>
    rw [signedWithin?, digitsWithin?_eq hbase]
    · exact hminus
    · exact hplus

theorem magnitudeWithin?_eq (max : Nat) (word : List Char) :
    magnitudeWithin? max word = ((magnitude? word).filter (· ≤ max)).map Int.ofNat := by
  unfold magnitudeWithin?
  split
  next digits => exact unsignedWithin?_eq (Nat.succ_pos _) rfl rfl digits
  next digits => exact unsignedWithin?_eq (Nat.succ_pos _) rfl rfl digits
  next hlower hupper =>
    rw [magnitude?]
    · exact unsignedWithin?_eq (Nat.succ_pos _) rfl rfl word
    · exact hlower
    · exact hupper

/-- A wider word loses nothing: a number that it cannot hold is none that is asked for. -/
theorem parseIntWithin_eq (hmax : 2 ^ 63 ≤ max) (word : List Char) :
    parseIntWithin max word = parseInt word := by
  show (magnitudeWithin? max (splitSign word).2).bind _ = (magnitude? (splitSign word).2).bind _
  rw [magnitudeWithin?_eq]
  cases magnitude? (splitSign word).2 with
  | none => rfl
  | some n =>
      by_cases hn : n ≤ max
      · rw [Option.filter_some, if_pos (decide_eq_true hn)]
        rfl
      · rw [Option.filter_some, if_neg (by simpa using hn)]
        refine (Option.eq_none_iff_forall_not_mem.mpr fun value hvalue => ?_).symm
        have hvalue := Word.signed?_eq_some_iff.mp hvalue
        have hlow := Int64.le_toInt value
        have hhigh := Int64.toInt_lt value
        split at hvalue <;> omega

/-! ## Reading a number -/

/-- The value of a word that is read is the number that it writes.  What is not read writes no
whole number, or one that is no signed word of 64 bits.  To read the digits in a signed word of
128 bits, with a reader that takes signs, makes no difference. -/
theorem parseInt_exact (word : List Char) :
    (∀ value : Int64, parseInt word = some value ↔ Numeral word value.toInt) ∧
    (parseInt word = none ↔ ∀ i, Numeral word i → i < -2 ^ 63 ∨ 2 ^ 63 ≤ i) ∧
    parseIntWithin (2 ^ 127 - 1) word = parseInt word := by
  refine ⟨fun value => parseInt_eq_some_iff, ⟨fun hnone i hi => ?_, fun hrange => ?_⟩,
    parseIntWithin_eq (by decide) word⟩
  · by_contra hfits
    have hvalue : (Int64.ofInt i).toInt = i := Int64.toInt_ofInt_of_le (by omega) (by omega)
    rw [← hvalue, ← parseInt_eq_some_iff, hnone] at hi
    cases hi
  · refine Option.eq_none_iff_forall_not_mem.mpr fun value hvalue => ?_
    have hlow := Int64.le_toInt value
    have hhigh := Int64.toInt_lt value
    have hout := hrange value.toInt (parseInt_eq_some_iff.mp hvalue)
    omega

example : parseInt "-0X08000000000000000".toList = some Int64.minValue ∧
    parseInt "9223372036854775808".toList = none ∧ parseInt "-+1".toList = none := by decide

end ScriptLedger.Script
