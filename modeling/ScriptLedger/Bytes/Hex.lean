import ScriptLedger.Text.Quoted

/-!
# Hexadecimal digits

The written form of every byte string: two digits a byte, the high half
first, in lower case.  Reading takes either case and no mark in front, works
on the UTF-8 bytes of the text, and names the first byte that is no digit.
`decode_encode` says that writing can be read back.
-/

namespace ScriptLedger.Bytes

/-- The UTF-8 bytes of a text. -/
def utf8 (s : String) : List UInt8 := s.toList.flatMap String.utf8EncodeChar

namespace Hex

/-- Why a text is no hexadecimal byte string. -/
inductive Error
  /-- The text has an odd number of bytes. -/
  | oddLength
  /-- The byte at a position is no digit. -/
  | badDigit (byte : UInt8) (position : Nat)
deriving Repr, DecidableEq

/-- The wording of a failure; a byte is shown as the character of its number. -/
def Error.message : Error → String
  | .oddLength => "Odd number of digits"
  | .badDigit byte position =>
    "Invalid character " ++ Text.quoteChar (Char.ofNat byte.toNat)
      ++ " at position " ++ toString position

/-! ## Digits -/

/-- The digit for a value below sixteen. -/
def digit (n : Nat) : Char := Nat.digitChar n

/-- The value of a digit in ASCII, in either case. -/
def value? (b : UInt8) : Option Nat :=
  let n := b.toNat
  if 48 ≤ n ∧ n ≤ 57 then some (n - 48)
  else if 97 ≤ n ∧ n ≤ 102 then some (n - 87)
  else if 65 ≤ n ∧ n ≤ 70 then some (n - 55)
  else none

/-- The two digits of a byte. -/
def pair (b : UInt8) : List Char := [digit (b.toNat / 16), digit (b.toNat % 16)]

/-! ## Byte strings -/

/-- The digits of a byte string. -/
def encode (bytes : List UInt8) : List Char := bytes.flatMap pair

/-- The value of the digit at a position, or the failure there. -/
def valueAt (b : UInt8) (position : Nat) : Except Error Nat :=
  match value? b with
  | some v => .ok v
  | none => .error (.badDigit b position)

/-- Reads two digits a byte, starting at a position. -/
def decodeFrom (position : Nat) : List UInt8 → Except Error (List UInt8)
  | high :: low :: rest => do
    let h ← valueAt high position
    let l ← valueAt low (position + 1)
    let tail ← decodeFrom (position + 2) rest
    pure (UInt8.ofNat (16 * h + l) :: tail)
  | _ => .ok []

/-- The byte string that a text writes in digits. -/
def decode (text : List UInt8) : Except Error (List UInt8) :=
  if text.length % 2 = 1 then .error .oddLength else decodeFrom 0 text

/-! ## Reading back what was written -/

theorem length_encode (bytes : List UInt8) : (encode bytes).length = 2 * bytes.length := by
  induction bytes with
  | nil => rfl
  | cons b rest ih => simp [encode, pair] at ih ⊢; omega

/-- A digit is one byte of text, and has the value it was made from. -/
theorem utf8_digit (n : Nat) (hn : n < 16) :
    ∃ b, String.utf8EncodeChar (digit n) = [b] ∧ value? b = some n := by
  refine ⟨(String.utf8EncodeChar (digit n)).headD 0, ?_⟩
  revert n
  decide

/-- Two digits are two bytes of text, and have the values of the two halves. -/
theorem utf8_pair (b : UInt8) :
    ∃ high low, (pair b).flatMap String.utf8EncodeChar = [high, low] ∧
      value? high = some (b.toNat / 16) ∧ value? low = some (b.toNat % 16) := by
  have hb := b.toNat_lt
  obtain ⟨high, hhigh, vhigh⟩ := utf8_digit (b.toNat / 16) (by omega)
  obtain ⟨low, hlow, vlow⟩ := utf8_digit (b.toNat % 16) (by omega)
  exact ⟨high, low, by simp [pair, hhigh, hlow], vhigh, vlow⟩

/-- The text of a byte string has two bytes for each of its own. -/
theorem length_utf8_encode (bytes : List UInt8) :
    ((encode bytes).flatMap String.utf8EncodeChar).length = 2 * bytes.length := by
  induction bytes with
  | nil => rfl
  | cons b rest ih =>
    obtain ⟨high, low, hpair, _, _⟩ := utf8_pair b
    simp only [encode, List.flatMap_cons, List.flatMap_append, hpair] at ih ⊢
    simp only [List.length_append, List.length_cons, List.length_nil, ih]
    omega

/-- Reading goes back to every byte that was written, at any position. -/
theorem decodeFrom_encode (bytes : List UInt8) (position : Nat) :
    decodeFrom position ((encode bytes).flatMap String.utf8EncodeChar) = .ok bytes := by
  induction bytes generalizing position with
  | nil => rfl
  | cons b rest ih =>
    obtain ⟨high, low, hpair, vhigh, vlow⟩ := utf8_pair b
    have hb : UInt8.ofNat (16 * (b.toNat / 16) + b.toNat % 16) = b := by
      rw [Nat.div_add_mod, UInt8.ofNat_toNat]
    have htext : (encode (b :: rest)).flatMap String.utf8EncodeChar
        = high :: low :: (encode rest).flatMap String.utf8EncodeChar := by
      simp only [encode, List.flatMap_cons, List.flatMap_append, hpair]
      rfl
    rw [htext]
    simp only [decodeFrom, valueAt, vhigh, vlow, ih]
    exact congrArg (fun c => Except.ok (c :: rest)) hb

/-- What was written can be read back. -/
theorem decode_encode (bytes : List UInt8) :
    decode (utf8 (String.ofList (encode bytes))) = .ok bytes := by
  have hlength := length_utf8_encode bytes
  simp only [decode, utf8, String.toList_ofList, decodeFrom_encode]
  rw [if_neg (by omega)]

end Hex

end ScriptLedger.Bytes
