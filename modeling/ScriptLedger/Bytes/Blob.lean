import ScriptLedger.Bytes.Hex

/-!
# Byte strings of a fixed length

A digest, a public key, a signature and a keypair are byte strings whose
length is known from their kind.  `Blob k` carries that length in its type,
so a value of it never has to be checked again.  The all-zero value of each
kind is a sentinel: the hash of an empty subtrie, the parent of a first block,
the signature of an input nobody has signed.

Blobs are ordered byte by byte from the left, which for digests is also the
order of the numbers they write in big-endian.
-/

namespace ScriptLedger

/-! ## Kinds -/

/-- What a fixed-length byte string stands for. -/
inductive Kind
  | hash
  | pubkey
  | signature
  | keypair
deriving Repr, DecidableEq

/-- The length in bytes. -/
@[reducible] def Kind.size : Kind → Nat
  | .hash => 32
  | .pubkey => 32
  | .signature => 64
  | .keypair => 64

/-- The name used in messages. -/
def Kind.name : Kind → String
  | .hash => "Hash"
  | .pubkey => "Pubkey"
  | .signature => "Signature"
  | .keypair => "Keypair"

/-- A byte string of the length of its kind. -/
@[ext] structure Blob (k : Kind) where
  /-- The bytes, first to last. -/
  bytes : Vector UInt8 k.size
deriving DecidableEq

/-- A SHA-256 digest, also used as an address and as a trie path. -/
abbrev Hash := Blob .hash

/-- A compressed Ed25519 point. -/
abbrev Pubkey := Blob .pubkey

/-- An Ed25519 signature: a compressed point and a scalar. -/
abbrev Signature := Blob .signature

/-- An Ed25519 secret seed followed by its public key. -/
abbrev Keypair := Blob .keypair

/-! ## Failures -/

/-- Why bytes are not accepted as a value of some kind. -/
inductive BlobError
  /-- The text is not hexadecimal. -/
  | badHex (cause : Bytes.Hex.Error)
  /-- The byte string has a length other than its kind's. -/
  | badLength (kind : Kind) (actual : Nat)
  /-- The bytes of a public key are no point of the curve. -/
  | offCurve
  /-- The public half of a keypair is not the key of its seed. -/
  | mismatchedHalves
deriving Repr, DecidableEq

/-- The wording of a failure. -/
def BlobError.message : BlobError → String
  | .badHex cause => "Invalid hex: " ++ cause.message
  | .badLength kind actual =>
    "Invalid length for " ++ kind.name ++ ": expected " ++ toString kind.size
      ++ ", got " ++ toString actual
  | .offCurve => "Invalid public key"
  | .mismatchedHalves => "Invalid keypair: public half does not match secret seed"

namespace Blob

variable {k : Kind}

/-! ## Making and reading blobs -/

/-- The all-zero value. -/
def zero : Blob k := ⟨Vector.replicate k.size 0⟩

/-- Whether every byte is zero. -/
def isZero (b : Blob k) : Bool := b == zero

/-- The bytes as a list. -/
def toList (b : Blob k) : List UInt8 := b.bytes.toList

/-- The blob with the given bytes, if their number is that of the kind. -/
def ofList (k : Kind) (bytes : List UInt8) : Except BlobError (Blob k) :=
  if h : bytes.length = k.size then .ok ⟨⟨bytes.toArray, by simpa using h⟩⟩
  else .error (.badLength k bytes.length)

/-- The blob whose digits a text holds. -/
def ofHex (k : Kind) (text : String) : Except BlobError (Blob k) :=
  match Bytes.Hex.decode (Bytes.utf8 text) with
  | .ok bytes => ofList k bytes
  | .error cause => .error (.badHex cause)

/-- The digits of a blob. -/
def toHex (b : Blob k) : String := String.ofList (Bytes.Hex.encode b.toList)

/-- The number that the bytes write in big-endian. -/
def toNat (b : Blob k) : Nat := b.toList.foldl (fun n byte => n * 256 + byte.toNat) 0

@[simp] theorem length_toList (b : Blob k) : b.toList.length = k.size := by
  simp [toList]

@[simp] theorem ofList_toList (b : Blob k) : ofList k b.toList = .ok b := by
  simp only [ofList, length_toList, ↓reduceDIte, Except.ok.injEq]
  exact Blob.ext (Vector.toList_inj.mp (by simp [toList]))

theorem toList_of_ofList {bytes : List UInt8} {b : Blob k}
    (h : ofList k bytes = .ok b) : b.toList = bytes := by
  unfold ofList at h
  split at h
  · cases h; simp [toList]
  · cases h

/-- The digits of a blob write it. -/
@[simp] theorem ofHex_toHex (b : Blob k) : ofHex k b.toHex = .ok b := by
  simp only [ofHex, toHex, Bytes.Hex.decode_encode, ofList_toList]

theorem isZero_iff {b : Blob k} : b.isZero ↔ b = zero := by simp [isZero]

/-! ## Order -/

instance : Ord (Blob k) := ⟨compareOn Blob.bytes⟩

instance : Std.TransOrd (Blob k) :=
  inferInstanceAs (Std.TransCmp (compareOn (Blob.bytes (k := k))))

instance : Std.LawfulEqOrd (Blob k) where
  compare_self {a} := Std.ReflOrd.compare_self (a := a.bytes)
  eq_of_compare h := Blob.ext (Std.LawfulEqOrd.eq_of_compare h)

/-- Whether one blob comes before another or equals it. -/
def isLE (a b : Blob k) : Bool := (compare a b).isLE

end Blob

/-! ## Display -/

/-- The short form of a keypair or the full form of anything else, for logs:
the secret half of a keypair is never shown. -/
def Blob.describe : {k : Kind} → Blob k → String
  | .keypair, b =>
    "Keypair(pub=" ++ String.ofList (Bytes.Hex.encode (b.toList.drop 32)) ++ ")"
  | k, b => k.name ++ "(" ++ b.toHex ++ ")"

end ScriptLedger
