import ScriptLedger.Curve.Edwards25519
import ScriptLedger.Digest.Basic

/-!
# Keys and signatures

Ed25519 over digests.  A secret seed fixes a scalar and a second secret; the
public key is the base point times the scalar, and a signature is a function
of seed and message alone.  An account is addressed by the digest of its
public key, so an address needs no registration.

Verification compares the compressed form of `s·B - k·A` with the first half
of the signature and multiplies by no cofactor.  The zero signature stands for
"not signed" and never verifies.
-/

namespace ScriptLedger

/-- The order of the base point. -/
def groupOrder : Nat := 1 <<< 252 + 27742317777372353535851937790883648493

/-! ## Seeds -/

/-- What a secret seed stands for: a scalar and the secret that makes nonces. -/
structure Secret where
  scalar : Nat
  nonceKey : List UInt8

/-- Expands a seed: the lower half of its digest, with its ends fixed, is the
scalar. -/
def Secret.ofSeed (seed : List UInt8) : Secret :=
  let digest := (sha512 seed).toList
  let n := Curve.ofLittleEndian (digest.take 32)
  { scalar := 1 <<< 254 + n % (1 <<< 254) / 8 * 8, nonceKey := digest.drop 32 }

/-- The public key of a secret. -/
def Secret.pubkey (secret : Secret) : Pubkey :=
  ⟨(Curve.Point.base.scale secret.scalar).compress⟩

/-- A digest as a number modulo the order of the base point. -/
def challenge (parts : List UInt8) : Nat :=
  Curve.ofLittleEndian (sha512 parts).toList % groupOrder

/-! ## Keypairs -/

/-- The secret of a keypair, from its seed half alone. -/
def Keypair.secret (pair : Keypair) : Secret := Secret.ofSeed (pair.toList.take 32)

/-- The public key that belongs to the seed half of a keypair. -/
def Keypair.derivedPubkey (pair : Keypair) : Pubkey := pair.secret.pubkey

/-- The keypair of a secret seed. -/
def Keypair.ofSeed (seed : Vector UInt8 32) : Keypair :=
  ⟨seed ++ (Secret.ofSeed seed.toList).pubkey.bytes⟩

/-- Accepts the public keys that are points of the curve. -/
def Pubkey.validate (key : Pubkey) : Except BlobError Unit :=
  if (Curve.Point.decompress? key.bytes).isSome then .ok () else .error .offCurve

/-- Accepts the keypairs whose public half belongs to their seed half. -/
def Keypair.validate (pair : Keypair) : Except BlobError Unit :=
  if pair.toList.drop 32 = pair.derivedPubkey.toList then .ok ()
  else .error .mismatchedHalves

/-- The address of the account of a public key. -/
def Pubkey.address (key : Pubkey) : Hash := sha256 key.toList

/-! ## Signatures -/

/-- The signature of a digest under the seed half of a keypair. -/
def Keypair.sign (pair : Keypair) (message : Hash) : Signature :=
  let secret := pair.secret
  let key := secret.pubkey
  let r := challenge (secret.nonceKey ++ message.toList)
  let point := (Curve.Point.base.scale r).compress
  let k := challenge (point.toList ++ key.toList ++ message.toList)
  ⟨point ++ Curve.littleEndian32 ((k * secret.scalar + r) % groupOrder)⟩

/-- Whether a signature of a digest holds under a public key. -/
def Pubkey.verify (key : Pubkey) (message : Hash) (signature : Signature) : Bool :=
  let point := signature.toList.take 32
  let s := Curve.ofLittleEndian (signature.toList.drop 32)
  if signature.isZero || groupOrder ≤ s then false
  else
    match Curve.Point.decompress? key.bytes with
    | none => false
    | some a =>
      let k := challenge (point ++ key.toList ++ message.toList)
      ((Curve.Point.base.scale s).add (a.neg.scale k)).compress.toList == point

/-- The zero signature verifies nothing. -/
theorem Pubkey.verify_zero (key : Pubkey) (message : Hash) :
    key.verify message Blob.zero = false := by
  simp [Pubkey.verify, Blob.isZero]

end ScriptLedger
