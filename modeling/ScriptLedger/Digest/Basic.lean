import ScriptLedger.Bytes.Blob
import ScriptLedger.Digest.Sha2

/-!
# Digests

The one hash function of the ledger and the one of its signature scheme, as
functions from byte strings to byte strings of their fixed length.
-/

namespace ScriptLedger

/-- The SHA-256 digest of a byte string. -/
def sha256 (message : List UInt8) : Hash :=
  ⟨⟨(Digest.hash UInt32 message).toArray, by
    rw [List.size_toArray]
    exact Digest.length_hash UInt32 (fun _ => rfl) message⟩⟩

/-- The SHA-512 digest of a byte string. -/
def sha512 (message : List UInt8) : Vector UInt8 64 :=
  ⟨(Digest.hash UInt64 message).toArray, by
    rw [List.size_toArray]
    exact Digest.length_hash UInt64 (fun _ => rfl) message⟩

end ScriptLedger
