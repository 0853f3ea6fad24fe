import ScriptLedger.Proofs.Trie.Line
import ScriptLedger.Record.Basic

/-!
# Names of records on numbers

A record is named by the digest of its text, and a proof that two records have different
names has to compute both.  `Numbers.digest` takes the digest of any message on numbers.
What is left is to write down the message: the text of a document is a list of characters
anyway, except that the digits of a byte string pass through a string on the way, and
`Json.render_ofBlob` leaves that out.  The other equations of `Json.render` are here so that
a document can be written down by rewriting with them.

## Main results

* `Json.render_ofBlob` — the text of a byte string, without a string in between.
* `Node.exists_digest` — the digest of a message on numbers.
* `Node.nodup_of_digests` — messages whose digests begin differently have different digests.
-/

namespace ScriptLedger

open Digest

namespace Digest.Numbers

variable {β : Type} {size count : Nat}

/-! ## The words of a message -/

/-- Joining the pieces of a list gives the list, if they are as many as it takes. -/
theorem flatten_pieces {l : List β} (h : l.length = size * count) :
    (pieces size count l).flatten = l := by
  induction count generalizing l with
  | zero => exact (List.length_eq_zero_iff.mp h).symm
  | succ count ih =>
      rw [Nat.mul_succ] at h
      rw [pieces, List.flatten_cons, ih (by rw [List.length_drop]; omega), List.take_append_drop]

theorem length_pieces (l : List β) : (pieces size count l).length = count := by
  induction count generalizing l with
  | zero => rfl
  | succ count ih => rw [pieces, List.length_cons, ih]

theorem length_bigEndian (count n : Nat) : (bigEndian count n).length = count := by
  induction count generalizing n with
  | zero => rfl
  | succ count ih => rw [bigEndian, List.length_append, ih, List.length_singleton]

/-- A padded message is made of whole blocks. -/
theorem length_padded (message : List UInt8) :
    (padded UInt32 message).length = 64 * ((padded UInt32 message).length / 64) := by
  have hlength : (padded UInt32 message).length =
      message.length + 9 + (64 - (message.length + 9) % 64) % 64 := by
    simp only [padded, List.length_append, List.length_cons, List.length_replicate,
      length_bigEndian, show Sha2.wordSize UInt32 = 4 from rfl]
    omega
  omega

/-- Four bytes are what their word writes. -/
theorem toBytes_ofBytes {bytes : List UInt8} (h : bytes.length = 4) :
    Sha2.toBytes (Sha2.ofBytes (W := UInt32) bytes) = bytes := by
  obtain ⟨a, b, c, d, rfl⟩ := List.length_eq_four.mp h
  have ha := a.toNat_lt
  have hb := b.toNat_lt
  have hc := c.toNat_lt
  have hd := d.toNat_lt
  simp only [Sha2.ofBytes, Sha2.toBytes, List.map_cons, List.map_nil, List.foldl_cons,
    List.foldl_nil, List.cons.injEq, and_true, ← UInt8.toNat_inj, UInt32.toNat_toUInt8,
    UInt32.toNat_shiftRight, UInt32.reduceToNat, Nat.reduceMod, Nat.shiftRight_eq_div_pow,
    toNat_append]
  omega

/-- The words of a padded message, as numbers. -/
def words (message : List UInt8) : List Nat :=
  let bytes := padded UInt32 message
  (pieces 4 (16 * (bytes.length / 64)) bytes).map fun piece =>
    (Sha2.ofBytes (W := UInt32) piece).toNat

/-- The digest of a message. -/
noncomputable def digest {α : Type} (message : List UInt8) (k : Octet Nat → α) : α :=
  hash ((padded UInt32 message).length / 64) (words message) k

end Digest.Numbers

namespace Node

open Numbers

/-! ## Digests of messages -/

theorem exists_digest (message : List UInt8) :
    ∃ d, Writes d (sha256 message) ∧
      ∀ {α : Type} (k : Octet Nat → α), digest message k = k d := by
  let count := (padded UInt32 message).length / 64
  let all := (pieces 4 (16 * count) (padded UInt32 message)).map (Sha2.ofBytes (W := UInt32))
  have hcount : (padded UInt32 message).length = 4 * (16 * count) := by
    have hlength := length_padded message
    omega
  have hall : all.length = 16 * count := by
    rw [List.length_map, length_pieces]
  have hbytes : padded UInt32 message = all.flatMap Sha2.toBytes := by
    have hpieces : (pieces 4 (16 * count) (padded UInt32 message)).map
        (Sha2.toBytes ∘ Sha2.ofBytes (W := UInt32)) =
          pieces 4 (16 * count) (padded UInt32 message) :=
      (List.map_congr_left fun piece hmem =>
        toBytes_ofBytes (length_of_mem_pieces hcount hmem)).trans (List.map_id _)
    rw [List.flatMap_def, List.map_map, hpieces, flatten_pieces hcount]
  obtain ⟨final, hfinal, hk⟩ := exists_hash hall hbytes
  have hwords : all.map UInt32.toNat = words message := List.map_map
  refine ⟨_, ⟨final, rfl, ?_⟩, fun k => ?_⟩
  · exact Blob.ext (Vector.toArray_inj.mp (congrArg List.toArray hfinal))
  · rw [digest, ← hwords]
    exact hk k

/-- Goes on with the digests of messages. -/
noncomputable def digests {α : Type} : List (List UInt8) → (List (Octet Nat) → α) → α
  | [], k => k []
  | message :: rest, k => digest message fun d => digests rest fun seen => k (d :: seen)

theorem exists_digests (messages : List (List UInt8)) :
    ∃ seen, List.Forall₂ Writes seen (messages.map sha256) ∧
      ∀ {α : Type} (k : List (Octet Nat) → α), digests messages k = k seen := by
  induction messages with
  | nil => exact ⟨[], .nil, fun k => rfl⟩
  | cons message rest ih =>
      obtain ⟨d, hd, hdigest⟩ := exists_digest message
      obtain ⟨seen, hseen, hdigests⟩ := ih
      refine ⟨d :: seen, .cons hd hseen, fun k => ?_⟩
      rw [digests, hdigest, hdigests]

/-- Messages whose digests begin differently have different digests, none of which is
zero. -/
theorem nodup_of_digests {messages : List (List UInt8)}
    (h : digests messages (fun seen => decide (0 :: seen.map Octet.a).Nodup) = true) :
    (Blob.zero :: messages.map sha256).Nodup := by
  obtain ⟨seen, hseen, hdigests⟩ := exists_digests messages
  rw [hdigests, decide_eq_true_iff] at h
  exact nodup_of_climb hseen h

end Node

namespace Json

/-! ## The text of a document -/

variable (item value : Json) (items : List Json) (key : String) (members : List (String × Json))

theorem render_ofUInt64 (n : UInt64) : (ofUInt64 n).render = renderInt n.toNat := rfl

theorem render_text (s : String) : (text s).render = renderText s := rfl

/-- The digits of a byte string stand between quotes. -/
theorem render_ofBlob {k : Kind} (b : Blob k) :
    (ofBlob b).render = '"' :: ((Bytes.Hex.encode b.toList).flatMap escape ++ ['"']) := by
  rw [ofBlob, render_text, renderText, Blob.toHex, String.toList_ofList]

theorem render_array_cons :
    (array (item :: items)).render = '[' :: (item.render ++ (renderItems items ++ [']'])) := rfl

theorem renderItems_nil : renderItems [] = [] := rfl

theorem renderItems_cons :
    renderItems (item :: items) = ',' :: (item.render ++ renderItems items) := rfl

theorem render_object_cons : (object ((key, value) :: members)).render =
    '\x7b' :: (renderText key ++ (':' :: (value.render ++ (renderMembers members ++ ['\x7d'])))) :=
  rfl

theorem renderMembers_nil : renderMembers [] = [] := rfl

theorem renderMembers_cons : renderMembers ((key, value) :: members) =
    ',' :: (renderText key ++ (':' :: (value.render ++ renderMembers members))) := rfl

end Json

end ScriptLedger
