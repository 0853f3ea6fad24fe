import ScriptLedger.Proofs.Record.Digest
import ScriptLedger.Proofs.Sequencing
import ScriptLedger.Transaction.Signed

/-!
# Signing inputs in any order

Every input may be signed by another pair, and a pair may own several inputs.  A signature
goes to the slot of its input and covers the body alone, so what comes out depends only on
which inputs were signed, and not on the order or on how often.

## Main results

* `Transaction.signAll_signedAt` — a run of signatures, in closed form.
* `Transaction.isSigned_signedAt` — when a partly signed transaction counts as signed.
* `Transaction.signAll_complete` — signing in any order, to the end.
-/

namespace ScriptLedger

open Digest Sequencing

variable {data : TransactionData} {pair : Keypair} {pairs : Nat → Keypair} {index : Nat}

/-- The input at an index belongs to a pair. -/
def TransactionData.OwnedBy (data : TransactionData) (pair : Keypair) (index : Nat) : Prop :=
  ∃ input, data.inputs[index]? = some input ∧ pair.derivedPubkey.address = input.address

/-- What the pair signs is accepted under its own key. -/
def Keypair.Accepted (pair : Keypair) (message : Hash) : Prop :=
  pair.derivedPubkey.verify message (pair.sign message) = true

namespace Transaction

variable {tx tx' : Transaction} {keyOf : Hash → Option Pubkey}

/-! ## Signed inputs -/

theorem inputSigned_iff {input : Input} (hinput : tx.data.inputs[index]? = some input) :
    tx.inputSigned keyOf index = true ↔ ∃ signature, tx.signatures[index]? = some signature ∧
      (input.isNull = true ∨ ∃ key, keyOf input.address = some key ∧
        key.address = input.address ∧ key.verify tx.dataHash signature = true) := by
  unfold inputSigned
  rw [hinput]
  cases tx.signatures[index]? with
  | none => simp
  | some signature => cases hkey : keyOf input.address <;> simp [hkey]

theorem isSigned_iff : tx.isSigned keyOf = true ↔
    ∀ index input, tx.data.inputs[index]? = some input → tx.inputSigned keyOf index = true := by
  rw [isSigned, List.all_eq_true]
  constructor
  · intro h index input hinput
    exact h index (List.mem_range.mpr (List.getElem?_eq_some_iff.mp hinput).1)
  · intro h index hmem
    exact h index _ (List.getElem?_eq_getElem (List.mem_range.mp hmem))

theorem exists_key_of_isSigned {input : Input} (h : tx.isSigned keyOf = true)
    (hinput : tx.data.inputs[index]? = some input) (hnull : input.isNull = false) :
    ∃ key signature, tx.signatures[index]? = some signature ∧ keyOf input.address = some key ∧
      key.address = input.address ∧ key.verify tx.dataHash signature = true := by
  obtain ⟨signature, hsignature, hfree | ⟨key, hkey⟩⟩ :=
    (inputSigned_iff hinput).mp (isSigned_iff.mp h index input hinput)
  · exact absurd hfree (Bool.eq_false_iff.mp hnull)
  · exact ⟨key, signature, hsignature, hkey⟩

/-! ## One signature -/

theorem sign_eq_ok_iff : tx.sign index pair = .ok tx' ↔ tx.data.OwnedBy pair index ∧
    tx' = { tx with signatures := tx.signatures.set index (pair.sign tx.dataHash) } := by
  unfold sign TransactionData.OwnedBy
  cases hinput : tx.data.inputs[index]? with
  | none => simp
  | some input =>
      dsimp only
      by_cases howned : pair.derivedPubkey.address = input.address
      · rw [if_neg (not_not_intro howned), Except.ok.injEq, eq_comm]
        exact ⟨fun h => ⟨⟨input, rfl, howned⟩, h⟩, And.right⟩
      · rw [if_pos howned]
        exact iff_of_false nofun fun ⟨⟨_, hsome, h⟩, _⟩ => howned (Option.some.inj hsome ▸ h)

/-- A signature changes no other slot, and what an input is signed with is found in its own. -/
theorem inputSigned_of_sign (h : tx.sign index pair = .ok tx') {other : Nat}
    (hother : other ≠ index) : tx'.inputSigned keyOf other = tx.inputSigned keyOf other := by
  obtain ⟨-, rfl⟩ := sign_eq_ok_iff.mp h
  unfold inputSigned
  rw [List.getElem?_set_ne (Ne.symm hother)]
  rfl

/-! ## Many signatures -/

/-- Signs one input after another, each with the pair for its index. -/
def signAll (pairs : Nat → Keypair) (order : List Nat) (tx : Transaction) :
    Except RecordError Transaction :=
  order.foldlM (fun tx index => tx.sign index (pairs index)) tx

/-- The body with a signature in the slots that are chosen, and none in the others. -/
def signedAt (pairs : Nat → Keypair) (chosen : List Nat) (data : TransactionData) : Transaction :=
  { signatures := (List.range data.inputs.length).map fun index =>
      if index ∈ chosen then (pairs index).sign (Record.hash data) else Blob.zero
    data }

theorem signedAt_nil (pairs : Nat → Keypair) (data : TransactionData) :
    signedAt pairs [] data = unsigned data := by
  simp [signedAt, unsigned, List.map_const']

/-- What is chosen matters, and not in which order or how often. -/
theorem signedAt_congr {chosen chosen' : List Nat}
    (h : ∀ index, index ∈ chosen ↔ index ∈ chosen') :
    signedAt pairs chosen data = signedAt pairs chosen' data := by
  simp only [signedAt, h]

theorem getElem?_signedAt {chosen : List Nat} (h : index < data.inputs.length) :
    (signedAt pairs chosen data).signatures[index]? =
      some (if index ∈ chosen then (pairs index).sign (Record.hash data) else Blob.zero) := by
  simp [signedAt, h]

theorem sign_signedAt {chosen : List Nat} (h : data.OwnedBy (pairs index) index) :
    (signedAt pairs chosen data).sign index (pairs index) =
      .ok (signedAt pairs (index :: chosen) data) := by
  refine sign_eq_ok_iff.mpr ⟨h, ?_⟩
  unfold signedAt
  congr 1
  refine List.ext_getElem (by simp) fun slot hleft hright => ?_
  rw [List.getElem_set, List.getElem_map, List.getElem_map, List.getElem_range]
  by_cases hslot : index = slot
  · rw [if_pos hslot, if_pos (hslot ▸ List.mem_cons_self), hslot]
    rfl
  · rw [if_neg hslot]
    simp only [List.mem_cons, Ne.symm hslot, false_or]

theorem signAll_signedAt {chosen order : List Nat}
    (h : ∀ index ∈ order, data.OwnedBy (pairs index) index) :
    signAll pairs order (signedAt pairs chosen data) =
      .ok (signedAt pairs (order ++ chosen) data) := by
  induction order generalizing chosen with
  | nil => rfl
  | cons index rest ih =>
      obtain ⟨hindex, hrest⟩ := List.forall_mem_cons.mp h
      refine except_bind_eq_ok.mpr ⟨_, sign_signedAt hindex, (ih hrest).trans ?_⟩
      refine congrArg Except.ok (signedAt_congr fun other => ?_)
      exact List.perm_middle.mem_iff

/-! ## Completion -/

/-- An input in whose slot nobody signed is signed only if it is null. -/
theorem inputSigned_of_not_mem {chosen : List Nat} {input : Input}
    (hinput : data.inputs[index]? = some input) (hnot : index ∉ chosen) :
    (signedAt pairs chosen data).inputSigned keyOf index = true ↔ input.isNull = true := by
  have hslot : (signedAt pairs chosen data).signatures[index]? = some Blob.zero := by
    rw [getElem?_signedAt (List.getElem?_eq_some_iff.mp hinput).1, if_neg hnot]
  rw [inputSigned_iff hinput, hslot]
  constructor
  · rintro ⟨_, ⟨⟩, hnull | ⟨key, -, -, hverify⟩⟩
    · exact hnull
    · rw [Pubkey.verify_zero] at hverify
      cases hverify
  · exact fun hnull => ⟨_, rfl, Or.inl hnull⟩

/-- An input that its owner signed is signed. -/
theorem inputSigned_of_mem {chosen : List Nat} {input : Input}
    (hinput : data.inputs[index]? = some input) (hmem : index ∈ chosen)
    (howned : data.OwnedBy (pairs index) index)
    (haccepted : (pairs index).Accepted (Record.hash data))
    (hkey : input.isNull = false → keyOf input.address = some (pairs index).derivedPubkey) :
    (signedAt pairs chosen data).inputSigned keyOf index = true := by
  have hslot : (signedAt pairs chosen data).signatures[index]? =
      some ((pairs index).sign (Record.hash data)) := by
    rw [getElem?_signedAt (List.getElem?_eq_some_iff.mp hinput).1, if_pos hmem]
  refine (inputSigned_iff hinput).mpr ⟨_, hslot, ?_⟩
  cases hnull : input.isNull with
  | true => exact Or.inl rfl
  | false =>
      obtain ⟨input', hinput', haddress⟩ := howned
      obtain rfl : input' = input := Option.some.inj (hinput'.symm.trans hinput)
      exact Or.inr ⟨_, hkey hnull, haddress, haccepted⟩

/-- A transaction is signed just if the owners of all inputs that are not null have signed. -/
theorem isSigned_signedAt {chosen : List Nat}
    (howned : ∀ index ∈ chosen, data.OwnedBy (pairs index) index)
    (haccepted : ∀ index ∈ chosen, (pairs index).Accepted (Record.hash data))
    (hkey : ∀ index ∈ chosen, ∀ input, data.inputs[index]? = some input → input.isNull = false →
      keyOf input.address = some (pairs index).derivedPubkey) :
    (signedAt pairs chosen data).isSigned keyOf = true ↔
      ∀ index input, data.inputs[index]? = some input → input.isNull = false →
        index ∈ chosen := by
  rw [isSigned_iff]
  constructor
  · intro h index input hinput hnull
    by_contra hnot
    have hsigned := (inputSigned_of_not_mem hinput hnot).mp (h index input hinput)
    exact absurd hsigned (Bool.eq_false_iff.mp hnull)
  · intro h index input hinput
    by_cases hmem : index ∈ chosen
    · exact inputSigned_of_mem hinput hmem (howned index hmem) (haccepted index hmem)
        (hkey index hmem input hinput)
    · refine (inputSigned_of_not_mem hinput hmem).mpr ?_
      by_contra hnull
      exact hmem (h index input hinput (Bool.eq_false_iff.mpr hnull))

/-- The owners of some inputs sign them, in any order and as often as they like, and what they
sign is accepted under their keys.  What comes out is one transaction, with their signatures in
the slots of these inputs and none in the others; no signature changes the digest that all of
them cover, or whether another input is signed; and where the keys of the owners are known, the
transaction is signed just if no input is missing that is not null. -/
theorem signAll_complete {order : List Nat}
    (howned : ∀ index ∈ order, data.OwnedBy (pairs index) index)
    (haccepted : ∀ index ∈ order, (pairs index).Accepted (Record.hash data)) :
    ∃ tx, (∀ order', (∀ index, index ∈ order' ↔ index ∈ order) →
        signAll pairs order' (unsigned data) = .ok tx) ∧
      tx.data = data ∧ tx.dataHash = (unsigned data).dataHash ∧
      (∀ index, index < data.inputs.length → tx.signatures[index]? =
        some (if index ∈ order then (pairs index).sign (unsigned data).dataHash else Blob.zero)) ∧
      (∀ (mid next : Transaction) (index : Nat) (pair : Keypair), mid.sign index pair = .ok next →
        next.dataHash = mid.dataHash ∧ ∀ keyOf other, other ≠ index →
          next.inputSigned keyOf other = mid.inputSigned keyOf other) ∧
      ∀ keyOf, (∀ index ∈ order, ∀ input, data.inputs[index]? = some input →
          input.isNull = false → keyOf input.address = some (pairs index).derivedPubkey) →
        (tx.isSigned keyOf = true ↔ ∀ index input, data.inputs[index]? = some input →
          input.isNull = false → index ∈ order) := by
  refine ⟨signedAt pairs order data, fun order' hsame => ?_, rfl, rfl,
    fun index hlt => getElem?_signedAt hlt, fun mid next index pair hsign => ⟨?_, ?_⟩,
    fun keyOf => isSigned_signedAt howned haccepted⟩
  · rw [← signedAt_nil pairs,
      signAll_signedAt fun index hmem => howned index ((hsame index).mp hmem), List.append_nil,
      signedAt_congr hsame]
  · obtain ⟨-, rfl⟩ := sign_eq_ok_iff.mp hsign
    rfl
  · exact fun keyOf other => inputSigned_of_sign hsign

/-! ## A body with two inputs of one owner -/

namespace Signing

/-- The public key of the seed of zeros. -/
def key : Pubkey :=
  ⟨#v[0x3b, 0x6a, 0x27, 0xbc, 0xce, 0xb6, 0xa4, 0x2d, 0x62, 0xa3, 0xa8, 0xd0, 0x2a, 0x6f, 0x0d,
    0x73, 0x65, 0x32, 0x15, 0x77, 0x1d, 0xe2, 0x43, 0xa6, 0x3a, 0xc0, 0x48, 0xa1, 0x8b, 0x59,
    0xda, 0x29]⟩

/-- The seed of zeros with its public key. -/
def owner : Keypair := ⟨Vector.replicate 32 (0 : UInt8) ++ key.bytes⟩

/-- The owner pays itself out of two inputs, and the null input stands between them. -/
def body : TransactionData :=
  { fee := 1, inputs := [⟨key.address, 3⟩, Input.null, ⟨key.address, 2⟩], nonce := Blob.zero
    outputs := [⟨key.address, "", 4⟩] }

theorem derivedPubkey_owner : owner.derivedPubkey = key := by decide +kernel

theorem accepted_owner : owner.Accepted (Record.hash body) := by
  obtain ⟨d, hd, hdigest⟩ := Node.exists_digest (Record.bytes body)
  have hcomputed : Numbers.digest (Record.bytes body) (fun d =>
      key.verify (Node.ofWords (d.map UInt32.ofNat))
        (owner.sign (Node.ofWords (d.map UInt32.ofNat)))) = true := by
    simp only [body, Record.bytes, Record.toJson, TransactionData.toJson, List.map,
      Input.toJson, Output.toJson, Json.render_object_cons, Json.renderMembers_cons,
      Json.renderMembers_nil, Json.render_array_cons, Json.renderItems_cons, Json.renderItems_nil,
      Json.render_ofBlob, Json.render_ofUInt64, Json.render_text]
    decide +kernel
  rw [hdigest, hd.ofWords_eq] at hcomputed
  rw [Keypair.Accepted, derivedPubkey_owner]
  exact hcomputed

theorem ownedBy_owner (h : index ∈ [2, 0, 2]) : body.OwnedBy owner index := by
  rw [TransactionData.OwnedBy, derivedPubkey_owner]
  simp only [List.mem_cons, List.not_mem_nil, or_false] at h
  rcases h with rfl | rfl | rfl <;> exact ⟨_, rfl, rfl⟩

end Signing

open Signing in
/-- Signed at both inputs that are not null, one of them twice. -/
theorem signAll_complete_body : ∃ tx, signAll (fun _ => owner) [2, 0, 2] (unsigned body) = .ok tx ∧
    tx.isSigned (fun _ => some key) = true := by
  obtain ⟨tx, hall, -, -, -, -, hsigned⟩ := signAll_complete
    (fun index hmem => ownedBy_owner hmem) fun index hmem => accepted_owner
  refine ⟨tx, hall _ fun _ => Iff.rfl, (hsigned _ ?_).mpr fun index input hinput hnull => ?_⟩
  · exact fun index hmem input hinput hnull => congrArg some derivedPubkey_owner.symm
  · have hlt : index < 3 := (List.getElem?_eq_some_iff.mp hinput).1
    obtain rfl | rfl | rfl : index = 0 ∨ index = 1 ∨ index = 2 := by omega
    · simp
    · obtain rfl : Input.null = input := Option.some.inj hinput
      cases hnull
    · simp

end Transaction

end ScriptLedger
