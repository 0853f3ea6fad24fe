import ScriptLedger.Proofs.Block.Resigning
import ScriptLedger.Proofs.Trie.Evidence

/-!
# Submitting transactions in another order

A block applies its transactions in the order of their digests.  Where different transactions
have different digests, there is one such order, and nothing that is computed afterwards can
tell in which order the transactions were submitted: neither a block nor the reason why there
is none.

A block that is built has no digest twice, and its second trie binds the digests of its
transactions to themselves and nothing else.  So this trie gives evidence of every digest,
whether it is there or not.

## Main results

* `Skeleton.ordered_eq_of_perm` — the order is the same, however the transactions come.
* `Skeleton.committed_of_build` — what the header of a block commits to.
* `Skeleton.build_submitted` — both together.
-/

namespace ScriptLedger

open Sequencing

variable {rules : Rules} {parent : Option Block} {transactions transactions' : List Transaction}
variable {miner : Hash} {timestamp : UInt64} {skeleton : Skeleton} {a a' : Archive}

theorem Blob.lt_of_isLE_of_ne {k : Kind} {x y : Blob k} (hle : x.isLE y = true) (hne : x ≠ y) :
    x.toList < y.toList := by
  rcases Ordering.isLE_iff_eq_lt_or_eq_eq.mp hle with hlt | heq
  · exact compare_eq_lt_iff.mp hlt
  · exact absurd (Std.LawfulEqOrd.eq_of_compare heq) hne

namespace Skeleton

/-! ## The order -/

/-- Transactions with different digests have one order. -/
theorem ordered_eq_of_perm (hnamed : {tx | tx ∈ transactions}.InjOn Record.hash)
    (h : transactions.Perm transactions') : ordered transactions = ordered transactions' := by
  have hperm : (ordered transactions).Perm (ordered transactions') :=
    ((List.mergeSort_perm _ _).trans (h.map _)).trans (List.mergeSort_perm _ _).symm
  refine hperm.eq_of_pairwise (fun p q hp hq hpq hqp => ?_) (pairwise_ordered _)
    (pairwise_ordered _)
  obtain ⟨tx, htx, rfl⟩ := List.mem_map.mp ((List.mergeSort_perm _ _).mem_iff.mp hp)
  obtain ⟨tx', htx', rfl⟩ :=
    List.mem_map.mp ((List.mergeSort_perm _ _).mem_iff.mp (hperm.mem_iff.mpr hq))
  have hhash : Record.hash tx = Record.hash tx' :=
    Std.LawfulEqOrd.eq_of_compare (Std.OrientedCmp.isLE_antisymm hpq hqp)
  rw [hnamed htx htx' hhash]

/-! ## What is committed to -/

/-- Entering digests under themselves adds these bindings. -/
theorem find_of_puts {entries : List (Hash × Transaction)} {t t' : Trie}
    (h : entries.foldlM (fun t entry => t.put entry.1 entry.1) t = .ok t') (ht : t.Canonical) :
    t'.Canonical ∧
      ∀ key, t'.find key = if key ∈ entries.map (·.1) then some key else t.find key := by
  induction entries generalizing t with
  | nil =>
      cases h
      exact ⟨ht, fun key => (if_neg List.not_mem_nil).symm⟩
  | cons entry rest ih =>
      rw [List.foldlM_cons] at h
      obtain ⟨t₁, hput, hrest⟩ := except_bind_eq_ok.mp h
      have hnonzero := Trie.ne_zero_of_put hput
      obtain rfl := Trie.eq_assign_of_put ht hput
      obtain ⟨hcanonical, hfind⟩ := ih hrest (ht.assign_some entry.1 hnonzero)
      refine ⟨hcanonical, fun key => ?_⟩
      rw [hfind, Trie.find_assign, List.map_cons]
      by_cases hkey : key = entry.1
      · subst hkey
        rw [if_pos rfl, if_pos List.mem_cons_self, ite_self]
      · simp only [List.mem_cons, hkey, false_or, if_false]

/-- A skeleton has these transactions, in the order of their digests and none twice, and its
header names a trie that has just their digests and gives evidence of every digest. -/
structure Committed (s : Skeleton) (transactions : List Transaction) : Prop where
  perm : s.transactions.Perm transactions
  ascending : (s.transactions.map Record.hash).Pairwise fun x y => x.toList < y.toList
  leaves : s.txTrie.leaves = s.transactions.map fun tx => (Record.hash tx, Record.hash tx)
  root : s.header.txRoot = s.txTrie.rootHash
  evidence : ∀ key, ∃ proof, s.txTrie.prove key = .ok proof ∧ proof.key = key ∧
    proof.verify s.header.txRoot =
      .ok (if key ∈ s.transactions.map Record.hash then some key else none)

/-- Whatever a block was built from, it commits to its transactions. -/
theorem committed_of_build
    (h : build rules parent transactions miner timestamp a = .ok skeleton a') :
    skeleton.Committed transactions := by
  obtain ⟨start, mid, -, -, hperm⟩ := build_eq_ok h
  obtain ⟨htransactions, htable, -, -⟩ := asked_of_build h
  have htabled := tabled_of_build h
  obtain ⟨hcanonical, hfind⟩ := find_of_puts htable Trie.canonical_empty
  simp only [← hashes_ordered, ← htransactions, Trie.find_empty] at hfind
  have hascending : (skeleton.transactions.map Record.hash).Pairwise
      fun x y => x.toList < y.toList :=
    htabled.sorted.imp₂ (fun _ _ => Blob.lt_of_isLE_of_ne) htabled.nodup
  refine ⟨hperm, hascending, ?_, htabled.root, fun key => ?_⟩
  · refine Trie.leaves_eq_of_mem_iff ?_ ?_
    · rw [List.pairwise_map] at hascending ⊢
      exact hascending
    · rintro ⟨key, value⟩
      rw [Trie.mem_leaves_iff hcanonical, hfind]
      constructor
      · intro h
        obtain ⟨hkey, heq⟩ := Option.ite_none_right_eq_some.mp h
        obtain ⟨tx, htx, rfl⟩ := List.mem_map.mp hkey
        exact List.mem_map.mpr ⟨tx, htx, congrArg _ (Option.some.inj heq)⟩
      · intro h
        obtain ⟨tx, htx, heq⟩ := List.mem_map.mp h
        cases heq
        exact if_pos (List.mem_map_of_mem htx)
  · have hregular := hcanonical.formed.regular
    have hget := Trie.get_eq hcanonical key
    rw [hfind] at hget
    obtain ⟨proof, hproof⟩ := (MerkleProof.exists_prove_iff hregular).mpr ⟨_, hget⟩
    refine ⟨proof, hproof, ?_, ?_⟩
    · obtain ⟨view, -, rfl⟩ := except_map_eq_ok.mp hproof
      rfl
    · rw [htabled.root]
      exact MerkleProof.verify_of_prove hregular hproof hget

/-- Transactions whose digests differ may be submitted in any order: what is built from them is
the same, and so is the reason why nothing is.  A skeleton that is built commits to them. -/
theorem build_submitted (hnamed : {tx | tx ∈ transactions}.InjOn Record.hash)
    (h : transactions.Perm transactions') (rules : Rules) (parent : Option Block) (miner : Hash)
    (timestamp : UInt64) :
    build rules parent transactions miner timestamp =
        build rules parent transactions' miner timestamp ∧
      ∀ skeleton a a', build rules parent transactions miner timestamp a = .ok skeleton a' →
        skeleton.Committed transactions := by
  refine ⟨?_, fun skeleton a a' => committed_of_build⟩
  unfold build
  rw [ordered_eq_of_perm hnamed h]

open Resigning in
theorem build_submitted_both : ∃ w a skeleton a', build {} (some (Spending.parent w)) both
      Spending.payee.address 0 a = .ok skeleton a' ∧
    build {} (some (Spending.parent w)) both.reverse Spending.payee.address 0 a =
      .ok skeleton a' ∧ skeleton.Committed both := by
  obtain ⟨w, a, -, skeleton, a', hbuild, -⟩ := exists_build
  have hnamed : {tx | tx ∈ both}.InjOn Record.hash :=
    List.inj_on_of_nodup_map nodup_both.of_cons
  obtain ⟨hsame, hcommitted⟩ := build_submitted hnamed (List.reverse_perm both).symm {}
    (some (Spending.parent w)) Spending.payee.address 0
  exact ⟨w, a, skeleton, a', hbuild, hsame ▸ hbuild, hcommitted _ _ _ hbuild⟩

end Skeleton

end ScriptLedger
