import ScriptLedger.Proofs.Record.Digest
import ScriptLedger.Proofs.World.Progress
import ScriptLedger.World.Genesis

/-!
# The factory alone

The first state has one account, so its trie is a line.  `Genesis.Alone` says of a snapshot
that it has this account and no other, and that no other was ever given to its stores.
Nothing is put into such a snapshot but the account as it is there, so whatever can be
applied to it leaves it so.

## Main results

* `Genesis.exists_world` — there is a first state, over any stores without other accounts.
* `Genesis.Alone.holds` — it has the factory.
* `Genesis.Alone.credit` — nothing can be added to the balance, and this changes nothing.
-/

namespace ScriptLedger

open Digest Sequencing

variable {a a' : Archive} {w w' : World} {key value : Hash}

/-- An empty trie with one key assigned is a line. -/
theorem Trie.assign_empty (key : Hash) (hvalue : value ≠ Blob.zero) :
    Trie.empty.assign key (some value) = ⟨Node.line value (Path.ofHash key)⟩ := by
  have hput := put_eq canonical_empty key hvalue
  rw [put, if_neg fun hzero => hvalue (Blob.isZero_iff.mp hzero)] at hput
  rw [show Trie.empty.root = Node.empty from rfl, Node.put_empty] at hput
  exact (Except.ok.inj hput).symm

namespace Genesis

/-- The trie of the first state. -/
def trie : Trie := ⟨Node.line (Record.hash account) (Path.ofHash address)⟩

/-! ## One account -/

theorem named_account : Named {account} := by
  have hnodup : (Blob.zero :: [Record.bytes account].map sha256).Nodup := by
    refine Node.nodup_of_digests ?_
    simp only [account, List.map, Record.bytes, Record.toJson, Account.toJson,
      Json.render_object_cons, Json.renderMembers_cons, Json.renderMembers_nil,
      Json.render_ofBlob, Json.render_ofUInt64, Json.render_text]
    decide +kernel
  have hnamed : Named {x | x ∈ [account]} := named_of_nodup hnodup
  simpa only [List.mem_singleton, Set.ofPred_eq_eq_singleton] using hnamed

theorem hash_ne_zero : Record.hash account ≠ Blob.zero := named_account.nonzero account rfl

theorem trie_eq : trie = Trie.empty.assign address (some (Record.hash account)) :=
  (Trie.assign_empty address hash_ne_zero).symm

theorem covers_trie : trie.Covers {account} := by
  rw [trie_eq]
  refine ⟨Trie.canonical_empty.assign_some address hash_ne_zero, ?_⟩
  rintro _ rfl
  rw [Trie.find_assign]
  exact if_pos rfl

/-- The factory is put where no account is. -/
theorem put_empty (store : StoreId) (a : Archive) :
    (World.empty store).put account a = .ok ⟨trie, store⟩ (a.insert store account) := by
  refine World.put_eq_ok_iff.mpr ⟨rfl, trie, ?_, rfl⟩
  rw [trie_eq]
  exact Trie.put_eq Trie.canonical_empty address hash_ne_zero

/-- The first state is this trie over a new store. -/
theorem world_eq (a : Archive) :
    world a = .ok ⟨trie, a.addStore.1⟩ (a.addStore.2.insert a.addStore.1 account) :=
  bind_eq_ok.mpr ⟨_, _, rfl, put_empty _ _⟩

theorem trie_of_world (h : world a = .ok w a') : w.trie = trie := by
  rw [world_eq] at h
  cases h
  rfl

/-! ## Snapshots with one account -/

/-- A snapshot of the factory, over stores that were given no other account. -/
structure Alone (a : Archive) (w : World) : Prop where
  within : a.Within {account}
  stored : w.Stored a
  trie : w.trie = trie

theorem injOn_account : Set.InjOn Record.hash {account} := named_account.injOn

/-- The factory is alone where it was put first. -/
theorem alone_put {store : StoreId} (ha : a.Within {account}) (hstore : store < a.stores.size) :
    Alone (a.insert store account) ⟨trie, store⟩ := by
  have hwithin := ha.insert rfl store
  have hempty : (World.empty store).Stored a := ⟨World.wellFormed_empty a store, hstore⟩
  exact ⟨hwithin, hempty.put (put_empty store a) (hwithin.collisionless injOn_account), rfl⟩

theorem exists_world (ha : a.Within {account}) : ∃ w a', world a = .ok w a' ∧ Alone a' w :=
  ⟨_, _, world_eq a, alone_put (a := a.addStore.2) ha (World.lt_size_addStore a)⟩

namespace Alone

theorem settled (h : Alone a w) : w.Settled {account} a :=
  ⟨h.within, h.stored, h.trie ▸ covers_trie.canonical⟩

theorem holds (h : Alone a w) : w.Holds a account := by
  have hfind : w.trie.find address = some (Record.hash account) := by
    rw [h.trie]
    exact covers_trie.find account rfl
  have hget : w.trie.get address = .ok (some (Record.hash account)) := by
    rw [Trie.get_eq h.settled.canonical, hfind]
  obtain ⟨found, hrecord, -⟩ :=
    h.stored.wellFormed.recorded _ _ (Trie.mem_leaves_of_get hget)
  obtain rfl : found = account := h.within found (Archive.mem_journal_of_get? hrecord)
  exact World.account?_eq_some_iff.mpr ⟨_, hget, hrecord⟩

theorem fork {ε : Type} (h : Alone a w) :
    ∃ w' a', (w.fork : Archived ε World) a = .ok w' a' ∧ Alone a' w' := by
  obtain ⟨w', a', hfork, hwithin, hstored, htrie⟩ :=
    World.fork_stored (ε := ε) h.within h.stored.wellFormed
  exact ⟨w', a', hfork, hwithin, hstored, htrie.trans h.trie⟩

theorem commit (h : Alone a w) : ∃ w' a', w.commit a = .ok w' a' ∧ Alone a' w' := by
  obtain ⟨w', a', hcommit, hwithin, hstored, htrie⟩ :=
    World.commit_stored injOn_account h.within h.stored
  exact ⟨w', a', hcommit, hwithin, hstored, htrie.trans h.trie⟩

theorem credit (h : Alone a w) :
    ∃ w' a', World.credit address 0 w a = .ok w' a' ∧ Alone a' w' := by
  have hsame : account.addToBalance 0 = .ok account := rfl
  obtain ⟨w', a', hcredit, hsettled, -⟩ :=
    h.settled.exists_credit named_account h.holds hsame rfl
  obtain ⟨old, new, -, -, hput⟩ := World.credit_eq_ok hcredit
  have hcovers : w.trie.Covers {account} := h.trie ▸ covers_trie
  exact ⟨w', a', hcredit, hsettled.within, hsettled.stored,
    (hcovers.put hput hsettled.within).trans h.trie⟩

end Alone

end Genesis

end ScriptLedger
