import Mathlib
import ScriptLedger.Proofs.World.WellFormed

/-!
# The supply

The supply of a snapshot is the sum of all balances, a natural number.  It can
be computed when every record is there; `World.total` is the same sum with the
missing records left out, and for well-formed snapshots the two agree.

## Main results

* `World.supply_eq` — a well-formed snapshot has a supply, its total.
* `World.Agrees.total_eq` — snapshots that agree have the same total.
* `World.total_put` — putting an account moves the total by the new balance
  less the one it replaces.
-/

namespace ScriptLedger.World

open Sequencing

variable {a a' b : Archive} {w w' : World} {account : Account}

/-- The sum of the balances of all accounts. -/
def supply (a : Archive) (w : World) : Except StateError Nat :=
  (w.accounts a).map fun accounts => (accounts.map fun account => account.balance.toNat).sum

/-- The balance of the record under a digest, zero if there is none. -/
def balanceUnder (a : Archive) (id : StoreId) (hash : Hash) : Nat :=
  match a.get? id hash with
  | some account => account.balance.toNat
  | none => 0

/-- The sum of the balances of the records that the leaves name. -/
def total (a : Archive) (w : World) : Nat :=
  (w.trie.leaves.map fun leaf => balanceUnder a w.store leaf.2).sum

theorem balanceUnder_of_get? {id : StoreId} {hash : Hash} (h : a.get? id hash = some account) :
    balanceUnder a id hash = account.balance.toNat := by
  simp only [balanceUnder, h]

private theorem mapM_recordOf {leaves : List (Hash × Hash)}
    (h : ∀ address hash, (address, hash) ∈ leaves →
      ∃ account, a.get? w.store hash = some account ∧ account.address = address) :
    ∃ accounts, (leaves.mapM fun (address, hash) => recordOf a w address hash) = .ok accounts ∧
      (accounts.map fun account => (account.address, Record.hash account)) = leaves ∧
        ∀ account ∈ accounts, a.get? w.store (Record.hash account) = some account := by
  induction leaves with
  | nil => exact ⟨[], rfl, rfl, fun _ hmem => absurd hmem List.not_mem_nil⟩
  | cons leaf rest ih =>
      obtain ⟨address, hash⟩ := leaf
      obtain ⟨account, hrecord, rfl⟩ := h address hash List.mem_cons_self
      obtain ⟨accounts, haccounts, hleaves, hall⟩ :=
        ih fun address hash hmem => h address hash (List.mem_cons_of_mem _ hmem)
      have hhash := Archive.hash_of_get? hrecord
      refine ⟨account :: accounts, ?_, ?_, ?_⟩
      · have hread : recordOf a w account.address hash = .ok account := by
          simp only [recordOf, hrecord]
        rw [List.mapM_cons]
        simp only [hread, haccounts]
        rfl
      · rw [List.map_cons, hleaves, hhash]
      · intro other hmem
        rcases List.mem_cons.mp hmem with rfl | hmem
        · rw [hhash, hrecord]
        · exact hall other hmem

/-- All accounts of a well-formed snapshot can be read, and each lies at its address, under
its digest. -/
theorem accounts_eq_ok (hw : w.WellFormed a) :
    ∃ accounts, w.accounts a = .ok accounts ∧
      (accounts.map fun account => (account.address, Record.hash account)) = w.trie.leaves ∧
        ∀ account ∈ accounts, a.get? w.store (Record.hash account) = some account :=
  mapM_recordOf hw.recorded

/-- All accounts of a well-formed snapshot can be read, and their balances add
up to its total. -/
theorem accounts_eq (hw : w.WellFormed a) :
    ∃ accounts, w.accounts a = .ok accounts ∧
      (accounts.map fun account => account.balance.toNat).sum = w.total a := by
  obtain ⟨accounts, haccounts, hleaves, hall⟩ := accounts_eq_ok hw
  refine ⟨accounts, haccounts, ?_⟩
  rw [total, ← hleaves, List.map_map]
  refine congrArg List.sum (List.map_congr_left fun account hmem => ?_)
  exact (balanceUnder_of_get? (hall account hmem)).symm

theorem supply_eq (hw : w.WellFormed a) : w.supply a = .ok (w.total a) := by
  obtain ⟨accounts, haccounts, hsum⟩ := accounts_eq hw
  rw [supply, haccounts, ← hsum]
  rfl

/-- Snapshots that agree have the same total. -/
theorem Agrees.total_eq {v : World} (h : w.Agrees a b v) : v.total b = w.total a := by
  have heach : ∀ leaf ∈ w.trie.leaves,
      balanceUnder b v.store leaf.2 = balanceUnder a w.store leaf.2 := by
    rintro ⟨address, hash⟩ hmem
    simp only [balanceUnder, h.shows address hash hmem]
  rw [total, total, h.trie, List.map_congr_left heach]

/-- Writing to stores makes no difference to the total of a snapshot. -/
theorem total_growsTo (hw : w.WellFormed a) (h : a.GrowsTo b) : w.total b = w.total a :=
  (hw.agrees_of_growsTo h).total_eq

/-- No account has more than all of them together. -/
theorem balance_le_total {address : Hash} (h : w.account? a address = .ok (some account)) :
    account.balance.toNat ≤ w.total a := by
  obtain ⟨hash, hget, hrecord⟩ := account?_eq_some_iff.mp h
  have hmem := List.mem_map_of_mem (f := fun leaf => balanceUnder a w.store leaf.2)
    (Trie.mem_leaves_of_get hget)
  dsimp only at hmem
  rw [balanceUnder_of_get? hrecord] at hmem
  exact List.single_le_sum (fun _ _ => Nat.zero_le _) _ hmem

/-- Putting an account moves the total by the new balance less the one that it
replaces. -/
theorem total_put (h : w.put account a = .ok w' a') (hw : w.WellFormed a)
    (hstore : w.store < a.stores.size) (hcol : a'.Collisionless) {old : Option Account}
    (hold : w.account? a account.address = .ok old) :
    w'.total a' + (old.map fun old => old.balance.toNat).getD 0 =
      w.total a + account.balance.toNat := by
  have hgrows := growsTo_of_put h
  rw [← total_growsTo hw hgrows]
  obtain ⟨rfl, trie, hput, rfl⟩ := put_eq_ok_iff.mp h
  obtain ⟨before, entry, after, hbefore, hafter, hentry⟩ := Trie.leaves_put hput
  have hnew := balanceUnder_of_get? (Archive.get?_insert_self hstore hcol)
  have hreplaced : (entry.map fun leaf =>
      balanceUnder (a.insert w.store account) w.store leaf.2).sum =
        (old.map fun old => old.balance.toNat).getD 0 := by
    cases old with
    | none =>
        rw [hentry none (account?_eq_none_iff.mp hold)]
        rfl
    | some old =>
        obtain ⟨hash, hget, hrecord⟩ := account?_eq_some_iff.mp hold
        rw [hentry (some hash) hget]
        simp [balanceUnder_of_get? (hgrows.shows hrecord)]
  rw [total, total, hbefore, hafter]
  simp only [List.map_append, List.map_cons, List.sum_append, List.sum_cons, hnew, hreplaced]
  omega

end ScriptLedger.World
