import ScriptLedger.Proofs.Trie.Update
import ScriptLedger.Proofs.World.Archive
import ScriptLedger.World.Basic

/-!
# Well-formed snapshots

A snapshot is well formed when its trie is fully known and every leaf names a
record that the store has and that belongs at the leaf's path.  In such a
snapshot the accounts behave like a finite map: putting an account changes the
answer at its address and no other, and later writes to any store change no
answer at all.

## Main results

* `World.account?_put`, `World.WellFormed.put` — putting an account is an update
  of the map, and keeps the snapshot well formed.
* `World.Agrees.account?_eq` — snapshots that name the same records, and whose
  stores show the same, have the same accounts.
* `World.WellFormed.account?_growsTo`, `World.WellFormed.growsTo` — a snapshot does
  not depend on what is written to stores after it was taken.
-/

namespace ScriptLedger.World

open Sequencing

variable {a a' b : Archive} {w w' : World} {account : Account} {address : Hash}

/-- The trie is fully known, and every leaf's record is in the store and has
the leaf's path as its address. -/
structure WellFormed (a : Archive) (w : World) : Prop where
  known : w.trie.FullyKnown
  recorded : ∀ address hash, (address, hash) ∈ w.trie.leaves →
    ∃ account, a.get? w.store hash = some account ∧ account.address = address

/-- The account is recorded in the snapshot, just as it is. -/
def Holds (a : Archive) (w : World) (account : Account) : Prop :=
  w.account? a account.address = .ok (some account)

/-! ## Reading -/

theorem account?_eq_some_iff :
    w.account? a address = .ok (some account) ↔
      ∃ hash, w.trie.get address = .ok (some hash) ∧ a.get? w.store hash = some account := by
  unfold account?
  cases hget : w.trie.get address with
  | error cause => simp
  | ok found =>
      cases found with
      | none => simp
      | some hash =>
          rw [except_map_eq_ok]
          unfold recordOf
          cases hrecord : a.get? w.store hash with
          | none => simp [hrecord]
          | some record => simp [hrecord]

theorem account?_eq_none_iff : w.account? a address = .ok none ↔ w.trie.get address = .ok none := by
  unfold account?
  cases hget : w.trie.get address with
  | error cause => simp
  | ok found =>
      cases found with
      | none => simp
      | some hash =>
          rw [except_map_eq_ok]
          simp

theorem contains_eq_false_iff :
    w.contains address = .ok false ↔ w.account? a address = .ok none := by
  rw [account?_eq_none_iff, contains, Trie.contains, except_mapError_eq_ok, except_map_eq_ok]
  constructor
  · rintro ⟨found, hget, hfound⟩
    rw [Option.isSome_eq_false_iff, Option.isNone_iff_eq_none] at hfound
    rw [hget, hfound]
  · intro hget
    exact ⟨none, hget, rfl⟩

/-- A snapshot keeps its answers when stores grow, even one that cannot answer everything. -/
theorem account?_of_growsTo {found : Option Account} (h : w.account? a address = .ok found)
    (hgrows : a.GrowsTo a') : w.account? a' address = .ok found := by
  cases found with
  | none => exact account?_eq_none_iff.mpr (account?_eq_none_iff.mp h)
  | some account =>
      obtain ⟨hash, hget, hrecord⟩ := account?_eq_some_iff.mp h
      exact account?_eq_some_iff.mpr ⟨hash, hget, hgrows.shows hrecord⟩

/-- A store that has a record is one of the archive. -/
theorem store_lt_of_account? (h : w.account? a address = .ok (some account)) :
    w.store < a.stores.size := by
  obtain ⟨hash, -, hrecord⟩ := account?_eq_some_iff.mp h
  exact Archive.lt_size_of_get? hrecord

/-- The second snapshot names the records of the first one, and its store shows
what the store of the first one showed. -/
structure Agrees (a b : Archive) (w v : World) : Prop where
  trie : v.trie = w.trie
  shows : ∀ address hash, (address, hash) ∈ w.trie.leaves →
    b.get? v.store hash = a.get? w.store hash

/-- Snapshots that agree have the same accounts. -/
theorem Agrees.account?_eq {v : World} (h : w.Agrees a b v) (address : Hash) :
    v.account? b address = w.account? a address := by
  unfold account?
  rw [h.trie]
  cases hget : w.trie.get address with
  | error cause => rfl
  | ok found =>
      cases found with
      | none => rfl
      | some hash =>
          have hshows := h.shows address hash (Trie.mem_leaves_of_get hget)
          simp only [recordOf, hshows]

namespace WellFormed

/-- The record found at an address belongs there. -/
theorem address_eq (hw : w.WellFormed a) (h : w.account? a address = .ok (some account)) :
    account.address = address := by
  obtain ⟨hash, hget, hrecord⟩ := account?_eq_some_iff.mp h
  obtain ⟨leaf, hleaf, haddress⟩ := hw.recorded address hash (Trie.mem_leaves_of_get hget)
  rw [hrecord] at hleaf
  cases hleaf
  exact haddress

theorem holds (hw : w.WellFormed a) (h : w.account? a address = .ok (some account)) :
    w.Holds a account := by
  rw [Holds, hw.address_eq h]
  exact h

/-- A snapshot that agrees with a well-formed one is well formed. -/
theorem agrees {v : World} (hw : w.WellFormed a) (h : w.Agrees a b v) : v.WellFormed b where
  known := by
    rw [h.trie]
    exact hw.known
  recorded address hash hmem := by
    rw [h.trie] at hmem
    obtain ⟨account, hrecord, haddress⟩ := hw.recorded address hash hmem
    exact ⟨account, by rw [h.shows address hash hmem, hrecord], haddress⟩

theorem agrees_of_growsTo (hw : w.WellFormed a) (h : a.GrowsTo b) : w.Agrees a b w where
  trie := rfl
  shows address hash hmem := by
    obtain ⟨account, hrecord, -⟩ := hw.recorded address hash hmem
    rw [hrecord, h.shows hrecord]

/-- Writing to stores makes no difference to a snapshot. -/
theorem growsTo (hw : w.WellFormed a) (h : a.GrowsTo b) : w.WellFormed b :=
  hw.agrees (hw.agrees_of_growsTo h)

theorem account?_growsTo (hw : w.WellFormed a) (h : a.GrowsTo b) (address : Hash) :
    w.account? b address = w.account? a address :=
  (hw.agrees_of_growsTo h).account?_eq address

theorem holds_growsTo (hw : w.WellFormed a) (h : a.GrowsTo b) :
    w.Holds b account ↔ w.Holds a account := by
  rw [Holds, Holds, hw.account?_growsTo h]

end WellFormed

/-! ## Putting an account -/

theorem put_eq_ok_iff :
    w.put account a = .ok w' a' ↔
      a' = a.insert w.store account ∧
        ∃ trie, w.trie.put account.address (Record.hash account) = .ok trie ∧
          w' = { w with trie } := by
  unfold put
  cases w.trie.put account.address (Record.hash account) with
  | error cause =>
      show EStateM.Result.error (StateError.trie cause) (a.insert w.store account) = .ok w' a' ↔ _
      simp
  | ok trie =>
      show EStateM.Result.ok { w with trie } (a.insert w.store account) = .ok w' a' ↔ _
      simp only [EStateM.Result.ok.injEq, Except.ok.injEq, exists_eq_left']
      constructor
      · rintro ⟨rfl, rfl⟩
        exact ⟨rfl, rfl⟩
      · rintro ⟨rfl, rfl⟩
        exact ⟨rfl, rfl⟩

/-- What is put is written to the store, and named by the trie if that can be done. -/
theorem put_eq (w : World) (account : Account) (a : Archive) :
    w.put account a = match w.trie.put account.address (Record.hash account) with
      | .ok trie => .ok { w with trie } (a.insert w.store account)
      | .error cause => .error (.trie cause) (a.insert w.store account) := by
  unfold put
  cases w.trie.put account.address (Record.hash account) with
  | ok trie => rfl
  | error cause => rfl

/-- Whether it succeeds or not, a put only adds to the stores. -/
theorem growsTo_of_put_error {e : StateError} (h : w.put account a = .error e a') :
    a.GrowsTo a' := by
  unfold put at h
  cases hp : w.trie.put account.address (Record.hash account) with
  | error cause =>
      rw [hp] at h
      cases h
      exact Archive.growsTo_insert a w.store account
  | ok trie => rw [hp] at h; cases h

section Put

variable (h : w.put account a = .ok w' a')

include h

theorem growsTo_of_put : a.GrowsTo a' := by
  obtain ⟨rfl, -⟩ := put_eq_ok_iff.mp h
  exact Archive.growsTo_insert a w.store account

theorem store_of_put : w'.store = w.store := by
  obtain ⟨-, trie, -, rfl⟩ := put_eq_ok_iff.mp h
  rfl

theorem shows_put (hstore : w.store < a.stores.size) (hcol : a'.Collisionless) :
    a'.get? w.store (Record.hash account) = some account := by
  obtain ⟨rfl, -⟩ := put_eq_ok_iff.mp h
  exact Archive.get?_insert_self hstore hcol

section Shows

variable (hw : w.WellFormed a) (hshows : a'.get? w.store (Record.hash account) = some account)

include hw hshows

/-- Putting an account that the store then shows changes the answer at its address and no
other. -/
theorem account?_put_of_shows (address : Hash) :
    w'.account? a' address =
      if address = account.address then .ok (some account) else w.account? a address := by
  have hgrows := growsTo_of_put h
  obtain ⟨rfl, trie, hput, rfl⟩ := put_eq_ok_iff.mp h
  have hget := Trie.get_put hput address
  by_cases haddress : address = account.address
  · rw [if_pos haddress] at hget ⊢
    exact account?_eq_some_iff.mpr ⟨Record.hash account, hget, hshows⟩
  · rw [if_neg haddress] at hget ⊢
    rw [← hw.account?_growsTo hgrows]
    simp only [account?, hget, recordOf]

theorem WellFormed.put_of_shows : w'.WellFormed a' := by
  have hgrows := growsTo_of_put h
  obtain ⟨rfl, trie, hput, rfl⟩ := put_eq_ok_iff.mp h
  refine ⟨Trie.fullyKnown_put hput hw.known, ?_⟩
  intro address hash hmem
  obtain ⟨before, entry, after, hold, hnew, -⟩ := Trie.leaves_put hput
  rw [hnew, List.mem_append, List.mem_cons] at hmem
  rcases hmem with hmem | hmem | hmem
  · exact (hw.growsTo hgrows).recorded address hash (by rw [hold]; simp [hmem])
  · cases hmem
    exact ⟨account, hshows, rfl⟩
  · exact (hw.growsTo hgrows).recorded address hash (by rw [hold]; simp [hmem])

end Shows

variable (hw : w.WellFormed a) (hstore : w.store < a.stores.size) (hcol : a'.Collisionless)

include hw hstore hcol

/-- Putting an account changes the answer at its address and no other. -/
theorem account?_put (address : Hash) :
    w'.account? a' address =
      if address = account.address then .ok (some account) else w.account? a address :=
  account?_put_of_shows h hw (shows_put h hstore hcol) address

theorem holds_put : w'.Holds a' account := by
  rw [Holds, account?_put h hw hstore hcol, if_pos rfl]

theorem holds_put_of_ne {other : Account} (hother : w.Holds a other)
    (hne : other.address ≠ account.address) : w'.Holds a' other := by
  rw [Holds, account?_put h hw hstore hcol, if_neg hne]
  exact hother

theorem WellFormed.put : w'.WellFormed a' :=
  hw.put_of_shows h (shows_put h hstore hcol)

end Put

end ScriptLedger.World
