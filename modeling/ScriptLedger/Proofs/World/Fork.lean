import ScriptLedger.Proofs.World.Supply
import ScriptLedger.World.Genesis

/-!
# Forks and commits

A fork reads the same accounts through a new overlay, and a commit reads them from
the bottom store, where it has copied what the trie still names.  Both are the same
snapshot in another place, so they are well formed if it was, and have its total.

A commit finds some of the records at the bottom already.  That these are the right
ones is where two records with one digest would matter.

## Main results

* `World.agrees_fork`, `World.agrees_commit` — a fork and a commit agree with the
  snapshot that they are made of.
* `World.wellFormed_ofAccounts` — the snapshot of some accounts has just these.
* `Genesis.world_eq_ok` — the first state is well formed and holds no value.
-/

namespace ScriptLedger

open Sequencing

variable {ε : Type} {a a' : Archive} {w w' : World}

namespace World

/-! ## Forks -/

theorem fork_eq_ok (h : (w.fork : Archived ε World) a = .ok w' a') :
    w' = { w with store := (a.addOverlay w.store).1 } ∧ a' = (a.addOverlay w.store).2 := by
  cases h
  exact ⟨rfl, rfl⟩

theorem growsTo_of_fork (h : (w.fork : Archived ε World) a = .ok w' a') : a.GrowsTo a' := by
  obtain ⟨-, rfl⟩ := fork_eq_ok h
  exact a.growsTo_addOverlay w.store

theorem agrees_fork (h : (w.fork : Archived ε World) a = .ok w' a') : w.Agrees a a' w' := by
  obtain ⟨rfl, rfl⟩ := fork_eq_ok h
  exact ⟨rfl, fun _ hash _ => a.get?_addOverlay w.store hash⟩

/-! ## Commits -/

theorem copyRecord_eq_ok {target : StoreId} {address hash : Hash} {u : Unit}
    (h : w.copyRecord target address hash a = .ok u a') :
    (a.contains target hash = true ∧ a' = a) ∨
      ∃ account, a.get? w.store hash = some account ∧ a' = a.insert target account := by
  obtain ⟨_, _, hget, h⟩ := bind_eq_ok.mp h
  obtain ⟨rfl, rfl⟩ := get_eq_ok.mp hget
  by_cases hcontains : a.contains target hash = true
  · rw [if_pos hcontains] at h
    obtain ⟨-, rfl⟩ := pure_eq_ok.mp h
    exact Or.inl ⟨hcontains, rfl⟩
  · rw [if_neg hcontains] at h
    unfold recordOf at h
    cases hrecord : a.get? w.store hash with
    | none => rw [hrecord] at h; exact absurd h throw_ne_ok
    | some account =>
        rw [hrecord] at h
        cases h
        exact Or.inr ⟨account, rfl, rfl⟩

theorem growsTo_of_copyRecord {target : StoreId} {address hash : Hash} {u : Unit}
    (h : w.copyRecord target address hash a = .ok u a') : a.GrowsTo a' := by
  rcases copyRecord_eq_ok h with ⟨-, rfl⟩ | ⟨account, -, rfl⟩
  · exact .refl _
  · exact a.growsTo_insert target account

/-- Copies the records that entries of the trie name, one after the other. -/
def copyAll (w : World) (target : StoreId) (leaves : List (Hash × Hash)) :
    Archived StateError PUnit :=
  leaves.forM fun (address, hash) => w.copyRecord target address hash

section Copies

variable {target : StoreId} {leaves : List (Hash × Hash)} {u : PUnit}

theorem growsTo_of_copyAll (h : w.copyAll target leaves a = .ok u a') : a.GrowsTo a' := by
  induction leaves generalizing a with
  | nil =>
      obtain ⟨-, rfl⟩ := pure_eq_ok.mp h
      exact .refl a
  | cons leaf rest ih =>
      obtain ⟨_, mid, hcopy, hrest⟩ := bind_eq_ok.mp h
      exact (growsTo_of_copyRecord hcopy).trans (ih hrest)

/-- A copied record is shown by the target. -/
theorem shown_of_copyRecord {address hash : Hash} {u : Unit}
    (h : w.copyRecord target address hash a = .ok u a') (htarget : target < a.stores.size) :
    ∃ account, a'.get? target hash = some account := by
  rcases copyRecord_eq_ok h with ⟨hcontains, rfl⟩ | ⟨account, hrecord, rfl⟩
  · rw [Archive.contains_eq] at hcontains
    exact Option.isSome_iff_exists.mp hcontains
  · have hhash := Archive.hash_of_get? hrecord
    rw [← hhash]
    exact Archive.exists_get?_insert htarget

/-- The target shows a record under each digest that was gone through. -/
theorem shown_of_copyAll (h : w.copyAll target leaves a = .ok u a')
    (htarget : target < a.stores.size) :
    ∀ address hash, (address, hash) ∈ leaves → ∃ account, a'.get? target hash = some account := by
  induction leaves generalizing a with
  | nil =>
      intro address hash hmem
      exact absurd hmem List.not_mem_nil
  | cons leaf rest ih =>
      intro address hash hmem
      obtain ⟨_, mid, hcopy, hrest⟩ := bind_eq_ok.mp h
      have hgrows := growsTo_of_copyAll hrest
      rcases List.mem_cons.mp hmem with rfl | hmem
      · obtain ⟨account, haccount⟩ := shown_of_copyRecord hcopy htarget
        exact ⟨account, hgrows.shows haccount⟩
      · have htarget' := ((growsTo_of_copyRecord hcopy).stores target htarget).1
        exact ih hrest htarget' address hash hmem

end Copies

/-- There is nothing to do for a snapshot that lies at the bottom. -/
theorem commit_of_bottom (h : a.bottom w.store = w.store) : w.commit a = .ok w a := by
  refine bind_eq_ok.mpr ⟨a, a, rfl, ?_⟩
  rw [if_pos h]
  rfl

/-- Any other one goes to the bottom when all its records have been copied there. -/
theorem commit_of_copyAll {u : PUnit} (hne : a.bottom w.store ≠ w.store)
    (h : w.copyAll (a.bottom w.store) w.trie.leaves a = .ok u a') :
    w.commit a = .ok { w with store := a.bottom w.store } a' := by
  refine bind_eq_ok.mpr ⟨a, a, rfl, ?_⟩
  rw [if_neg hne]
  exact bind_eq_ok.mpr ⟨u, a', h, rfl⟩

theorem commit_eq_ok (h : w.commit a = .ok w' a') :
    (a.bottom w.store = w.store ∧ w' = w ∧ a' = a) ∨
      (a.bottom w.store ≠ w.store ∧ w' = { w with store := a.bottom w.store } ∧
        ∃ u, w.copyAll (a.bottom w.store) w.trie.leaves a = .ok u a') := by
  obtain ⟨_, _, hget, h⟩ := bind_eq_ok.mp h
  obtain ⟨rfl, rfl⟩ := get_eq_ok.mp hget
  by_cases htarget : a.bottom w.store = w.store
  · rw [if_pos htarget] at h
    obtain ⟨rfl, rfl⟩ := pure_eq_ok.mp h
    exact Or.inl ⟨htarget, rfl, rfl⟩
  · rw [if_neg htarget] at h
    obtain ⟨u, mid, hloop, h⟩ := bind_eq_ok.mp h
    obtain ⟨rfl, rfl⟩ := pure_eq_ok.mp h
    exact Or.inr ⟨htarget, rfl, u, hloop⟩

theorem growsTo_of_commit (h : w.commit a = .ok w' a') : a.GrowsTo a' := by
  rcases commit_eq_ok h with ⟨-, -, rfl⟩ | ⟨-, -, u, hloop⟩
  · exact .refl _
  · exact growsTo_of_copyAll hloop

theorem agrees_commit (hw : w.WellFormed a) (h : w.commit a = .ok w' a')
    (hcol : a'.Collisionless) : w.Agrees a a' w' := by
  rcases commit_eq_ok h with ⟨-, rfl, rfl⟩ | ⟨-, rfl, u, hloop⟩
  · exact hw.agrees_of_growsTo (.refl _)
  · have hgrows := growsTo_of_copyAll hloop
    refine ⟨rfl, fun address hash hmem => ?_⟩
    obtain ⟨account, hrecord, -⟩ := hw.recorded address hash hmem
    have hstore := Archive.lt_size_of_get? hrecord
    have hbottom := Archive.bottom_lt_size hstore
    obtain ⟨copy, hcopy⟩ := shown_of_copyAll hloop hbottom address hash hmem
    -- The bottom may have had its record before; it is the same one.
    have hkept := hgrows.shows hrecord
    have heq : copy = account :=
      hcol copy (Archive.mem_journal_of_get? hcopy) account (Archive.mem_journal_of_get? hkept)
        (by rw [Archive.hash_of_get? hcopy, Archive.hash_of_get? hkept])
    rw [hcopy, hrecord, heq]

/-! ## First snapshots -/

theorem wellFormed_empty (a : Archive) (store : StoreId) : (World.empty store).WellFormed a where
  known := trivial
  recorded _ _ hmem := nomatch hmem

theorem lt_size_addStore (a : Archive) : a.addStore.1 < a.addStore.2.stores.size := by
  show a.stores.size < (a.stores.push _).size
  rw [Array.size_push]
  exact Nat.lt_succ_self _

/-- The snapshot of some accounts over a new store. -/
def ofAccounts (accounts : List Account) : Archived StateError World := do
  let store ← modifyGet Archive.addStore
  accounts.foldlM put (World.empty store)

/-- Accounts that are put one after the other are all there, if they have addresses
of their own. -/
private theorem put_all {accounts : List Account} (h : accounts.foldlM put w a = .ok w' a') :
    a.GrowsTo a' ∧ (w.WellFormed a → w.store < a.stores.size → a'.Collisionless →
      w'.WellFormed a' ∧
        (∀ other, w.Holds a other → other.address ∉ accounts.map Account.address →
          w'.Holds a' other) ∧
        ((accounts.map Account.address).Nodup → ∀ account ∈ accounts, w'.Holds a' account)) := by
  induction accounts generalizing w a with
  | nil =>
      obtain ⟨rfl, rfl⟩ := pure_eq_ok.mp h
      refine ⟨.refl _, fun hw _ _ => ⟨hw, fun _ hother _ => hother, ?_⟩⟩
      exact fun _ _ hmem => absurd hmem List.not_mem_nil
  | cons account rest ih =>
      rw [List.foldlM_cons] at h
      obtain ⟨between, mid, hput, hrest⟩ := bind_eq_ok.mp h
      obtain ⟨hgrows, hall⟩ := ih hrest
      have hfirst := growsTo_of_put hput
      refine ⟨hfirst.trans hgrows, fun hw hstore hcol => ?_⟩
      have hcol' := hgrows.collisionless hcol
      have hstore' : between.store < mid.stores.size := by
        rw [store_of_put hput]
        exact (hfirst.stores w.store hstore).1
      obtain ⟨hw', hkeep, hnew⟩ := hall (hw.put hput hstore hcol') hstore' hcol
      refine ⟨hw', fun other hother hnot => ?_, fun hnodup x hmem => ?_⟩
      · rw [List.map_cons, List.mem_cons, not_or] at hnot
        exact hkeep other (holds_put_of_ne hput hw hstore hcol' hother hnot.1) hnot.2
      · rw [List.map_cons, List.nodup_cons] at hnodup
        rcases List.mem_cons.mp hmem with rfl | hmem
        · exact hkeep x (holds_put hput hw hstore hcol') hnodup.1
        · exact hnew hnodup.2 x hmem

/-- The snapshot of some accounts is well formed, and it has them all, if they have
addresses of their own. -/
theorem wellFormed_ofAccounts {accounts : List Account} (h : ofAccounts accounts a = .ok w a')
    (hcol : a'.Collisionless) :
    w.WellFormed a' ∧ ((accounts.map Account.address).Nodup →
      ∀ account ∈ accounts, w.Holds a' account) := by
  obtain ⟨store, mid, hstore, hall⟩ := bind_eq_ok.mp h
  cases hstore
  have hempty := wellFormed_empty a.addStore.2 a.addStore.1
  obtain ⟨hw, -, hholds⟩ := (put_all hall).2 hempty (lt_size_addStore a) hcol
  exact ⟨hw, hholds⟩

end World

/-- The first state is well formed and holds no value. -/
theorem Genesis.world_eq_ok (h : Genesis.world a = .ok w a') :
    a.GrowsTo a' ∧ (a'.Collisionless → w.WellFormed a' ∧ w.total a' = 0) := by
  obtain ⟨store, mid, hstore, hput⟩ := bind_eq_ok.mp h
  cases hstore
  have hempty := World.wellFormed_empty a.addStore.2 a.addStore.1
  have hlt := World.lt_size_addStore a
  refine ⟨(a.growsTo_addStore).trans (World.growsTo_of_put hput), fun hcol => ?_⟩
  refine ⟨hempty.put hput hlt hcol, ?_⟩
  have hadd := World.total_put hput hempty hlt hcol (World.account?_eq_none_iff.mpr rfl)
  exact hadd

end ScriptLedger
