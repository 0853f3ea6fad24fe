import Mathlib.Data.Set.Function
import ScriptLedger.Proofs.World.Fork
import ScriptLedger.Proofs.World.Likeness

/-!
# The same snapshot in other stores

A snapshot names records, and where they lie is of no consequence: what can be done to
a snapshot in one archive can be done to the same trie in another one, with the same
trie as the result, as long as both stores show the records that the trie names.

Stores mix up records that have one digest.  So that this makes no difference, all
records that are ever given to either of them are taken from a set in which no two have
one digest; it is enough to know that of the records of the first archive and of those
that the second one starts with, because the second one is given nothing else.

## Main results

* `Likeness.relocated` — snapshots with the same trie are alike.
* `World.transit_relocated` — a transaction on the same trie in other stores.
* `World.commit_relocated` — a snapshot that is there can be committed.
-/

namespace ScriptLedger

open Sequencing

variable {J : Set Account} {a a' b b' : Archive} {w w' v v' : World}

/-! ## Stores with records from a set -/

namespace Archive

/-- Whatever was given to a store is in the set. -/
def Within (J : Set Account) (a : Archive) : Prop := ∀ account ∈ a.journal, account ∈ J

theorem Within.of_growsTo (h : a'.Within J) (hgrows : a.GrowsTo a') : a.Within J :=
  fun account hmem => h account (hgrows.journal account hmem)

theorem Within.collisionless (h : a.Within J) (hJ : J.InjOn Record.hash) : a.Collisionless :=
  fun x hx y hy heq => hJ (h x hx) (h y hy) heq

theorem Within.insert (h : a.Within J) {account : Account} (hmem : account ∈ J) (id : StoreId) :
    (a.insert id account).Within J := by
  intro other hother
  rcases List.mem_cons.mp hother with rfl | hother
  · exact hmem
  · exact h other hother

/-- What two stores show under one digest is one record. -/
theorem Within.eq_of_get? (ha : a.Within J) (hb : b.Within J) (hJ : J.InjOn Record.hash)
    {s t : StoreId} {hash : Hash} {x y : Account} (hx : a.get? s hash = some x)
    (hy : b.get? t hash = some y) : x = y := by
  refine hJ (ha x (mem_journal_of_get? hx)) (hb y (mem_journal_of_get? hy)) ?_
  rw [hash_of_get? hx, hash_of_get? hy]

end Archive

/-! ## Snapshots that are there -/

namespace World

/-- A well-formed snapshot over a store that exists. -/
structure Stored (a : Archive) (w : World) : Prop where
  wellFormed : w.WellFormed a
  lt_size : w.store < a.stores.size

namespace Stored

theorem growsTo (h : w.Stored a) (hgrows : a.GrowsTo a') : w.Stored a' :=
  ⟨h.wellFormed.growsTo hgrows, (hgrows.stores w.store h.lt_size).1⟩

theorem put {account : Account} (h : w.Stored a) (hput : w.put account a = .ok w' a')
    (hcol : a'.Collisionless) : w'.Stored a' := by
  refine ⟨h.wellFormed.put hput h.lt_size hcol, ?_⟩
  rw [store_of_put hput]
  exact ((growsTo_of_put hput).stores w.store h.lt_size).1

/-- The same trie over stores that show its records has the same accounts. -/
theorem account?_eq (hw : w.Stored a) (hv : v.Stored b) (htrie : v.trie = w.trie)
    (ha : a.Within J) (hb : b.Within J) (hJ : J.InjOn Record.hash) (address : Hash) :
    v.account? b address = w.account? a address := by
  refine Agrees.account?_eq ⟨htrie, fun place hash hmem => ?_⟩ address
  obtain ⟨x, hx, -⟩ := hw.wellFormed.recorded place hash hmem
  obtain ⟨y, hy, -⟩ := hv.wellFormed.recorded place hash (htrie ▸ hmem)
  rw [hx, hy, ha.eq_of_get? hb hJ hx hy]

end Stored

end World

/-- Snapshots with the same trie are alike, wherever their records lie, as long as these
are from a set without collisions. -/
def Likeness.relocated (J : Set Account) (hJ : J.InjOn Record.hash) : Likeness where
  blind _ := False
  final a := a.Within J
  stores a b := a.Within J ∧ b.Within J
  worlds a w b v := v.trie = w.trie ∧ w.Stored a ∧ v.Stored b
  final_of_growsTo hgrows h := h.of_growsTo hgrows
  keep h hgrows hgrows' := ⟨h.1, h.2.1.growsTo hgrows, h.2.2.growsTo hgrows'⟩
  contains {a b w v} h address := by
    right
    unfold World.contains
    rw [h.1]
  account? {a b w v} hstores h address :=
    Or.inr (h.2.1.account?_eq h.2.2 h.1 hstores.1 hstores.2 hJ address).symm
  put_ok {a a' b w w' v account} hstores h hfinal hput := by
    obtain ⟨htrie, hw, hv⟩ := h
    have hmem : account ∈ J := by
      obtain ⟨rfl, -⟩ := World.put_eq_ok_iff.mp hput
      exact hfinal account List.mem_cons_self
    have hb' := hstores.2.insert hmem v.store
    have hw' := hw.put hput (hfinal.collisionless hJ)
    obtain ⟨rfl, trie, hadd, rfl⟩ := World.put_eq_ok_iff.mp hput
    have hput' : v.put account b = .ok { v with trie } (b.insert v.store account) :=
      World.put_eq_ok_iff.mpr ⟨rfl, trie, htrie ▸ hadd, rfl⟩
    exact ⟨_, _, hput', ⟨hfinal, hb'⟩, rfl, hw', hv.put hput' (hb'.collisionless hJ)⟩
  put_error {a a' b w v account cause} hstores h hfinal hput := by
    obtain ⟨htrie, hw, hv⟩ := h
    right
    rw [World.put_eq] at hput
    rw [World.put_eq, htrie]
    cases hadd : w.trie.put account.address (Record.hash account) with
    | ok trie => rw [hadd] at hput; cases hput
    | error e =>
        rw [hadd] at hput
        cases hput
        exact ⟨_, rfl, hfinal, hstores.2.insert (hfinal account List.mem_cons_self) _⟩

/-- Nothing is hidden from a snapshot in other stores. -/
theorem Likeness.not_blinded_relocated (hJ : J.InjOn Record.hash) (call : Invocation)
    (limits : Limits) (w : World) (a : Archive) :
    ¬ call.Blinded (.relocated J hJ) limits w a := by
  rintro ⟨terms, start, -, terms', m', inner, start', e, f, -, -, -, ⟨cause, -, hblind⟩⟩
  exact hblind

namespace World

/-! ## Transactions -/

theorem transit_relocated {limits : Limits} {miner : Hash} {data : TransactionData}
    (hJ : J.InjOn Record.hash) (h : transit limits miner data w a = .ok w' a')
    (ha' : a'.Within J) (hb : b.Within J) (hw : w.Stored a) (hv : v.Stored b)
    (htrie : v.trie = w.trie) :
    ∃ v' b', transit limits miner data v b = .ok v' b' ∧ b'.Within J ∧ w'.Stored a' ∧
      v'.Stored b' ∧ v'.trie = w'.trie := by
  have ha := ha'.of_growsTo ((books_transit limits miner data).growsTo h)
  obtain ⟨v', b', hrun, hstores, hworlds⟩ :=
    Likeness.transit_of_transit (L := .relocated J hJ) ⟨⟨ha, hb⟩, htrie, hw, hv⟩
      (fun call w₁ a₁ _ => Likeness.not_blinded_relocated hJ call limits w₁ a₁) h ha'
  exact ⟨v', b', hrun, hstores.2, hworlds.2.1, hworlds.2.2, hworlds.1⟩

/-! ## Forks and commits -/

/-- A fork is there. -/
theorem fork_stored {ε : Type} (hb : b.Within J) (hv : v.WellFormed b) :
    ∃ v' b', (v.fork : Archived ε World) b = .ok v' b' ∧ b'.Within J ∧ v'.Stored b' ∧
      v'.trie = v.trie := by
  refine ⟨_, _, rfl, hb, ⟨hv.agrees (agrees_fork (ε := ε) rfl), ?_⟩, rfl⟩
  show b.stores.size < (b.stores.push _).size
  rw [Array.size_push]
  exact Nat.lt_succ_self _

theorem copyRecord_of_get? {target : StoreId} {address hash : Hash} {account : Account}
    (h : b.get? v.store hash = some account) (hb : b.Within J) :
    ∃ b', v.copyRecord target address hash b = .ok () b' ∧ b'.Within J := by
  by_cases hcontains : b.contains target hash = true
  · refine ⟨b, bind_eq_ok.mpr ⟨b, b, rfl, ?_⟩, hb⟩
    rw [if_pos hcontains]
    rfl
  · refine ⟨b.insert target account, bind_eq_ok.mpr ⟨b, b, rfl, ?_⟩,
      hb.insert (hb account (Archive.mem_journal_of_get? h)) target⟩
    rw [if_neg hcontains]
    simp only [recordOf, h]
    rfl

theorem copyAll_of_get? (target : StoreId) {leaves : List (Hash × Hash)} (hb : b.Within J)
    (h : ∀ address hash, (address, hash) ∈ leaves → ∃ account, b.get? v.store hash = some account) :
    ∃ u b', v.copyAll target leaves b = .ok u b' ∧ b'.Within J := by
  induction leaves generalizing b with
  | nil => exact ⟨⟨⟩, b, rfl, hb⟩
  | cons leaf rest ih =>
      obtain ⟨address, hash⟩ := leaf
      obtain ⟨account, hrecord⟩ := h address hash List.mem_cons_self
      obtain ⟨mid, hcopy, hmid⟩ := copyRecord_of_get? hrecord hb
      have hgrows := growsTo_of_copyRecord hcopy
      obtain ⟨u, b', hrest, hb'⟩ := ih hmid fun address hash hmem => by
        obtain ⟨account, hrecord⟩ := h address hash (List.mem_cons_of_mem _ hmem)
        exact ⟨account, hgrows.shows hrecord⟩
      exact ⟨u, b', bind_eq_ok.mpr ⟨(), mid, hcopy, hrest⟩, hb'⟩

/-- A snapshot that is there can be committed, and is there afterwards. -/
theorem commit_stored (hJ : J.InjOn Record.hash) (hb : b.Within J) (hv : v.Stored b) :
    ∃ v' b', v.commit b = .ok v' b' ∧ b'.Within J ∧ v'.Stored b' ∧ v'.trie = v.trie := by
  by_cases htarget : b.bottom v.store = v.store
  · exact ⟨v, b, commit_of_bottom htarget, hb, hv, rfl⟩
  · obtain ⟨u, b', hloop, hb'⟩ := copyAll_of_get? (b.bottom v.store) hb
      fun address hash hmem => by
        obtain ⟨account, hrecord, -⟩ := hv.wellFormed.recorded address hash hmem
        exact ⟨account, hrecord⟩
    have hcommit := commit_of_copyAll htarget hloop
    have hagrees := agrees_commit hv.wellFormed hcommit (hb'.collisionless hJ)
    have hgrows := growsTo_of_commit hcommit
    exact ⟨_, b', hcommit, hb',
      ⟨hv.wellFormed.agrees hagrees, (hgrows.stores _ (Archive.bottom_lt_size hv.lt_size)).1⟩, rfl⟩

/-! ## The first state -/

theorem stored_empty (a : Archive) : (World.empty a.addStore.1).Stored a.addStore.2 :=
  ⟨wellFormed_empty _ _, lt_size_addStore a⟩

theorem genesis_relocated (hJ : J.InjOn Record.hash) (h : Genesis.world a = .ok w a')
    (ha' : a'.Within J) (hb : b.Within J) :
    ∃ v b', Genesis.world b = .ok v b' ∧ b'.Within J ∧ w.Stored a' ∧ v.Stored b' ∧
      v.trie = w.trie := by
  obtain ⟨store, mid, hstore, hput⟩ := bind_eq_ok.mp h
  cases hstore
  have hmid := ha'.of_growsTo (growsTo_of_put hput)
  have hstores : (Likeness.relocated J hJ).stores a.addStore.2 b.addStore.2 := ⟨hmid, hb⟩
  have hworlds : (Likeness.relocated J hJ).worlds a.addStore.2 (World.empty a.addStore.1)
      b.addStore.2 (World.empty b.addStore.1) := ⟨rfl, stored_empty a, stored_empty b⟩
  obtain ⟨v, b', hput', hstores', hworlds'⟩ :=
    (Likeness.relocated J hJ).put_ok hstores hworlds ha' hput
  exact ⟨v, b', bind_eq_ok.mpr ⟨_, _, rfl, hput'⟩, hstores'.2, hworlds'.2.1, hworlds'.2.2,
    hworlds'.1⟩

end World

end ScriptLedger
