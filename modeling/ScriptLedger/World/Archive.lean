import Std.Data.TreeMap
import ScriptLedger.Account.Basic

/-!
# Stores of account records

A trie knows accounts by the digests of their records; the records themselves
lie in stores.  A store either stands alone or is laid over another one: what
the lower layers have is seen through it, and what is written to it stays in
it.  Work that may be thrown away is written to an overlay.

All stores live in one archive and are named by their position, because
several states may share a store and see what the others write.  Stores are
never removed and records never replaced: `insert` adds a record under its own
digest unless the store already shows one there.

A store cannot tell two records with one digest apart.  The journal of the
archive can: it lists everything that was ever given to a store, kept or not,
and `Archive.Collisionless` says that no two different records in it have one
digest.

Two facts that every operation keeps are part of the type: what is below a
store is another one with all its layers, and no record lies in a store that
the journal does not list.
-/

namespace ScriptLedger

/-- The name of a store: its position in the archive. -/
abbrev StoreId := Nat

/-- The records of one layer, and the layers it is laid over. -/
structure Store where
  /-- The layers below, nearest first; none for a store that stands alone. -/
  below : List StoreId
  /-- The records written here, by digest. -/
  records : Std.TreeMap Hash Account
  /-- Every record lies under its own digest. -/
  keyed : ∀ hash account, records[hash]? = some account → Record.hash account = hash

namespace Store

/-- A layer without records over the given layers. -/
def empty (below : List StoreId) : Store := { below, records := ∅, keyed := by simp }

/-- The layer with a record under its digest. -/
def insert (s : Store) (account : Account) : Store where
  below := s.below
  records := s.records.insert (Record.hash account) account
  keyed hash other h := by
    rw [Std.TreeMap.getElem?_insert] at h
    split at h
    case isTrue heq =>
      cases h
      exact Std.LawfulEqOrd.eq_of_compare heq
    case isFalse => exact s.keyed hash other h

/-! ## Several stores -/

/-- A store stands alone, or is laid over another one with all its layers. -/
def Layered (stores : Array Store) : Prop :=
  ∀ store ∈ stores, store.below = [] ∨
    ∃ base lower, stores[base]? = some lower ∧ store.below = base :: lower.below

/-- A journal lists every record. -/
def Journaled (stores : Array Store) (journal : List Account) : Prop :=
  ∀ store ∈ stores, ∀ (hash : Hash) (account : Account),
    store.records[hash]? = some account → account ∈ journal

theorem Layered.push {stores : Array Store} (h : Layered stores) {store : Store}
    (hstore : store.below = [] ∨
      ∃ base lower, stores[base]? = some lower ∧ store.below = base :: lower.below) :
    Layered (stores.push store) := by
  have hkeep : ∀ (base : StoreId) (lower : Store), stores[base]? = some lower →
      (stores.push store)[base]? = some lower := by
    intro base lower hlower
    obtain ⟨hlt, -⟩ := Array.getElem?_eq_some_iff.mp hlower
    rw [Array.getElem?_push_lt hlt, ← Array.getElem?_eq_getElem hlt, hlower]
  intro s hs
  have hbelow : s.below = [] ∨
      ∃ base lower, stores[base]? = some lower ∧ s.below = base :: lower.below := by
    rcases Array.mem_push.mp hs with hs | rfl
    · exact h s hs
    · exact hstore
  rcases hbelow with hnil | ⟨base, lower, hlower, hcons⟩
  · exact Or.inl hnil
  · exact Or.inr ⟨base, lower, hkeep base lower hlower, hcons⟩

theorem Journaled.push {stores : Array Store} {journal : List Account}
    (h : Journaled stores journal) (below : List StoreId) :
    Journaled (stores.push (empty below)) journal := by
  intro s hs hash account hrecord
  rcases Array.mem_push.mp hs with hs | rfl
  · exact h s hs hash account hrecord
  · simp [empty] at hrecord

/-- A store of an array with one store changed. -/
theorem mem_modify {stores : Array Store} {id : StoreId} {f : Store → Store} {s : Store}
    (hs : s ∈ stores.modify id f) : ∃ old ∈ stores, s = old ∨ s = f old := by
  obtain ⟨i, hi⟩ := Array.mem_iff_getElem?.mp hs
  rw [Array.getElem?_modify] at hi
  split at hi
  · obtain ⟨old, hold, rfl⟩ := Option.map_eq_some_iff.mp hi
    exact ⟨old, Array.mem_of_getElem? hold, Or.inr rfl⟩
  · exact ⟨s, Array.mem_of_getElem? hi, Or.inl rfl⟩

theorem Layered.insert {stores : Array Store} (h : Layered stores) (id : StoreId)
    (account : Account) : Layered (stores.modify id fun store => store.insert account) := by
  intro s hs
  obtain ⟨old, hold, hs⟩ := mem_modify hs
  have hbelow : s.below = old.below := by rcases hs with rfl | rfl <;> rfl
  rcases h old hold with hnil | ⟨base, lower, hlower, hcons⟩
  · exact Or.inl (by rw [hbelow, hnil])
  · right
    by_cases hbase : id = base
    · refine ⟨base, lower.insert account, ?_, by rw [hbelow, hcons]; rfl⟩
      rw [Array.getElem?_modify, if_pos hbase, hlower]; rfl
    · refine ⟨base, lower, ?_, by rw [hbelow, hcons]⟩
      rw [Array.getElem?_modify, if_neg hbase, hlower]

theorem Journaled.insert {stores : Array Store} {journal : List Account}
    (h : Journaled stores journal) (id : StoreId) (account : Account) :
    Journaled (stores.modify id fun store => store.insert account) (account :: journal) := by
  intro s hs hash other hrecord
  obtain ⟨old, hold, rfl | rfl⟩ := mem_modify hs
  · exact List.mem_cons_of_mem _ (h s hold hash other hrecord)
  · rw [Store.insert, Std.TreeMap.getElem?_insert] at hrecord
    split at hrecord
    · cases hrecord
      exact List.mem_cons_self
    · exact List.mem_cons_of_mem _ (h old hold hash other hrecord)

end Store

/-- All stores. -/
structure Archive where
  stores : Array Store
  /-- Every account that was given to a store, latest first. -/
  journal : List Account
  layered : Store.Layered stores
  journaled : Store.Journaled stores journal

/-- A computation that reads and writes stores.  What it wrote before a failure
stays written. -/
abbrev Archived (ε : Type) := EStateM ε Archive

namespace Archive

/-- The archive without any store. -/
def empty : Archive :=
  { stores := #[], journal := [], layered := by simp [Store.Layered]
    journaled := by simp [Store.Journaled] }

/-- No two different accounts in the journal have the same digest. -/
def Collisionless (a : Archive) : Prop :=
  ∀ x ∈ a.journal, ∀ y ∈ a.journal, Record.hash x = Record.hash y → x = y

instance (a : Archive) : Decidable a.Collisionless :=
  inferInstanceAs (Decidable (∀ x ∈ a.journal, ∀ y ∈ a.journal,
    Record.hash x = Record.hash y → x = y))

/-! ## Layers -/

/-- The layers below a store, nearest first. -/
def below (a : Archive) (id : StoreId) : List StoreId :=
  match a.stores[id]? with
  | some store => store.below
  | none => []

/-- A store and the layers below it; no layer if there is no such store. -/
def layers (a : Archive) (id : StoreId) : List StoreId :=
  match a.stores[id]? with
  | some store => id :: store.below
  | none => []

/-- The records written to one layer. -/
def records (a : Archive) (id : StoreId) : Std.TreeMap Hash Account :=
  match a.stores[id]? with
  | some store => store.records
  | none => ∅

/-- Whether a store is laid over another one. -/
def isOverlay (a : Archive) (id : StoreId) : Bool := !(a.below id).isEmpty

/-- The store at the bottom of the layers. -/
def bottom (a : Archive) (id : StoreId) : StoreId := (a.below id).getLastD id

/-! ## Reading -/

/-- The record that a store shows under a digest. -/
def get? (a : Archive) (id : StoreId) (hash : Hash) : Option Account :=
  (a.layers id).findSome? fun layer => (a.records layer)[hash]?

/-- Whether a store shows a record under a digest. -/
def contains (a : Archive) (id : StoreId) (hash : Hash) : Bool :=
  (a.layers id).any fun layer => (a.records layer).contains hash

/-- The number of records written to one layer. -/
def layerSize (a : Archive) (id : StoreId) : Nat := (a.records id).size

/-- The number of records in a store and below it, layer by layer. -/
def size (a : Archive) (id : StoreId) : Nat :=
  (a.layers id).foldl (fun n layer => n + a.layerSize layer) 0

/-! ## Writing -/

/-- Adds a store that stands alone. -/
def addStore (a : Archive) : StoreId × Archive :=
  (a.stores.size,
    { stores := a.stores.push (Store.empty [])
      journal := a.journal
      layered := a.layered.push (Or.inl rfl)
      journaled := a.journaled.push [] })

theorem layered_layers (a : Archive) (base : StoreId) :
    a.layers base = [] ∨
      ∃ id lower, a.stores[id]? = some lower ∧ a.layers base = id :: lower.below := by
  unfold layers
  cases hbase : a.stores[base]? with
  | none => exact Or.inl rfl
  | some lower => exact Or.inr ⟨base, lower, hbase, rfl⟩

/-- Adds a store that is laid over another one. -/
def addOverlay (a : Archive) (base : StoreId) : StoreId × Archive :=
  (a.stores.size,
    { stores := a.stores.push (Store.empty (a.layers base))
      journal := a.journal
      layered := a.layered.push (a.layered_layers base)
      journaled := a.journaled.push (a.layers base) })

/-- Adds a record to a store under its digest, unless the store shows one
there. -/
def insert (a : Archive) (id : StoreId) (account : Account) : Archive where
  stores :=
    if a.contains id (Record.hash account) then a.stores
    else a.stores.modify id fun store => store.insert account
  journal := account :: a.journal
  layered := by
    split
    · exact a.layered
    · exact a.layered.insert id account
  journaled := by
    split
    · intro s hs hash other h
      exact List.mem_cons_of_mem _ (a.journaled s hs hash other h)
    · exact a.journaled.insert id account

end Archive

end ScriptLedger
