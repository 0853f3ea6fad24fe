import ScriptLedger.World.Archive

/-!
# Stores only grow

Whatever is done to the stores, what one of them shows under a digest it shows
for ever, and the journal never loses an entry.  `Archive.GrowsTo` says so of
two archives; it is reflexive and transitive, and each of the three operations
makes an archive that the old one grows to.

The delicate case is a record that goes into a layer below the store that is
read.  It could hide an older one only if the layer itself did not show it, and
what is below a layer is part of what the layer shows (`Archive.get?_eq`).

## Main results

* `Archive.growsTo_insert`, `Archive.growsTo_addStore`,
  `Archive.growsTo_addOverlay` — no operation loses anything.
* `Archive.get?_insert_self` — a record that was given to a store can be read
  from it, unless another one with its digest was given to a store too.
* `Archive.Admits.get?_insert` — so it is if the store shows no other one under its digest.
* `Archive.get?_addOverlay` — a new overlay shows what is below it.
-/

namespace ScriptLedger.Archive

variable {a b c : Archive} {id : StoreId} {hash : Hash} {account : Account}

/-! ## What a store shows -/

/-- The layers below a store are none, or those of a store that is there. -/
theorem below_cases (a : Archive) (id : StoreId) :
    a.below id = [] ∨ ∃ base, base < a.stores.size ∧ a.below id = a.layers base := by
  unfold below
  cases hid : a.stores[id]? with
  | none => exact Or.inl rfl
  | some store =>
      rcases a.layered store (Array.mem_of_getElem? hid) with hnil | ⟨base, lower, hbase, hcons⟩
      · exact Or.inl hnil
      · refine Or.inr ⟨base, (Array.getElem?_eq_some_iff.mp hbase).1, ?_⟩
        simp only [layers, hbase, hcons]

theorem layers_of_lt (h : id < a.stores.size) : a.layers id = id :: a.below id := by
  have hid : a.stores[id]? = some a.stores[id] := Array.getElem?_eq_getElem h
  simp only [layers, below, hid]

/-- A store shows what it holds itself, and else what is below it. -/
theorem get?_eq (a : Archive) (id : StoreId) (hash : Hash) :
    a.get? id hash =
      ((a.records id)[hash]?).or
        ((a.below id).findSome? fun layer => (a.records layer)[hash]?) := by
  unfold get?
  by_cases hid : id < a.stores.size
  · rw [layers_of_lt hid, List.findSome?_cons]
    cases (a.records id)[hash]? <;> rfl
  · have hnone : a.stores[id]? = none := Array.getElem?_eq_none (Nat.le_of_not_lt hid)
    simp [layers, below, records, hnone]

theorem contains_eq (a : Archive) (id : StoreId) (hash : Hash) :
    a.contains id hash = (a.get? id hash).isSome := by
  rw [contains, get?, List.isSome_findSome?]
  simp

/-- A shown record lies in one of the stores. -/
private theorem exists_store_of_get? (h : a.get? id hash = some account) :
    ∃ store ∈ a.stores, store.records[hash]? = some account := by
  obtain ⟨layer, -, hlayer⟩ := List.exists_of_findSome?_eq_some h
  unfold records at hlayer
  cases hstore : a.stores[layer]? with
  | none => rw [hstore] at hlayer; simp at hlayer
  | some store =>
      rw [hstore] at hlayer
      exact ⟨store, Array.mem_of_getElem? hstore, hlayer⟩

/-- A record is shown under its own digest. -/
theorem hash_of_get? (h : a.get? id hash = some account) : Record.hash account = hash := by
  obtain ⟨store, -, hrecord⟩ := exists_store_of_get? h
  exact store.keyed hash account hrecord

/-- A record that is shown was given to a store. -/
theorem mem_journal_of_get? (h : a.get? id hash = some account) : account ∈ a.journal := by
  obtain ⟨store, hstore, hrecord⟩ := exists_store_of_get? h
  exact a.journaled store hstore hash account hrecord

theorem lt_size_of_get? (h : a.get? id hash = some account) : id < a.stores.size := by
  by_cases hid : id < a.stores.size
  · exact hid
  · have hnone : a.stores[id]? = none := Array.getElem?_eq_none (Nat.le_of_not_lt hid)
    simp [get?, layers, hnone] at h

/-- What holds of a store once it holds of the store right below it holds of
every store. -/
theorem layers_induction {motive : StoreId → Prop} (a : Archive)
    (step : ∀ id, (∀ base, base < a.stores.size → a.below id = a.layers base → motive base) →
      motive id) (id : StoreId) : motive id := by
  generalize hn : (a.below id).length = n
  induction n using Nat.strongRecOn generalizing id with
  | _ n ih =>
      refine step id fun base hbase hlayers => ih (a.below base).length ?_ base rfl
      rw [← hn, hlayers, layers_of_lt hbase, List.length_cons]
      exact Nat.lt_succ_self _

theorem bottom_lt_size (h : id < a.stores.size) : a.bottom id < a.stores.size := by
  induction id using a.layers_induction with
  | _ id ih =>
      unfold bottom
      rcases a.below_cases id with hnil | ⟨base, hbase, hlayers⟩
      · rw [hnil]
        exact h
      · rw [hlayers, layers_of_lt hbase, List.getLastD_cons]
        exact ih base hbase hlayers hbase

/-! ## Growing -/

/-- Everything of one archive is in another one: its stores under the same
names and over the same layers, what they show, and its journal. -/
structure GrowsTo (a b : Archive) : Prop where
  stores : ∀ id < a.stores.size, id < b.stores.size ∧ b.below id = a.below id
  shows : ∀ {id hash account}, a.get? id hash = some account → b.get? id hash = some account
  journal : ∀ account ∈ a.journal, account ∈ b.journal

theorem GrowsTo.refl (a : Archive) : a.GrowsTo a :=
  ⟨fun _ h => ⟨h, rfl⟩, fun h => h, fun _ h => h⟩

theorem GrowsTo.trans (hab : a.GrowsTo b) (hbc : b.GrowsTo c) : a.GrowsTo c where
  stores id h := by
    obtain ⟨hb, hbelow⟩ := hab.stores id h
    obtain ⟨hc, hbelow'⟩ := hbc.stores id hb
    exact ⟨hc, hbelow'.trans hbelow⟩
  shows h := hbc.shows (hab.shows h)
  journal account h := hbc.journal account (hab.journal account h)

/-- What grows into an archive without collisions has none. -/
theorem GrowsTo.collisionless (h : a.GrowsTo b) (hb : b.Collisionless) : a.Collisionless :=
  fun x hx y hy heq => hb x (h.journal x hx) y (h.journal y hy) heq

/-! ## Adding stores -/

theorem records_push {stores : Array Store} (h : b.stores = stores.push (Store.empty l))
    (ha : a.stores = stores) (id : StoreId) : b.records id = a.records id := by
  unfold records
  rw [h, ha, Array.getElem?_push]
  by_cases hid : id = stores.size
  · rw [if_pos hid, hid, Array.getElem?_eq_none (Nat.le_refl _)]
    rfl
  · rw [if_neg hid]

/-- One more store without records changes nothing about the others. -/
private theorem growsTo_push {l : List StoreId}
    (hstores : b.stores = a.stores.push (Store.empty l)) (hjournal : b.journal = a.journal) :
    a.GrowsTo b := by
  have hget : ∀ id < a.stores.size, b.stores[id]? = a.stores[id]? := by
    intro id hid
    rw [hstores, Array.getElem?_push_lt hid, Array.getElem?_eq_getElem hid]
  refine ⟨?_, ?_, ?_⟩
  · intro id hid
    refine ⟨?_, by simp only [below, hget id hid]⟩
    rw [hstores, Array.size_push]
    exact Nat.lt_succ_of_lt hid
  · intro id hash account h
    have hlayers : b.layers id = a.layers id := by
      simp only [layers, hget id (lt_size_of_get? h)]
    rw [← h, get?, get?, hlayers]
    simp only [records_push hstores rfl]
  · intro account h
    rw [hjournal]; exact h

theorem growsTo_addStore (a : Archive) : a.GrowsTo a.addStore.2 := growsTo_push rfl rfl

theorem growsTo_addOverlay (a : Archive) (base : StoreId) : a.GrowsTo (a.addOverlay base).2 :=
  growsTo_push rfl rfl

/-- A new overlay shows what is below it. -/
theorem get?_addOverlay (a : Archive) (base : StoreId) (hash : Hash) :
    (a.addOverlay base).2.get? (a.addOverlay base).1 hash = a.get? base hash := by
  have hrecords : ∀ id, (a.addOverlay base).2.records id = a.records id := records_push rfl rfl
  have hbelow : (a.addOverlay base).2.below (a.addOverlay base).1 = a.layers base := by
    have hnew : (a.addOverlay base).2.stores[a.stores.size]? = some (Store.empty (a.layers base)) :=
      Array.getElem?_push_size
    show (a.addOverlay base).2.below a.stores.size = _
    rw [below, hnew]
    rfl
  have hnone : a.records (a.addOverlay base).1 = ∅ := by
    show a.records a.stores.size = _
    rw [records, Array.getElem?_eq_none (Nat.le_refl _)]
  rw [get?_eq, hbelow]
  simp only [hrecords]
  rw [hnone]
  simp [get?]

/-! ## Adding a record -/

theorem size_insert (a : Archive) (id : StoreId) (account : Account) :
    (a.insert id account).stores.size = a.stores.size := by
  by_cases hshown : a.contains id (Record.hash account) = true
  · simp only [insert, if_pos hshown]
  · simp only [insert, if_neg hshown, Array.size_modify]

theorem below_insert (a : Archive) (id : StoreId) (account : Account) (layer : StoreId) :
    (a.insert id account).below layer = a.below layer := by
  unfold below insert
  by_cases hshown : a.contains id (Record.hash account) = true
  · simp only [if_pos hshown]
  · simp only [if_neg hshown, Array.getElem?_modify]
    by_cases hid : id = layer
    · rw [if_pos hid]
      cases a.stores[layer]? <;> rfl
    · rw [if_neg hid]

/-- A layer keeps its records, and the one that is written may get one more. -/
theorem getElem?_records_insert (a : Archive) (id : StoreId) (account : Account)
    (layer : StoreId) (hash : Hash) :
    ((a.insert id account).records layer)[hash]? =
      if a.contains id (Record.hash account) = false ∧ id = layer ∧ layer < a.stores.size ∧
          Record.hash account = hash
      then some account else (a.records layer)[hash]? := by
  unfold records insert
  by_cases hshown : a.contains id (Record.hash account) = true
  · simp [hshown]
  · simp only [if_neg hshown, Array.getElem?_modify]
    by_cases hid : id = layer
    · subst hid
      by_cases hlt : id < a.stores.size
      · rw [Array.getElem?_eq_getElem hlt]
        simp [Store.insert, Std.TreeMap.getElem?_insert, hshown, hlt]
      · simp [hlt]
    · simp [hid]

/-- A record given to a store hides nothing that any store shows. -/
private theorem get?_insert_of_some (target : StoreId) (given : Account) (id : StoreId)
    (h : a.get? id hash = some account) : (a.insert target given).get? id hash = some account := by
  induction id using a.layers_induction with
  | _ id ih =>
      -- The layer that is written does not get a record that it shows already.
      have hown : ((a.insert target given).records id)[hash]? = (a.records id)[hash]? := by
        rw [getElem?_records_insert, if_neg]
        rintro ⟨hcontains, rfl, -, rfl⟩
        rw [contains_eq, h] at hcontains
        cases hcontains
      rw [get?_eq] at h
      rw [get?_eq, hown, below_insert]
      cases hrecord : (a.records id)[hash]? with
      | some own =>
          rw [hrecord] at h
          exact h
      | none =>
          rw [hrecord, Option.none_or] at h
          rw [Option.none_or]
          rcases a.below_cases id with hnil | ⟨base, hbase, hlayers⟩
          · rw [hnil] at h
            cases h
          · have hkeep := ih base hbase hlayers (by rw [get?, ← hlayers]; exact h)
            have hlayers' : (a.insert target given).layers base = a.layers base := by
              rw [layers_of_lt (by rw [size_insert]; exact hbase), layers_of_lt hbase,
                below_insert]
            rw [get?, hlayers', ← hlayers] at hkeep
            exact hkeep

theorem growsTo_insert (a : Archive) (id : StoreId) (account : Account) :
    a.GrowsTo (a.insert id account) where
  stores layer h := by
    refine ⟨?_, below_insert a id account layer⟩
    rw [size_insert]
    exact h
  shows h := get?_insert_of_some id account _ h
  journal other h := List.mem_cons_of_mem _ h

/-- A record is written to a store that shows none under its digest. -/
private theorem get?_insert_of_none (hid : id < a.stores.size)
    (hnone : a.get? id (Record.hash account) = none) :
    (a.insert id account).get? id (Record.hash account) = some account := by
  have hcontains : a.contains id (Record.hash account) = false := by
    rw [contains_eq, hnone]; rfl
  rw [get?_eq, getElem?_records_insert, if_pos ⟨hcontains, rfl, hid, rfl⟩]
  rfl

/-- A store that was given a record shows it, or another one with its digest. -/
theorem exists_get?_insert (hid : id < a.stores.size) :
    ∃ shown, (a.insert id account).get? id (Record.hash account) = some shown := by
  cases hshown : a.get? id (Record.hash account) with
  | none => exact ⟨account, get?_insert_of_none hid hshown⟩
  | some shown => exact ⟨shown, (growsTo_insert a id account).shows hshown⟩

/-- A record that was given to a store can be read from it. -/
theorem get?_insert_self (hid : id < a.stores.size)
    (hcol : (a.insert id account).Collisionless) :
    (a.insert id account).get? id (Record.hash account) = some account := by
  obtain ⟨shown, hshown⟩ := exists_get?_insert hid
  rw [hshown, hcol shown (mem_journal_of_get? hshown) account List.mem_cons_self
    (hash_of_get? hshown)]

/-- A store shows no other record under the digest of an account, and that is not the digest of
nothing. -/
structure Admits (a : Archive) (id : StoreId) (account : Account) : Prop where
  nonzero : Record.hash account ≠ Blob.zero
  alone : ∀ other, a.get? id (Record.hash account) = some other → other = account

/-- What such a store is given it shows. -/
theorem Admits.get?_insert (h : a.Admits id account) (hid : id < a.stores.size) :
    (a.insert id account).get? id (Record.hash account) = some account := by
  cases hshown : a.get? id (Record.hash account) with
  | none => exact get?_insert_of_none hid hshown
  | some other =>
      obtain rfl := h.alone other hshown
      exact (growsTo_insert a id _).shows hshown

end ScriptLedger.Archive
