import ScriptLedger.Proofs.World.Desk

/-!
# What a commit does

A commit goes through the leaves of a trie and copies their records to the bottom of
the layers that its store lies over.  What matters about a layer is what it holds under
each digest: one leaf adds the record that the snapshot reads there, if the bottom has
none, and all leaves together add just these records.  No other layer is written to.

The committed snapshot reads from the bottom alone what was read through all layers
before.  The bottom may have had a record under the same digest already; it is the same
record, unless two records that lie in these layers have one digest.

## Main results

* `World.records_of_copyAll` — what the bottom holds after the leaves have been gone
  through.
* `World.CommitsTo` — all that a commit does.
* `Desk.commits_of_mem` — every snapshot that was made on a desk commits so.
-/

namespace ScriptLedger

open Sequencing

variable {a a' : Archive} {id target : StoreId} {hash : Hash} {account : Account}
  {w w' : World} {leaves : List (Hash × Hash)} {u : PUnit}

namespace Archive

/-! ## Records in the layers of a store -/

/-- No two different records that lie in the layers of a store have one digest. -/
def Distinct (a : Archive) (id : StoreId) : Prop :=
  ∀ upper ∈ a.layers id, ∀ lower ∈ a.layers id, ∀ (hash : Hash) (x y : Account),
    (a.records upper)[hash]? = some x → (a.records lower)[hash]? = some y → x = y

/-- A store shows what it holds itself. -/
theorem get?_of_records (h : (a.records id)[hash]? = some account) :
    a.get? id hash = some account := by
  rw [get?_eq, h]
  rfl

theorem Collisionless.distinct (h : a.Collisionless) (id : StoreId) : a.Distinct id := by
  intro upper _ lower _ hash x y hx hy
  have hx := get?_of_records hx
  have hy := get?_of_records hy
  refine h x (mem_journal_of_get? hx) y (mem_journal_of_get? hy) ?_
  rw [hash_of_get? hx, hash_of_get? hy]

/-- A store that lies over no other one shows what it holds. -/
theorem get?_of_below_nil (h : a.below id = []) (hash : Hash) :
    a.get? id hash = (a.records id)[hash]? := by
  rw [get?_eq, h]
  simp

/-- The bottom is one of the layers. -/
theorem bottom_mem_layers (h : id < a.stores.size) : a.bottom id ∈ a.layers id := by
  rw [layers_of_lt h, bottom]
  exact List.getLastD_mem_cons

theorem bottom_of_bare (h : a.isOverlay id = false) : a.bottom id = id := by
  unfold isOverlay at h
  cases hbelow : a.below id with
  | nil =>
      rw [bottom, hbelow]
      rfl
  | cons base rest =>
      rw [hbelow] at h
      cases h

theorem GrowsTo.bottom_eq (h : a.GrowsTo a') (hid : id < a.stores.size) :
    a'.bottom id = a.bottom id := by
  rw [bottom, bottom, (h.stores id hid).2]

/-- What is read through the layers and what the bottom holds are one record. -/
theorem Distinct.eq_of_get? (h : a.Distinct id) {x y : Account}
    (hx : a.get? id hash = some x) (hy : (a.records (a.bottom id))[hash]? = some y) : x = y := by
  obtain ⟨layer, hlayer, hrecord⟩ := List.exists_of_findSome?_eq_some hx
  exact h layer hlayer _ (bottom_mem_layers (lt_size_of_get? hx)) hash x y hrecord hy

/-- A store keeps what it holds, and gets the record that it is given if it shows none. -/
theorem records_insert_self (hid : id < a.stores.size) (hbelow : a.below id = [])
    (account : Account) (hash : Hash) :
    ((a.insert id account).records id)[hash]? =
      ((a.records id)[hash]?).or (if hash = Record.hash account then some account else none) := by
  rw [getElem?_records_insert, contains_eq, get?_of_below_nil hbelow]
  by_cases hhash : hash = Record.hash account
  · subst hhash
    cases hheld : (a.records id)[Record.hash account]? with
    | none => simp [hid]
    | some held => simp
  · rw [if_neg hhash, if_neg fun h => hhash h.2.2.2.symm, Option.or_none]

end Archive

namespace World

/-! ## Copies -/

variable (htarget : target < a.stores.size) (hbelow : a.below target = [])

include htarget hbelow in
/-- A copy adds the record that the snapshot reads, unless the target holds one. -/
theorem records_of_copyRecord {address : Hash} {v : Unit} {digest : Hash}
    (h : w.copyRecord target address digest a = .ok v a') (hash : Hash) :
    (a'.records target)[hash]? =
      ((a.records target)[hash]?).or (if hash = digest then a.get? w.store hash else none) := by
  rcases copyRecord_eq_ok h with ⟨hcontains, rfl⟩ | ⟨account, hrecord, rfl⟩
  · by_cases hhash : hash = digest
    · subst hhash
      rw [Archive.contains_eq, Archive.get?_of_below_nil hbelow] at hcontains
      obtain ⟨held, hheld⟩ := Option.isSome_iff_exists.mp hcontains
      rw [hheld]
      rfl
    · rw [if_neg hhash, Option.or_none]
  · obtain rfl := Archive.hash_of_get? hrecord
    rw [Archive.records_insert_self htarget hbelow]
    by_cases hhash : hash = Record.hash account
    · rw [if_pos hhash, if_pos hhash, hhash, hrecord]
    · rw [if_neg hhash, if_neg hhash]

theorem confined_of_copyRecord {address : Hash} {v : Unit}
    (h : w.copyRecord target address hash a = .ok v a') : Archive.Confined target a a' := by
  rcases copyRecord_eq_ok h with ⟨-, rfl⟩ | ⟨account, -, rfl⟩
  · exact .refl target _
  · exact .insert target a account

theorem confined_of_copyAll (h : w.copyAll target leaves a = .ok u a') :
    Archive.Confined target a a' := by
  induction leaves generalizing a with
  | nil =>
      obtain ⟨-, rfl⟩ := pure_eq_ok.mp h
      exact .refl target a
  | cons leaf rest ih =>
      obtain ⟨_, mid, hcopy, hrest⟩ := bind_eq_ok.mp h
      exact (confined_of_copyRecord hcopy).trans (ih hrest)

include htarget hbelow in
/-- The target gets the records that the snapshot reads under the digests of the leaves,
and nothing else. -/
theorem records_of_copyAll (h : w.copyAll target leaves a = .ok u a')
    (hshown : ∀ hash ∈ leaves.map Prod.snd, ∃ account, a.get? w.store hash = some account)
    (hash : Hash) :
    (a'.records target)[hash]? = ((a.records target)[hash]?).or
      (if hash ∈ leaves.map Prod.snd then a.get? w.store hash else none) := by
  induction leaves generalizing a with
  | nil =>
      obtain ⟨-, rfl⟩ := pure_eq_ok.mp h
      simp
  | cons leaf rest ih =>
      obtain ⟨address, digest⟩ := leaf
      obtain ⟨_, mid, hcopy, hrest⟩ := bind_eq_ok.mp h
      have hgrows := growsTo_of_copyRecord hcopy
      obtain ⟨htarget', hbelow'⟩ := hgrows.stores target htarget
      -- What is still to be copied is read as before.
      have hsame : ∀ hash ∈ rest.map Prod.snd, mid.get? w.store hash = a.get? w.store hash := by
        intro hash hmem
        obtain ⟨account, hrecord⟩ := hshown hash (List.mem_cons_of_mem _ hmem)
        rw [hrecord, hgrows.shows hrecord]
      have hshown' : ∀ hash ∈ rest.map Prod.snd,
          ∃ account, mid.get? w.store hash = some account := fun hash hmem => by
        rw [hsame hash hmem]
        exact hshown hash (List.mem_cons_of_mem _ hmem)
      have hothers := ih htarget' (hbelow'.trans hbelow) hrest hshown'
      rw [hothers, records_of_copyRecord htarget hbelow hcopy, Option.or_assoc]
      refine congrArg _ ?_
      by_cases hmem : hash ∈ rest.map Prod.snd
      · have hmem' : hash ∈ ((address, digest) :: rest).map Prod.snd :=
          List.mem_cons_of_mem _ hmem
        rw [if_pos hmem, hsame hash hmem, if_pos hmem']
        split
        · exact Option.or_self
        · rfl
      · rw [if_neg hmem, Option.or_none]
        simp only [List.map_cons, List.mem_cons, hmem, or_false]

/-- Nothing is copied to a target that has all records. -/
theorem copyAll_of_contains
    (h : ∀ hash ∈ leaves.map Prod.snd, a.contains target hash = true) :
    w.copyAll target leaves a = .ok ⟨⟩ a := by
  induction leaves with
  | nil => rfl
  | cons leaf rest ih =>
      obtain ⟨address, hash⟩ := leaf
      refine bind_eq_ok.mpr ⟨(), a, bind_eq_ok.mpr ⟨a, a, rfl, ?_⟩, ih fun hash hmem => ?_⟩
      · rw [if_pos (h hash List.mem_cons_self)]
        rfl
      · exact h hash (List.mem_cons_of_mem _ hmem)

/-! ## Commits -/

/-- What a commit of a snapshot does. -/
structure CommitsTo (a : Archive) (w : World) (a' : Archive) (w' : World) : Prop where
  commit : w.commit a = .ok w' a'
  trie : w'.trie = w.trie
  store : w'.store = a.bottom w.store
  bare : a'.isOverlay w'.store = false
  answers : ∀ address, w'.account? a' address = w.account? a address
  /-- The bottom holds what it held, and what the leaves of the trie name. -/
  bottom : ∀ hash, (a'.records w'.store)[hash]? = ((a.records w'.store)[hash]?).or
    (if hash ∈ w.trie.leaves.map Prod.snd then a.get? w.store hash else none)
  /-- No other layer is written to, and no store is new. -/
  beside : Archive.Confined w'.store a a'
  /-- Neither the committed snapshot nor the one that it was made of has anything left to
  commit. -/
  again : w'.commit a' = .ok w' a' ∧ w.commit a' = .ok w' a'
  /-- There is nothing to do for a snapshot that is not over an overlay. -/
  idle : a.isOverlay w.store = false → w' = w ∧ a' = a

/-- A snapshot that lies at the bottom is committed as it is. -/
theorem commitsTo_of_bottom (h : a.bottom w.store = w.store) : w.CommitsTo a a w where
  commit := commit_of_bottom h
  trie := rfl
  store := h.symm
  bare := isOverlay_of_commit (commit_of_bottom h)
  answers _ := rfl
  bottom hash := by
    have hbelow := a.below_bottom w.store
    rw [h] at hbelow
    rw [Archive.get?_of_below_nil hbelow]
    split
    · rw [Option.or_self]
    · rw [Option.or_none]
  beside := .refl w.store a
  again := ⟨commit_of_bottom h, commit_of_bottom h⟩
  idle _ := ⟨rfl, rfl⟩

namespace Backed

theorem shown_of_mem (h : w.Backed a) :
    ∀ hash ∈ w.trie.leaves.map Prod.snd, ∃ account, a.get? w.store hash = some account := by
  intro hash hmem
  obtain ⟨⟨address, hash⟩, hleaf, rfl⟩ := List.mem_map.mp hmem
  exact h.shown address hash hleaf

variable (h : w.Backed a) (hdistinct : a.Distinct w.store) (hne : a.bottom w.store ≠ w.store)
  (hloop : w.copyAll (a.bottom w.store) w.trie.leaves a = .ok u a')

include h hdistinct hloop

/-- The bottom shows what the snapshot reads, once its leaves have been gone through. -/
theorem agrees_copyAll : w.Agrees a a' { w with store := a.bottom w.store } where
  trie := rfl
  shows address hash hmem := by
    have htarget := Archive.bottom_lt_size h.lt_size
    have hbelow := a.below_bottom w.store
    have hbelow' := ((growsTo_of_copyAll hloop).stores _ htarget).2.trans hbelow
    obtain ⟨account, hrecord⟩ := h.shown address hash hmem
    rw [Archive.get?_of_below_nil hbelow',
      records_of_copyAll htarget hbelow hloop h.shown_of_mem, if_pos (List.mem_map_of_mem hmem)]
    cases hheld : (a.records (a.bottom w.store))[hash]? with
    | none => rfl
    | some held => rw [hrecord, hdistinct.eq_of_get? hrecord hheld, Option.some_or]

include hne

theorem commitsTo_of_copyAll : w.CommitsTo a a' { w with store := a.bottom w.store } where
  commit := commit_of_copyAll hne hloop
  trie := rfl
  store := rfl
  bare := isOverlay_of_commit (commit_of_copyAll hne hloop)
  answers := (agrees_copyAll h hdistinct hloop).account?_eq
  bottom := records_of_copyAll (Archive.bottom_lt_size h.lt_size) (a.below_bottom w.store) hloop
    h.shown_of_mem
  beside := confined_of_copyAll hloop
  again := by
    have hgrows := growsTo_of_copyAll hloop
    have htarget := Archive.bottom_lt_size h.lt_size
    have hbottom := hgrows.bottom_eq h.lt_size
    constructor
    · refine commit_of_bottom ?_
      rw [hgrows.bottom_eq htarget, Archive.bottom, a.below_bottom]
      rfl
    · rw [← hbottom]
      refine commit_of_copyAll (hbottom ▸ hne) (copyAll_of_contains fun hash hmem => ?_)
      obtain ⟨⟨address, hash⟩, hleaf, rfl⟩ := List.mem_map.mp hmem
      obtain ⟨account, hrecord⟩ := shown_of_copyAll hloop htarget address hash hleaf
      rw [Archive.contains_eq, hbottom, hrecord]
      rfl
  idle hbare := absurd (Archive.bottom_of_bare hbare) hne

omit hne hloop

/-- A backed snapshot can be committed, and the commit does what it should. -/
theorem commitsTo : ∃ w' a', w.CommitsTo a a' w' := by
  by_cases hidle : a.bottom w.store = w.store
  · exact ⟨w, a, commitsTo_of_bottom hidle⟩
  · obtain ⟨u, a', hloop, -⟩ := copyAll_of_get? (J := Set.univ) (a.bottom w.store)
      (fun _ _ => Set.mem_univ _) h.shown
    exact ⟨_, a', commitsTo_of_copyAll h hdistinct hidle hloop⟩

end Backed

end World

namespace Desk

variable {acts : List Act}

/-- Every snapshot that was made on a desk can be committed, and the commit loses nothing
and keeps nothing else, if no two records in the layers of its store have one digest. -/
theorem commits_of_mem (h : w ∈ (empty.run acts).worlds)
    (hdistinct : (empty.run acts).archive.Distinct w.store) :
    ∃ w' a', w.CommitsTo (empty.run acts).archive a' w' :=
  (backed_of_mem h).1.commitsTo hdistinct

/-- The factory is copied from the overlay to the store below it. -/
theorem commits_of_mem_founding : ∃ w' a',
    (⟨Genesis.trie, 1⟩ : World) ∈ (empty.run founding).worlds ∧
    (empty.run founding).archive.Distinct 1 ∧ w'.store = 0 ∧
    World.CommitsTo (empty.run founding).archive ⟨Genesis.trie, 1⟩ a' w' := by
  obtain ⟨a, halone, hbelow, hrun⟩ := run_founding
  have hmem : (⟨Genesis.trie, 1⟩ : World) ∈ (empty.run founding).worlds := by
    rw [hrun]
    simp
  have hdistinct : (empty.run founding).archive.Distinct 1 := by
    rw [hrun]
    exact (halone.within.collisionless Genesis.injOn_account).distinct 1
  obtain ⟨w', a', hcommits⟩ := commits_of_mem hmem hdistinct
  refine ⟨w', a', hmem, hdistinct, ?_, hcommits⟩
  rw [hcommits.store, hrun, Archive.bottom, hbelow]
  rfl

end Desk

end ScriptLedger
