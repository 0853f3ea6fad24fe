import ScriptLedger.Proofs.Trie.Commitment
import ScriptLedger.Proofs.World.Relocation

/-!
# Writing to one store

A snapshot writes to its own store and to no other one.  What is built on a fork is
therefore written to the overlay of that fork, and when it is thrown away, every store
that was there before is just as it was.

Two things are said of the snapshots themselves, and neither depends on digests being
different.  A snapshot is backed when its store shows some record under every digest
that its trie names; this is all that a commit asks for.  And tries stay as updates form
them.

## Main results

* `Archive.Untouched.get?_eq` — a store that has not been written to shows what it showed.
* `World.follows_of_put` — what a put does to stores and snapshot.
* `World.Backed.exists_commit` — a backed snapshot can be committed.
-/

namespace ScriptLedger

open Sequencing

variable {a a' b c : Archive} {s id : StoreId} {hash : Hash} {w w' w'' : World}

namespace Archive

/-! ## Which stores are written to -/

/-- Only one layer has been written to, and no store is new. -/
structure Confined (s : StoreId) (a b : Archive) : Prop extends GrowsTo a b where
  size : b.stores.size = a.stores.size
  records : ∀ id, id ≠ s → b.records id = a.records id

/-- None of the stores that were there has been written to. -/
structure Untouched (a b : Archive) : Prop extends GrowsTo a b where
  records : ∀ id < a.stores.size, b.records id = a.records id

namespace Confined

theorem refl (s : StoreId) (a : Archive) : Confined s a a := ⟨.refl a, rfl, fun _ _ => rfl⟩

theorem trans (hab : Confined s a b) (hbc : Confined s b c) : Confined s a c where
  toGrowsTo := hab.toGrowsTo.trans hbc.toGrowsTo
  size := hbc.size.trans hab.size
  records id hid := (hbc.records id hid).trans (hab.records id hid)

theorem insert (s : StoreId) (a : Archive) (account : Account) :
    Confined s a (a.insert s account) where
  toGrowsTo := growsTo_insert a s account
  size := size_insert a s account
  records id hid := by
    unfold Archive.records Archive.insert
    by_cases hshown : a.contains s (Record.hash account) = true
    · simp only [if_pos hshown]
    · simp only [if_neg hshown, Array.getElem?_modify, if_neg (Ne.symm hid)]

end Confined

namespace Untouched

theorem refl (a : Archive) : a.Untouched a := ⟨.refl a, fun _ _ => rfl⟩

theorem trans (hab : a.Untouched b) (hbc : b.Untouched c) : a.Untouched c where
  toGrowsTo := hab.toGrowsTo.trans hbc.toGrowsTo
  records id hid := (hbc.records id (hab.stores id hid).1).trans (hab.records id hid)

/-- What is written to a new store does not touch an old one. -/
theorem confined (hab : a.Untouched b) (hbc : Confined s b c) (hs : a.stores.size ≤ s) :
    a.Untouched c where
  toGrowsTo := hab.toGrowsTo.trans hbc.toGrowsTo
  records id hid :=
    (hbc.records id (Nat.ne_of_lt (Nat.lt_of_lt_of_le hid hs))).trans (hab.records id hid)

theorem addStore (a : Archive) : a.Untouched a.addStore.2 where
  toGrowsTo := growsTo_addStore a
  records _ _ := records_push rfl rfl _

theorem addOverlay (a : Archive) (base : StoreId) : a.Untouched (a.addOverlay base).2 where
  toGrowsTo := growsTo_addOverlay a base
  records _ _ := records_push rfl rfl _

end Untouched

/-! ## What the other stores show -/

/-- Every layer of a store is a store. -/
theorem lt_size_of_mem_layers {layer : StoreId} (h : layer ∈ a.layers id) :
    layer < a.stores.size := by
  induction id using a.layers_induction with
  | _ id ih =>
      by_cases hid : id < a.stores.size
      · rw [layers_of_lt hid] at h
        rcases List.mem_cons.mp h with rfl | hbelow
        · exact hid
        · rcases a.below_cases id with hnil | ⟨base, hbase, hlayers⟩
          · rw [hnil] at hbelow
            exact absurd hbelow List.not_mem_nil
          · rw [hlayers] at hbelow
            exact ih base hbase hlayers hbelow
      · simp [layers, Array.getElem?_eq_none (Nat.le_of_not_lt hid)] at h

theorem GrowsTo.size_le (h : a.GrowsTo b) : a.stores.size ≤ b.stores.size := by
  by_contra hlt
  have hself := (h.stores b.stores.size (Nat.lt_of_not_le hlt)).1
  omega

theorem GrowsTo.layers_eq (h : a.GrowsTo b) (hid : id < a.stores.size) :
    b.layers id = a.layers id := by
  obtain ⟨hlt, hbelow⟩ := h.stores id hid
  rw [layers_of_lt hlt, layers_of_lt hid, hbelow]

/-- A store that was there, and the layers below it, show what they showed. -/
theorem Untouched.get?_eq (h : a.Untouched b) (hid : id < a.stores.size) (hash : Hash) :
    b.get? id hash = a.get? id hash := by
  unfold get?
  rw [h.layers_eq hid, ← List.head?_filterMap, ← List.head?_filterMap]
  refine congrArg List.head? (List.filterMap_congr fun layer hlayer => ?_)
  rw [h.records layer (lt_size_of_mem_layers hlayer)]

/-! ## The bottom -/

/-- The store at the bottom of the layers stands alone. -/
theorem below_bottom (a : Archive) (id : StoreId) : a.below (a.bottom id) = [] := by
  induction id using a.layers_induction with
  | _ id ih =>
      unfold bottom
      rcases a.below_cases id with hnil | ⟨base, hbase, hlayers⟩
      · rw [hnil]
        exact hnil
      · rw [hlayers, layers_of_lt hbase, List.getLastD_cons]
        exact ih base hbase hlayers

theorem isOverlay_bottom (a : Archive) (id : StoreId) : a.isOverlay (a.bottom id) = false := by
  rw [isOverlay, below_bottom]
  rfl

theorem GrowsTo.isOverlay_eq (h : a.GrowsTo b) (hid : id < a.stores.size) :
    b.isOverlay id = a.isOverlay id := by
  rw [isOverlay, isOverlay, (h.stores id hid).2]

end Archive

namespace World

/-! ## Backed snapshots -/

/-- The store is there, and shows a record under every digest that the trie names. -/
structure Backed (a : Archive) (w : World) : Prop where
  lt_size : w.store < a.stores.size
  shown : ∀ address hash, (address, hash) ∈ w.trie.leaves →
    ∃ account, a.get? w.store hash = some account

theorem Stored.backed (h : w.Stored a) : w.Backed a where
  lt_size := h.lt_size
  shown address hash hmem := by
    obtain ⟨account, hrecord, -⟩ := h.wellFormed.recorded address hash hmem
    exact ⟨account, hrecord⟩

namespace Backed

theorem growsTo (h : w.Backed a) (hgrows : a.GrowsTo a') : w.Backed a' where
  lt_size := (hgrows.stores w.store h.lt_size).1
  shown address hash hmem := by
    obtain ⟨account, hrecord⟩ := h.shown address hash hmem
    exact ⟨account, hgrows.shows hrecord⟩

theorem put {account : Account} (h : w.Backed a) (hput : w.put account a = .ok w' a') :
    w'.Backed a' := by
  have hbacked := h.growsTo (growsTo_of_put hput)
  obtain ⟨rfl, trie, hadd, rfl⟩ := put_eq_ok_iff.mp hput
  refine ⟨hbacked.lt_size, fun address hash hmem => ?_⟩
  obtain ⟨before, entry, after, hold, hnew, -⟩ := Trie.leaves_put hadd
  rw [hnew, List.mem_append, List.mem_cons] at hmem
  rcases hmem with hmem | hmem | hmem
  · exact hbacked.shown address hash (by rw [hold]; simp [hmem])
  · cases hmem
    exact Archive.exists_get?_insert h.lt_size
  · exact hbacked.shown address hash (by rw [hold]; simp [hmem])

theorem fork {ε : Type} (h : w.Backed a) (hfork : (w.fork : Archived ε World) a = .ok w' a') :
    w'.Backed a' := by
  obtain ⟨rfl, rfl⟩ := fork_eq_ok hfork
  refine ⟨?_, fun address hash hmem => ?_⟩
  · show a.stores.size < (a.stores.push _).size
    simp
  · obtain ⟨account, hrecord⟩ := h.shown address hash hmem
    exact ⟨account, by rw [Archive.get?_addOverlay, hrecord]⟩

/-- A backed snapshot can be committed, and is backed by the store at the bottom then. -/
theorem exists_commit (h : w.Backed a) : ∃ w' a', w.commit a = .ok w' a' ∧ w'.Backed a' := by
  by_cases htarget : a.bottom w.store = w.store
  · exact ⟨w, a, commit_of_bottom htarget, h⟩
  · have hbottom := Archive.bottom_lt_size h.lt_size
    obtain ⟨u, a', hloop, -⟩ := copyAll_of_get? (J := Set.univ) (a.bottom w.store)
      (fun _ _ => Set.mem_univ _) h.shown
    have hgrows := growsTo_of_copyAll hloop
    exact ⟨_, a', commit_of_copyAll htarget hloop,
      ⟨(hgrows.stores _ hbottom).1, shown_of_copyAll hloop hbottom⟩⟩

end Backed

/-- What is committed lies over no other store. -/
theorem isOverlay_of_commit (h : w.commit a = .ok w' a') : a'.isOverlay w'.store = false := by
  rcases commit_eq_ok h with ⟨hbottom, rfl, rfl⟩ | ⟨hne, rfl, u, hloop⟩
  · rw [← hbottom]
    exact Archive.isOverlay_bottom _ w'.store
  · have hstore : w.store < a.stores.size := by
      by_contra hlt
      refine hne ?_
      rw [Archive.bottom, Archive.below, Array.getElem?_eq_none (Nat.le_of_not_lt hlt)]
      rfl
    show Archive.isOverlay _ (a.bottom w.store) = false
    rw [(growsTo_of_copyAll hloop).isOverlay_eq (Archive.bottom_lt_size hstore)]
    exact a.isOverlay_bottom w.store

/-- Whether it succeeds or not, a commit keeps what records for the bottom keep. -/
theorem yields_commit_of {R : Archive → Prop} (h : R a)
    (hinsert : ∀ mid account, R mid → R (mid.insert (a.bottom w.store) account)) :
    Yields a w.commit (fun _ => R) R := by
  have hcopy : ∀ (leaf : Hash × Hash) (mid : Archive), R mid →
      Yields mid (w.copyRecord (a.bottom w.store) leaf.1 leaf.2) (fun _ => R) R := by
    intro leaf mid hmid
    refine .get_bind ?_
    by_cases hcontains : mid.contains (a.bottom w.store) leaf.2 = true
    · rw [if_pos hcontains]
      exact .pure hmid
    · rw [if_neg hcontains]
      unfold recordOf
      cases mid.get? w.store leaf.2 with
      | none => exact .throw hmid
      | some account => exact .modify (hinsert mid account hmid)
  have hloop : ∀ (leaves : List (Hash × Hash)) (mid : Archive), R mid →
      Yields mid (w.copyAll (a.bottom w.store) leaves) (fun _ => R) R := by
    intro leaves
    induction leaves with
    | nil => exact fun mid hmid => .pure hmid
    | cons leaf rest ih =>
        exact fun mid hmid => (hcopy leaf mid hmid).bind fun _ mid' => ih mid'
  refine .get_bind ?_
  by_cases htarget : a.bottom w.store = w.store
  · rw [if_pos htarget]
    exact .pure h
  · rw [if_neg htarget]
    exact (hloop w.trie.leaves a h).bind fun _ _ hend => .pure hend

/-- Whether it succeeds or not, a commit loses nothing from the stores. -/
theorem yields_commit : Yields a w.commit (fun _ => a.GrowsTo) a.GrowsTo :=
  yields_commit_of (.refl a) fun mid account hmid => hmid.trans (mid.growsTo_insert _ account)

/-! ## What a snapshot comes to -/

/-- The second snapshot was made of the first one, and only the store that they share
has been written to. -/
structure Follows (a : Archive) (w : World) (a' : Archive) (w' : World) : Prop where
  confined : Archive.Confined w.store a a'
  store : w'.store = w.store
  backed : w.Backed a → w'.Backed a'
  formed : w.trie.Formed → w'.trie.Formed

theorem follows_of_confined (h : Archive.Confined w.store a a') : w.Follows a a' w where
  confined := h
  store := rfl
  backed hw := hw.growsTo h.toGrowsTo
  formed hw := hw

namespace Follows

theorem refl (a : Archive) (w : World) : w.Follows a a w := follows_of_confined (.refl _ a)

/-- What fails after a snapshot was made writes to the same store. -/
theorem fail {a'' : Archive} (h : w.Follows a a' w')
    (h' : Archive.Confined w'.store a' a'') : Archive.Confined w.store a a'' := by
  rw [h.store] at h'
  exact h.confined.trans h'

theorem trans {a'' : Archive} (h : w.Follows a a' w') (h' : w'.Follows a' a'' w'') :
    w.Follows a a'' w'' where
  confined := h.fail h'.confined
  store := h'.store.trans h.store
  backed hw := h'.backed (h.backed hw)
  formed hw := h'.formed (h.formed hw)

end Follows

theorem follows_of_put {account : Account} (h : w.put account a = .ok w' a') :
    w.Follows a a' w' where
  confined := by
    obtain ⟨rfl, -⟩ := put_eq_ok_iff.mp h
    exact .insert w.store a account
  store := store_of_put h
  backed hw := hw.put h
  formed hw := by
    obtain ⟨-, trie, hadd, rfl⟩ := put_eq_ok_iff.mp h
    exact Trie.formed_put hadd hw

theorem confined_of_put_error {account : Account} {cause : StateError}
    (h : w.put account a = .error cause a') : Archive.Confined w.store a a' := by
  rw [put_eq] at h
  cases hadd : w.trie.put account.address (Record.hash account) with
  | ok trie => rw [hadd] at h; cases h
  | error cause =>
      rw [hadd] at h
      cases h
      exact .insert w.store a account

end World

end ScriptLedger
