import Mathlib.Data.Set.Card
import ScriptLedger.Proofs.World.Commit

/-!
# Sizes of stores

The size of a store is counted layer by layer.  It is the number of digests that the store
shows as long as no record lies in two of its layers, and a record is written to an overlay
only if the overlay does not show it yet.

That check is made when the record is written and never again.  The layers below may get
the same record later: it is given to them directly, or put or committed through another
snapshot, or it is this overlay that is committed.  The overlay keeps its own copy then,
and the record counts twice from there on.

There is no other way for a record to lie twice.  An act writes to a single layer, and what
is new in that layer does not lie below it (`Archive.AddsTo`), so a record comes to lie
twice only in a layer that had it before the layers below did.  The size of a store is too
large by the number of such records.

## Main results

* `Archive.size_eq` — the size of a store is the number of digests that it shows and, for
  each layer, the number of those that lie below it as well.
* `Archive.AddsTo.mem_doubled_iff` — what one act changes about records that lie twice.
* `Desk.mem_doubled_run_iff`, `Desk.sizes_of_run` — what lies twice after any acts, and how
  it is counted.
* `World.doubled_of_commit` — what is committed stays in the overlay.
-/

namespace ScriptLedger

open Sequencing

variable {a a' b : Archive} {id base layer : StoreId} {hash : Hash}

namespace Archive

/-! ## What lies in a layer and what lies below it -/

/-- The digests of the records that were written to one layer. -/
def written (a : Archive) (id : StoreId) : Set Hash :=
  {hash | (a.records id).contains hash = true}

/-- The digests under which a store shows a record. -/
def shown (a : Archive) (id : StoreId) : Set Hash := {hash | a.contains id hash = true}

/-- The store that another one is laid over; none for a store that stands alone. -/
def base? (a : Archive) (id : StoreId) : Option StoreId := (a.below id).head?

/-- The digests under which the store below shows a record. -/
def beneath (a : Archive) (id : StoreId) : Set Hash :=
  {hash | ∃ base, a.base? id = some base ∧ hash ∈ a.shown base}

/-- The digests of the records that lie in a layer and below it as well. -/
def doubled (a : Archive) (id : StoreId) : Set Hash := a.written id ∩ a.beneath id

theorem mem_written_iff :
    hash ∈ a.written id ↔ ∃ account, (a.records id)[hash]? = some account := by
  show (a.records id).contains hash = true ↔ _
  rw [Std.TreeMap.contains_eq_isSome_getElem?, Option.isSome_iff_exists]

theorem mem_shown_iff : hash ∈ a.shown id ↔ ∃ layer ∈ a.layers id, hash ∈ a.written layer :=
  List.any_eq_true

theorem mem_shown_iff_get? : hash ∈ a.shown id ↔ ∃ account, a.get? id hash = some account := by
  rw [shown, Set.mem_ofPred_eq, contains_eq, Option.isSome_iff_exists]

theorem base?_eq_some_iff :
    a.base? id = some base ↔ base < a.stores.size ∧ a.below id = a.layers base := by
  have hhead : ∀ {base}, base < a.stores.size → (a.layers base).head? = some base := by
    intro base hbase
    rw [layers_of_lt hbase, List.head?_cons]
  constructor
  · intro h
    rcases a.below_cases id with hnil | ⟨other, hother, hlayers⟩
    · rw [base?, hnil] at h
      cases h
    · rw [base?, hlayers, hhead hother] at h
      cases h
      exact ⟨hother, hlayers⟩
  · rintro ⟨hbase, hlayers⟩
    rw [base?, hlayers, hhead hbase]

theorem mem_beneath_iff : hash ∈ a.beneath id ↔ ∃ layer ∈ a.below id, hash ∈ a.written layer := by
  constructor
  · rintro ⟨base, hbase, hshown⟩
    rw [(base?_eq_some_iff.mp hbase).2]
    exact mem_shown_iff.mp hshown
  · rintro ⟨layer, hlayer, hwritten⟩
    rcases a.below_cases id with hnil | ⟨base, hbase, hlayers⟩
    · rw [hnil] at hlayer
      exact absurd hlayer List.not_mem_nil
    · rw [hlayers] at hlayer
      exact ⟨base, base?_eq_some_iff.mpr ⟨hbase, hlayers⟩,
        mem_shown_iff.mpr ⟨layer, hlayer, hwritten⟩⟩

/-- A store shows what lies in it or below it. -/
theorem shown_eq (a : Archive) (id : StoreId) : a.shown id = a.written id ∪ a.beneath id := by
  ext hash
  rw [mem_shown_iff, Set.mem_union, mem_beneath_iff]
  by_cases hid : id < a.stores.size
  · rw [layers_of_lt hid, List.exists_mem_cons_iff]
  · simp [layers, below, written, records, Array.getElem?_eq_none (Nat.le_of_not_lt hid)]

theorem written_subset_shown (a : Archive) (id : StoreId) : a.written id ⊆ a.shown id :=
  a.shown_eq id ▸ Set.subset_union_left

theorem beneath_subset_shown (a : Archive) (id : StoreId) : a.beneath id ⊆ a.shown id :=
  a.shown_eq id ▸ Set.subset_union_right

/-- Nothing lies below a store that stands alone. -/
theorem beneath_of_bare (h : a.below id = []) : a.beneath id = ∅ := by
  ext hash
  simp [mem_beneath_iff, h]

/-- The layers below a store are laid over fewer layers than the store. -/
theorem length_below_lt (h : layer ∈ a.below id) :
    (a.below layer).length < (a.below id).length := by
  induction id using a.layers_induction with
  | _ id ih =>
      rcases a.below_cases id with hnil | ⟨base, hbase, hlayers⟩
      · rw [hnil] at h
        exact absurd h List.not_mem_nil
      · rw [hlayers, layers_of_lt hbase] at h
        rw [hlayers, layers_of_lt hbase, List.length_cons]
        rcases List.mem_cons.mp h with rfl | hmem
        · exact Nat.lt_succ_self _
        · exact Nat.lt_succ_of_lt (ih base hbase hlayers hmem)

theorem lt_size_of_mem_below (h : layer ∈ a.below id) : id < a.stores.size := by
  by_contra hlt
  rw [below, Array.getElem?_eq_none (Nat.le_of_not_lt hlt)] at h
  exact absurd h List.not_mem_nil

theorem bottom_mem_below (h : a.isOverlay id = true) : a.bottom id ∈ a.below id := by
  cases hbelow : a.below id with
  | nil =>
      rw [isOverlay, hbelow] at h
      cases h
  | cons base rest =>
      rw [bottom, hbelow, List.getLastD_cons]
      exact List.getLastD_mem_cons

/-- What the store at the bottom shows lies below an overlay. -/
theorem shown_bottom_subset (h : a.isOverlay id = true) :
    a.shown (a.bottom id) ⊆ a.beneath id := by
  intro hash hshown
  rw [shown_eq, beneath_of_bare (a.below_bottom id), Set.union_empty] at hshown
  exact mem_beneath_iff.mpr ⟨a.bottom id, bottom_mem_below h, hshown⟩

/-! ## Counting -/

theorem finite_written (a : Archive) (id : StoreId) : (a.written id).Finite :=
  (a.records id).keys.finite_toSet.subset fun _ h => Std.TreeMap.mem_keys.mpr h

theorem layerSize_eq (a : Archive) (id : StoreId) : a.layerSize id = (a.written id).ncard := by
  have hnodup : (a.records id).keys.Nodup :=
    Std.TreeMap.distinct_keys.imp fun hne heq =>
      hne (Std.LawfulEqCmp.compare_eq_iff_eq.mpr heq)
  have hset : a.written id = ((a.records id).keys.toFinset : Set Hash) := by
    ext hash
    rw [List.coe_toFinset]
    exact Std.TreeMap.mem_keys.symm
  rw [hset, Set.ncard_coe_finset, List.toFinset_card_of_nodup hnodup, Std.TreeMap.length_keys]
  rfl

theorem finite_shown (a : Archive) (id : StoreId) : (a.shown id).Finite := by
  refine ((a.layers id).finite_toSet.biUnion fun layer _ => a.finite_written layer).subset ?_
  intro hash h
  obtain ⟨layer, hlayer, hwritten⟩ := mem_shown_iff.mp h
  exact Set.mem_biUnion hlayer hwritten

theorem finite_beneath (a : Archive) (id : StoreId) : (a.beneath id).Finite :=
  (a.finite_shown id).subset (a.beneath_subset_shown id)

theorem size_eq_sum (a : Archive) (id : StoreId) :
    a.size id = ((a.layers id).map a.layerSize).sum := by
  rw [size, List.sum_eq_foldl, List.foldl_map]

/-- The size of a store is the number of digests that it shows and, for each layer, the
number of those that lie below it as well. -/
theorem size_eq (a : Archive) (id : StoreId) :
    a.size id =
      (a.shown id).ncard + ((a.layers id).map fun layer => (a.doubled layer).ncard).sum := by
  rw [size_eq_sum]
  induction id using a.layers_induction with
  | _ id ih =>
      by_cases hid : id < a.stores.size
      · have hbelow : ((a.below id).map a.layerSize).sum =
            (a.beneath id).ncard + ((a.below id).map fun layer => (a.doubled layer).ncard).sum := by
          rcases a.below_cases id with hnil | ⟨base, hbase, hlayers⟩
          · simp [hnil, beneath_of_bare hnil]
          · have hshown : a.beneath id = a.shown base := by
              ext hash
              rw [mem_beneath_iff, mem_shown_iff, hlayers]
            rw [hshown, hlayers, ih base hbase hlayers]
        have hcount : (a.shown id).ncard + (a.doubled id).ncard =
            (a.written id).ncard + (a.beneath id).ncard := by
          rw [shown_eq, doubled]
          exact Set.ncard_union_add_ncard_inter _ _ (a.finite_written id) (a.finite_beneath id)
        rw [layers_of_lt hid, List.map_cons, List.map_cons, List.sum_cons, List.sum_cons, hbelow,
          layerSize_eq]
        omega
      · have hnone : a.layers id = [] := by
          simp [layers, Array.getElem?_eq_none (Nat.le_of_not_lt hid)]
        have hshown : a.shown id = ∅ := by
          ext hash
          simp [mem_shown_iff, hnone]
        simp [hnone, hshown]

/-- The size is the number of digests that are shown exactly if no record lies twice. -/
theorem size_eq_ncard_iff (a : Archive) (id : StoreId) :
    a.size id = (a.shown id).ncard ↔ ∀ layer ∈ a.layers id, a.doubled layer = ∅ := by
  rw [size_eq, Nat.add_eq_left, List.sum_eq_zero_iff, List.forall_mem_map]
  refine forall₂_congr fun layer _ => ?_
  exact Set.ncard_eq_zero ((a.finite_written layer).subset Set.inter_subset_left)

/-! ## What one act may change -/

/-- Nothing is lost, neither from what a store shows nor from a layer, and what is new in a
layer does not lie below it. -/
structure AddsTo (a b : Archive) : Prop extends GrowsTo a b where
  kept : ∀ id, a.written id ⊆ b.written id
  fresh : ∀ id, ∀ hash ∈ b.written id, hash ∈ a.written id ∨ hash ∉ b.beneath id

theorem GrowsTo.shown_subset (h : a.GrowsTo b) (id : StoreId) : a.shown id ⊆ b.shown id := by
  intro hash hmem
  obtain ⟨account, haccount⟩ := mem_shown_iff_get?.mp hmem
  exact mem_shown_iff_get?.mpr ⟨account, h.shows haccount⟩

theorem GrowsTo.beneath_subset (h : a.GrowsTo b) (id : StoreId) : a.beneath id ⊆ b.beneath id := by
  rintro hash ⟨base, hbase, hshown⟩
  have hid := lt_size_of_mem_below (List.mem_of_mem_head? hbase)
  exact ⟨base, by rw [base?, (h.stores id hid).2]; exact hbase, h.shown_subset base hshown⟩

theorem Confined.below_eq {s : StoreId} (h : Confined s a b) (id : StoreId) :
    b.below id = a.below id := by
  by_cases hid : id < a.stores.size
  · exact (h.stores id hid).2
  · have hlt : b.stores.size ≤ id := h.size ▸ Nat.le_of_not_lt hid
    rw [below, below, Array.getElem?_eq_none hlt, Array.getElem?_eq_none (Nat.le_of_not_lt hid)]

namespace AddsTo

/-- A record lies twice if it did before, or if it lay in the layer and comes to lie below
it now. -/
theorem mem_doubled_iff (h : a.AddsTo b) :
    hash ∈ b.doubled id ↔ hash ∈ a.doubled id ∨
      (hash ∈ a.written id ∧ hash ∉ a.beneath id ∧ hash ∈ b.beneath id) := by
  constructor
  · rintro ⟨hwritten, hbeneath⟩
    have hold : hash ∈ a.written id :=
      (h.fresh id hash hwritten).resolve_right fun hnot => hnot hbeneath
    by_cases hbefore : hash ∈ a.beneath id
    · exact .inl ⟨hold, hbefore⟩
    · exact .inr ⟨hold, hbefore, hbeneath⟩
  · rintro (⟨hwritten, hbeneath⟩ | ⟨hwritten, -, hbeneath⟩)
    · exact ⟨h.kept id hwritten, h.beneath_subset id hbeneath⟩
    · exact ⟨h.kept id hwritten, hbeneath⟩

/-- Nothing has been written. -/
theorem of_records (h : a.GrowsTo b) (hrecords : ∀ id, b.records id = a.records id) :
    a.AddsTo b := by
  have hwritten : ∀ id, b.written id = a.written id := fun id => by
    rw [written, written, hrecords]
  exact ⟨h, fun id => (hwritten id).ge, fun id _ hmem => .inl (hwritten id ▸ hmem)⟩

theorem refl (a : Archive) : a.AddsTo a := of_records (.refl a) fun _ => rfl

/-- One layer has been written to. -/
theorem of_confined {s : StoreId} (h : Confined s a b) (hkept : a.written s ⊆ b.written s)
    (hfresh : ∀ hash ∈ b.written s, hash ∈ a.written s ∨ hash ∉ b.beneath s) : a.AddsTo b := by
  have hothers : ∀ id, id ≠ s → b.written id = a.written id := fun id hid => by
    rw [written, written, h.records id hid]
  refine ⟨h.toGrowsTo, fun id => ?_, fun id hash hmem => ?_⟩
  · by_cases hid : id = s
    · exact hid ▸ hkept
    · exact (hothers id hid).ge
  · by_cases hid : id = s
    · exact hid ▸ hfresh hash (hid ▸ hmem)
    · exact .inl (hothers id hid ▸ hmem)

/-- A store that stands alone has been written to: nothing lies below it. -/
theorem of_bare {s : StoreId} (h : Confined s a b) (hbare : a.below s = []) : a.AddsTo b := by
  have ha := beneath_of_bare hbare
  have hb := beneath_of_bare ((h.below_eq s).trans hbare)
  refine of_confined h ?_ fun hash _ => .inr (by rw [hb]; exact Set.notMem_empty hash)
  have hshown := h.shown_subset s
  rwa [shown_eq, shown_eq, ha, hb, Set.union_empty, Set.union_empty] at hshown

/-- A record is written to a store that does not show one under its digest. -/
theorem insert (a : Archive) (id : StoreId) (account : Account) :
    a.AddsTo (a.insert id account) := by
  have hconfined := Confined.insert id a account
  refine of_confined hconfined (fun hash hmem => ?_) fun hash hmem => ?_
  · obtain ⟨other, hother⟩ := mem_written_iff.mp hmem
    rw [mem_written_iff, getElem?_records_insert]
    split
    · exact ⟨account, rfl⟩
    · exact ⟨other, hother⟩
  · obtain ⟨other, hother⟩ := mem_written_iff.mp hmem
    rw [getElem?_records_insert] at hother
    split at hother
    case isFalse => exact .inl (mem_written_iff.mpr ⟨other, hother⟩)
    case isTrue hnew =>
      -- A layer is not below itself, so what lies below is as it was, and is not shown.
      refine .inr fun hbeneath => ?_
      obtain ⟨layer, hlayer, hwritten⟩ := mem_beneath_iff.mp hbeneath
      rw [below_insert] at hlayer
      have hne : layer ≠ id := by
        rintro rfl
        exact absurd (length_below_lt hlayer) (Nat.lt_irrefl _)
      rw [written, hconfined.records layer hne] at hwritten
      have hshown : hash ∈ a.shown id :=
        a.beneath_subset_shown id (mem_beneath_iff.mpr ⟨layer, hlayer, hwritten⟩)
      obtain ⟨hcontains, -, -, rfl⟩ := hnew
      exact absurd hshown (by rw [shown, Set.mem_ofPred_eq, hcontains]; decide)

end AddsTo

end Archive

/-! ## Snapshots -/

namespace World

variable {w w' : World}

/-- A commit writes to the store at the bottom only. -/
theorem yields_commit_addsTo : Yields a w.commit (fun _ => a.AddsTo) a.AddsTo := by
  have hconfined : Yields a w.commit (fun _ => Archive.Confined (a.bottom w.store) a)
      (Archive.Confined (a.bottom w.store) a) :=
    yields_commit_of (.refl _ a) fun mid account hmid => hmid.trans (.insert _ mid account)
  have hbare := a.below_bottom w.store
  exact ⟨fun w' a' h => .of_bare (hconfined.1 w' a' h) hbare,
    fun e a' h => .of_bare (hconfined.2 e a' h) hbare⟩

/-- What is committed from an overlay stays there, and lies below it then. -/
theorem doubled_of_commit (hcommit : w.commit a = .ok w' a') (hover : a.isOverlay w.store = true)
    (hwritten : hash ∈ a.written w.store) {address : Hash}
    (hleaf : (address, hash) ∈ w.trie.leaves) : hash ∈ a'.doubled w.store := by
  have hadds := yields_commit_addsTo.1 w' a' hcommit
  have hlt := Archive.lt_size_of_mem_below (Archive.bottom_mem_below hover)
  refine ⟨hadds.kept _ hwritten, Archive.shown_bottom_subset ?_ ?_⟩
  · rw [hadds.isOverlay_eq hlt, hover]
  · rw [hadds.bottom_eq hlt, Archive.mem_shown_iff_get?]
    rcases commit_eq_ok hcommit with ⟨hbottom, -, -⟩ | ⟨-, -, u, hloop⟩
    · have hbare := a.isOverlay_bottom w.store
      rw [hbottom, hover] at hbare
      cases hbare
    · exact shown_of_copyAll hloop (Archive.bottom_lt_size hlt) address hash hleaf

end World

/-- Where the factory is alone no other record is shown. -/
theorem Genesis.Alone.shown_subset {w : World} (h : Genesis.Alone a w) (id : StoreId) :
    a.shown id ⊆ {Record.hash account} := by
  intro hash hmem
  obtain ⟨other, hshown⟩ := Archive.mem_shown_iff_get?.mp hmem
  obtain rfl : other = account := h.within other (Archive.mem_journal_of_get? hshown)
  exact (Archive.hash_of_get? hshown).symm

/-! ## Any acts -/

namespace Desk

variable {acts : List Act} {act : Act} {store : StoreId}

theorem addsTo_step (d : Desk) (act : Act) : d.archive.AddsTo (d.step act).archive :=
  archive_step (.refl _)
    (.of_records d.archive.growsTo_addStore (Archive.records_push rfl rfl))
    (fun base => .of_records (d.archive.growsTo_addOverlay base) (Archive.records_push rfl rfl))
    (.insert d.archive) (fun _ => World.yields_commit_addsTo) act

/-- At some time the store had a record that did not lie below it, and the next act brought
it there. -/
def Overtaken (acts : List Act) (store : StoreId) (hash : Hash) : Prop :=
  ∃ before act after, acts = before ++ act :: after ∧
    hash ∈ (empty.run before).archive.written store ∧
    hash ∉ (empty.run before).archive.beneath store ∧
    hash ∈ (empty.run (before ++ [act])).archive.beneath store

theorem overtaken_concat_iff :
    Overtaken (acts ++ [act]) store hash ↔ Overtaken acts store hash ∨
      (hash ∈ (empty.run acts).archive.written store ∧
        hash ∉ (empty.run acts).archive.beneath store ∧
        hash ∈ (empty.run (acts ++ [act])).archive.beneath store) := by
  constructor
  · rintro ⟨before, act', after, heq, hmoment⟩
    rcases List.eq_nil_or_concat after with rfl | ⟨after, last, rfl⟩
    · obtain ⟨rfl, hact⟩ := List.append_inj' heq rfl
      obtain rfl := List.singleton_injective hact
      exact .inr hmoment
    · have hinit : acts ++ [act] = (before ++ act' :: after) ++ [last] := by simpa using heq
      exact .inl ⟨before, act', after, (List.append_inj' hinit rfl).1, hmoment⟩
  · rintro (⟨before, act', after, rfl, hmoment⟩ | hmoment)
    · exact ⟨before, act', after ++ [act], by simp, hmoment⟩
    · exact ⟨acts, act, [], rfl, hmoment⟩

/-- A record lies twice exactly if the layers below got it after the layer itself. -/
theorem mem_doubled_run_iff :
    hash ∈ (empty.run acts).archive.doubled store ↔ Overtaken acts store hash := by
  induction acts using List.reverseRecOn with
  | nil =>
      refine iff_of_false (fun ⟨hwritten, _⟩ => ?_) fun ⟨_, _, _, heq, _⟩ => by simp at heq
      obtain ⟨account, haccount⟩ := Archive.mem_written_iff.mp hwritten
      cases haccount
  | append_singleton acts act ih =>
      have hrun : (empty.run (acts ++ [act])).archive = ((empty.run acts).step act).archive := by
        rw [run_append, run_cons, run_nil]
      rw [overtaken_concat_iff, ← ih, hrun]
      exact (addsTo_step _ act).mem_doubled_iff

/-- Whatever is done, a store shows exactly the records that it gives, and the number of
records in a layer is that of the digests there.  A digest lies in a layer and below it
exactly if the layers below got it after the layer itself, and the size of a store counts
each digest that it shows once and once more for each layer where this happened; so it is
their number exactly if it happened in none. -/
theorem sizes_of_run (acts : List Act) (store : StoreId) :
    let a := (empty.run acts).archive
    (∀ hash, a.contains store hash = (a.get? store hash).isSome) ∧
    a.layerSize store = (a.written store).ncard ∧
    (∀ hash, hash ∈ a.written store ∧ (∃ base, a.base? store = some base ∧
      a.contains base hash = true) ↔ Overtaken acts store hash) ∧
    a.size store = {hash | a.contains store hash = true}.ncard +
      ((a.layers store).map fun layer => {hash | Overtaken acts layer hash}.ncard).sum ∧
    (a.size store = {hash | a.contains store hash = true}.ncard ↔
      ∀ layer ∈ a.layers store, ∀ hash, ¬Overtaken acts layer hash) := by
  have hdoubled : ∀ layer, (empty.run acts).archive.doubled layer =
      {hash | Overtaken acts layer hash} := fun layer => by
    ext hash
    exact mem_doubled_run_iff
  refine ⟨Archive.contains_eq _ store, Archive.layerSize_eq _ store,
    fun hash => mem_doubled_run_iff, ?_, ?_⟩
  · simp only [← hdoubled]
    exact Archive.size_eq _ store
  · refine (Archive.size_eq_ncard_iff _ store).trans (forall₂_congr fun layer _ => ?_)
    rw [hdoubled, Set.eq_empty_iff_forall_notMem]
    rfl

/-- The factory is put to an overlay and committed: it lies in both layers and counts twice. -/
theorem exists_size_ne_ncard : ∃ hash, let a := (empty.run (founding ++ [.commit 2])).archive
    a.base? 1 = some 0 ∧ hash ∈ a.written 1 ∧ a.contains 0 hash = true ∧
      a.size 1 = 2 ∧ {hash | a.contains 1 hash = true}.ncard = 1 := by
  let b : Archive := (Archive.empty.addStore.2.addOverlay 0).2
  let a : Archive := b.insert 1 Genesis.account
  have hbare : ∀ id, b.records id = ∅ := fun id => by
    rw [Archive.records_push (a := Archive.empty.addStore.2) rfl rfl,
      Archive.records_push (a := Archive.empty) rfl rfl]
    rfl
  have hfork : empty.run [.addStore, .start 0, .fork 0] = ⟨b, [World.empty 0, World.empty 1]⟩ := rfl
  obtain ⟨halone, hfounding⟩ : Genesis.Alone a ⟨Genesis.trie, 1⟩ ∧
      empty.run founding = ⟨a, [World.empty 0, World.empty 1, ⟨Genesis.trie, 1⟩]⟩ :=
    run_factory hfork 1 rfl (fun _ hmem => nomatch hmem) (by decide)
  obtain ⟨w', a', hcommit, halone'⟩ := halone.commit
  have hadds := World.yields_commit_addsTo.1 w' a' hcommit
  have hlt : 1 < a.stores.size := halone.stored.lt_size
  have hbelow : a'.below 1 = [0] ∧ a'.below 0 = [] := by
    rw [(hadds.stores 1 hlt).2, (hadds.stores 0 (Nat.lt_trans Nat.one_pos hlt)).2]
    exact ⟨Archive.below_insert b 1 _ 1, Archive.below_insert b 1 _ 0⟩
  -- The factory is written to the overlay, and the commit copies it.
  have hdoubled : Record.hash Genesis.account ∈ a'.doubled 1 := by
    obtain ⟨hash, hget, hrecord⟩ := World.account?_eq_some_iff.mp halone.holds
    obtain rfl := Archive.hash_of_get? hrecord
    have hleaf := Trie.mem_leaves_of_get hget
    have hover : a.isOverlay 1 = true := by
      rw [Archive.isOverlay, Archive.below_insert]
      rfl
    have hwritten : Record.hash Genesis.account ∈ a.written 1 := by
      refine Archive.mem_written_iff.mpr ⟨Genesis.account, ?_⟩
      rw [Archive.getElem?_records_insert, if_pos]
      refine ⟨?_, rfl, by decide, rfl⟩
      simp [Archive.contains, hbare]
    exact World.doubled_of_commit (w := ⟨Genesis.trie, 1⟩) hcommit hover hwritten hleaf
  have hrun : (empty.run (founding ++ [.commit 2])).archive = a' := by
    have hplace : (Desk.mk a [World.empty 0, World.empty 1, ⟨Genesis.trie, 1⟩]).worlds[2]? =
        some ⟨Genesis.trie, 1⟩ := rfl
    rw [run_append, hfounding, run_cons, run_nil, step, make_of_ok hplace hcommit]
  have hone : ∀ {s : Set Hash}, Record.hash Genesis.account ∈ s → s ⊆ a'.shown 1 → s.ncard = 1 :=
    fun hmem hsub => Set.ncard_eq_one.mpr
      ⟨_, (hsub.trans (halone'.shown_subset 1)).antisymm (Set.singleton_subset_iff.mpr hmem)⟩
  have hover := a'.written_subset_shown 1
  have hshown : (a'.shown 1).ncard = 1 := hone (hover hdoubled.1) subset_rfl
  have hbottom : a'.doubled 0 = ∅ := by
    rw [Archive.doubled, Archive.beneath_of_bare hbelow.2, Set.inter_empty]
  have hsize : a'.size 1 = 2 := by
    rw [Archive.size_eq, hshown, Archive.layers_of_lt (hadds.stores 1 hlt).1, hbelow.1]
    simp [hbottom, hone hdoubled (Set.inter_subset_left.trans hover)]
  have hbase : a'.base? 1 = some 0 := by rw [Archive.base?, hbelow.1, List.head?_cons]
  obtain ⟨base, hbase', hlow⟩ := hdoubled.2
  obtain rfl : 0 = base := Option.some.inj (hbase.symm.trans hbase')
  rw [hrun]
  exact ⟨Record.hash Genesis.account, hbase, hdoubled.1, hlow, hsize, hshown⟩

end Desk

end ScriptLedger
