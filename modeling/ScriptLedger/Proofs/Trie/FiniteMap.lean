import Std.Data.ExtTreeMap
import ScriptLedger.Proofs.Trie.Accident
import ScriptLedger.Proofs.Trie.Listing

/-!
# A trie is a finite map

Puts and removals, one after the other, make of the empty trie what insertions and erasures
make of the empty map, and none of them fails.  What can be asked of the trie has the same
answer as what can be asked of the map; its leaves are the bindings of the map in the order
of their keys.

A trie that was made so has one shape for each map.  Its root hash stands for the map, too,
unless two different branches of the tries that are compared have one digest, or a branch
has the digest that is kept for the empty subtrie.

## Main results

* `Trie.Edit.exists_ofEdits` — edits make a canonical trie, and it holds what they bind.
* `Trie.denotes_of_edits` — it answers as the map does.
* `Trie.commits_of_edits` — it has one shape for each map, and its root commits to the map.
-/

namespace ScriptLedger

open Sequencing

/-- What a trie is to hold: finitely many keys with their values. -/
abbrev Bindings := Std.ExtTreeMap Hash Hash

namespace Trie

/-! ## Edits -/

/-- One update of a trie. -/
inductive Edit
  | put (key value : Hash) (hvalue : value ≠ Blob.zero)
  | remove (key : Hash)

/-- The key that an edit is about. -/
def Edit.key : Edit → Hash
  | .put key _ _ => key
  | .remove key => key

/-- What is under the key after the edit. -/
def Edit.value? : Edit → Option Hash
  | .put _ value _ => some value
  | .remove _ => none

/-- The trie after an edit. -/
def edit (t : Trie) : Edit → Except TrieError Trie
  | .put key value _ => t.put key value
  | .remove key => (t.remove key).map (·.1)

/-- The bindings after an edit. -/
def Edit.bind (m : Bindings) : Edit → Bindings
  | .put key value _ => m.insert key value
  | .remove key => m.erase key

/-- Edits of the empty trie, one after the other. -/
def ofEdits (edits : List Edit) : Except TrieError Trie := edits.foldlM edit Trie.empty

/-- The same edits of no bindings. -/
def Edit.bindings (edits : List Edit) : Bindings := edits.foldl Edit.bind ∅

namespace Edit

variable {t : Trie} {m : Bindings}

theorem value?_ne_zero (e : Edit) (value : Hash) (h : e.value? = some value) :
    value ≠ Blob.zero := by
  cases e with
  | put key other hvalue =>
      cases h
      exact hvalue
  | remove key => cases h

/-- An edit of a canonical trie assigns. -/
theorem edit_eq (h : t.Canonical) (e : Edit) : t.edit e = .ok (t.assign e.key e.value?) := by
  cases e with
  | put key value hvalue => exact put_eq h key hvalue
  | remove key =>
      rw [edit, remove_eq h key]
      rfl

theorem getElem?_bind (m : Bindings) (e : Edit) (key : Hash) :
    (e.bind m)[key]? = if key = e.key then e.value? else m[key]? := by
  cases e with
  | put place value _ =>
      simp only [bind, Std.ExtTreeMap.getElem?_insert, Std.compare_eq_iff_eq, Edit.key, value?]
      exact if_congr eq_comm rfl rfl
  | remove place =>
      simp only [bind, Std.ExtTreeMap.getElem?_erase, Std.compare_eq_iff_eq, Edit.key, value?]
      exact if_congr eq_comm rfl rfl

end Edit

/-- The trie is as updates leave it, and what is found in it is what is bound. -/
structure Holds (t : Trie) (m : Bindings) : Prop where
  canonical : t.Canonical
  find_eq : ∀ key, t.find key = m[key]?

theorem holds_empty : Trie.empty.Holds ∅ where
  canonical := canonical_empty
  find_eq key := by rw [find_empty, Std.ExtTreeMap.getElem?_empty]

namespace Holds

variable {t u : Trie} {m m' : Bindings}

/-- One edit does not fail, and the trie goes on to hold what is bound. -/
theorem edit (h : t.Holds m) (e : Edit) : ∃ u, t.edit e = .ok u ∧ u.Holds (e.bind m) := by
  refine ⟨t.assign e.key e.value?, Edit.edit_eq h.canonical e, ?_, fun key => ?_⟩
  · exact h.canonical.assign e.key e.value?_ne_zero
  · rw [find_assign, Edit.getElem?_bind, h.find_eq]

/-- Neither do any number of edits. -/
theorem edits (h : t.Holds m) (edits : List Edit) :
    ∃ u, edits.foldlM Trie.edit t = .ok u ∧ u.Holds (edits.foldl Edit.bind m) := by
  induction edits generalizing t m with
  | nil => exact ⟨t, rfl, h⟩
  | cons e rest ih =>
      obtain ⟨next, hedit, hnext⟩ := h.edit e
      obtain ⟨u, hrest, hu⟩ := ih hnext
      refine ⟨u, ?_, hu⟩
      rw [List.foldlM_cons]
      exact except_bind_eq_ok.mpr ⟨next, hedit, hrest⟩

/-- A trie that holds the same is the same. -/
theorem eq (h : t.Holds m) (hu : u.Holds m) : t = u :=
  eq_of_find_eq h.canonical hu.canonical fun key => (h.find_eq key).trans (hu.find_eq key).symm

/-- What is bound is determined by the trie. -/
theorem bindings_eq (h : t.Holds m) (h' : t.Holds m') : m = m' :=
  Std.ExtTreeMap.ext_getElem? fun key => (h.find_eq key).symm.trans (h'.find_eq key)

/-- The leaves are the bindings in their order. -/
theorem leaves_eq (h : t.Holds m) : t.leaves = m.toList := by
  have hbindings : m.toList.Pairwise fun p q => compare p.1 q.1 = .lt :=
    Std.ExtTreeMap.ordered_keys_toList
  refine leaves_eq_of_mem_iff (hbindings.imp Blob.compare_eq_lt_iff.mp) ?_
  rintro ⟨key, value⟩
  rw [mem_leaves_iff h.canonical, Std.ExtTreeMap.mem_toList_iff_getElem?_eq_some, h.find_eq]

theorem isEmpty_eq (h : t.Holds m) : t.isEmpty = m.isEmpty := by
  rw [Bool.eq_iff_iff, Std.ExtTreeMap.isEmpty_iff, isEmpty, Node.isEmpty_iff]
  constructor
  · intro hroot
    have hempty : t = Trie.empty := congrArg Trie.mk hroot
    exact h.bindings_eq (hempty ▸ holds_empty)
  · rintro rfl
    exact congrArg Trie.root (h.eq holds_empty)

end Holds

/-- Edits of the empty trie do not fail. -/
theorem Edit.exists_ofEdits (edits : List Edit) :
    ∃ t, ofEdits edits = .ok t ∧ t.Holds (Edit.bindings edits) := holds_empty.edits edits

/-! ## Answers -/

/-- Whatever is asked of the trie has the answer of the map. -/
structure Denotes (t : Trie) (m : Bindings) : Prop where
  get : ∀ key, t.get key = .ok m[key]?
  contains : ∀ key, t.contains key = .ok (m.contains key)
  put : ∀ key value, value ≠ Blob.zero → ∃ u, t.put key value = .ok u
  remove : ∀ key, ∃ u, t.remove key = .ok (u, m.contains key) ∧ (m.contains key = false → u = t)
  leaves : t.leaves = m.toList
  ascending : t.leaves.Pairwise fun p q => p.1.toList < q.1.toList
  size : t.size = m.size
  isEmpty : t.isEmpty = m.isEmpty

theorem Holds.denotes {t : Trie} {m : Bindings} (h : t.Holds m) : t.Denotes m where
  get key := by rw [get_eq h.canonical, h.find_eq]
  contains key := by
    rw [Std.ExtTreeMap.contains_eq_isSome_getElem?, Trie.contains, get_eq h.canonical, h.find_eq]
    rfl
  put key value hvalue := ⟨_, put_eq h.canonical key hvalue⟩
  remove key := by
    have hflag : (t.find key).isSome = m.contains key := by
      rw [h.find_eq, Std.ExtTreeMap.isSome_getElem?_eq_contains]
    refine ⟨t.assign key none, by rw [remove_eq h.canonical, hflag], fun hnone => ?_⟩
    rw [← hflag, Option.isSome_eq_false_iff, Option.isNone_iff_eq_none] at hnone
    rw [← hnone, assign_find h.canonical]
  leaves := h.leaves_eq
  ascending := pairwise_leaves t
  size := by rw [Trie.size, h.leaves_eq, Std.ExtTreeMap.length_toList]
  isEmpty := h.isEmpty_eq

/-- No edit fails, and after any of them the trie answers as the map does. -/
theorem denotes_of_edits (edits : List Edit) :
    ∃ t, ofEdits edits = .ok t ∧ t.Denotes (Edit.bindings edits) := by
  obtain ⟨t, hrun, hholds⟩ := Edit.exists_ofEdits edits
  exact ⟨t, hrun, hholds.denotes⟩

/-! ## One shape for each map -/

/-- Edits of different keys bind the same in any order. -/
theorem Edit.bindings_eq_of_perm {edits edits' : List Edit} (h : edits.Perm edits')
    (hkeys : (edits.map Edit.key).Nodup) : Edit.bindings edits = Edit.bindings edits' := by
  refine h.foldl_eq' (fun e he e' he' m => ?_) ∅
  refine Std.ExtTreeMap.ext_getElem? fun key => ?_
  simp only [Edit.getElem?_bind]
  by_cases hsame : e.key = e'.key
  · rw [List.inj_on_of_nodup_map hkeys he he' hsame]
  · by_cases hkey : key = e.key
    · rw [if_pos hkey, if_pos hkey, if_neg (hkey ▸ hsame)]
    · rw [if_neg hkey, if_neg hkey]

/-- A value that is put under a new key can be taken away again. -/
theorem Canonical.remove_put {t : Trie} (h : t.Canonical) {key value : Hash}
    (hvalue : value ≠ Blob.zero) (hnew : t.get key = .ok none) :
    ∃ u, t.put key value = .ok u ∧ u.remove key = .ok (t, true) := by
  rw [get_eq h, Except.ok.injEq] at hnew
  have hput := h.assign_some key hvalue
  have hback : (t.assign key (some value)).assign key none = t := by
    refine eq_of_find_eq (hput.assign key fun _ hnone => by cases hnone) h fun other => ?_
    rw [find_assign, find_assign]
    by_cases hother : other = key
    · rw [if_pos hother, hother, hnew]
    · rw [if_neg hother, if_neg hother]
  refine ⟨_, put_eq h key hvalue, ?_⟩
  rw [remove_eq hput, hback, find_assign, if_pos rfl]
  rfl

/-- Tries that hold the same have one shape and one root hash: a removal takes back what a
put has added, and the order of edits of different keys does not matter.  Tries with one
root hash hold the same, or there is an accident among their branches. -/
theorem commits_of_edits (edits edits' : List Edit) :
    ∃ t u, ofEdits edits = .ok t ∧ ofEdits edits' = .ok u ∧
      (Edit.bindings edits = Edit.bindings edits' → t = u ∧ t.rootHash = u.rootHash) ∧
      (∀ key value, value ≠ Blob.zero → t.get key = .ok none →
        ∃ v, t.put key value = .ok v ∧ v.remove key = .ok (t, true)) ∧
      (edits.Perm edits' → (edits.map Edit.key).Nodup → t = u) ∧
      (t.rootHash = u.rootHash → Edit.bindings edits = Edit.bindings edits' ∨ Accident t u) := by
  obtain ⟨t, hrun, ht⟩ := Edit.exists_ofEdits edits
  obtain ⟨u, hrun', hu⟩ := Edit.exists_ofEdits edits'
  have hshape : Edit.bindings edits = Edit.bindings edits' → t = u := by
    intro hsame
    rw [← hsame] at hu
    exact ht.eq hu
  refine ⟨t, u, hrun, hrun', ?_, ?_, ?_, ?_⟩
  · intro hsame
    exact ⟨hshape hsame, congrArg rootHash (hshape hsame)⟩
  · intro key value hvalue hnew
    exact ht.canonical.remove_put hvalue hnew
  · intro hperm hkeys
    exact hshape (Edit.bindings_eq_of_perm hperm hkeys)
  · intro hroot
    rcases eq_or_accident ht.canonical.formed hu.canonical.formed hroot with hsame | haccident
    · rw [← hsame] at hu
      exact Or.inl (ht.bindings_eq hu)
    · exact Or.inr haccident

end Trie

end ScriptLedger
