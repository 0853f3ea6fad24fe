import ScriptLedger.Proofs.Trie.Line
import ScriptLedger.Proofs.Trie.Places
import ScriptLedger.Proofs.Trie.Union

/-!
# The tries that can be made

A recipe makes a trie out of nothing, or out of a root hash, by updates, picks and merges in
any order.  Whatever a recipe makes is regular; and no branch of it is empty, if no trie that
it picks from has a branch with the zero digest.  Updates make the hashes of branches anew and
may do so beside summaries, while picks and merges keep those that are there; being regular is
what all of them hand on.

## Main results

* `Trie.Recipe.regular_of_make`, `Trie.Recipe.populated_of_make` — what recipes make.
* `Trie.Recipe.orderly_of_make` — every node of it is in its place, and no operation on it
  comes upon one that is not, or asks for more of a path than there is.
* `Trie.Recipe.union_of_cherryPick` — merging what was picked for some keys and for others is
  picking for all of them.
-/

namespace ScriptLedger

open Sequencing

namespace Node

/-! ## The nodes of a trie -/

/-- The node at the end of a path. -/
def at? : Path → Node → Option Node
  | [], node => some node
  | i :: rest, .branch _ children => at? rest (children i)
  | _ :: _, _ => none

/-- A node at a depth is of a kind that may be there, keeps its true hash, and stands for
something unless it is empty. -/
structure Fit (depth : Nat) (node : Node) : Prop where
  hash_eq : node.hash = node.recomputedHash
  leaf : ∀ value, node = .leaf value → depth = trieDepth ∧ value ≠ Blob.zero
  branch : ∀ hash children, node = .branch hash children →
    depth < trieDepth ∧ ∃ i, children i ≠ .empty
  unknown : ∀ hash, node = .unknown hash → hash ≠ Blob.zero

variable {depth levels : Nat} {path : Path} {n m : Node}

theorem Regular.fit (h : n.Regular levels) (hn : n.Populated)
    (hdepth : depth + levels = trieDepth) : n.Fit depth where
  hash_eq := h.recomputedHash_eq.symm
  leaf value heq := by
    subst heq
    cases h with
    | leaf hvalue => exact ⟨hdepth, hvalue⟩
  branch hash children heq := by
    subst heq
    cases h with
    | branch =>
        cases hn with
        | branch _ hsome =>
            obtain ⟨i, hi⟩ := hsome
            refine ⟨by omega, i, fun hempty => ?_⟩
            rw [hempty] at hi
            cases hi
  unknown hash heq := by
    subst heq
    cases h with
    | unknown _ hhash => exact hhash

theorem Regular.at? (h : n.Regular levels) (hat : n.at? path = some m) :
    ∃ left, path.length + left = levels ∧ m.Regular left := by
  induction path generalizing n levels with
  | nil =>
      cases hat
      exact ⟨levels, Nat.zero_add levels, h⟩
  | cons i rest ih =>
      cases h with
      | branch _ hchildren =>
          obtain ⟨left, hlen, hm⟩ := ih (hchildren i) hat
          refine ⟨left, ?_, hm⟩
          rw [List.length_cons]
          omega
      | _ => cases hat

theorem Populated.at? (h : n.Populated) (hat : n.at? path = some m) : m.Populated := by
  induction path generalizing n with
  | nil =>
      cases hat
      exact h
  | cons i rest ih =>
      cases h with
      | branch hchildren _ => exact ih (hchildren i) hat
      | _ => cases hat

/-! ## Why picking and merging fail -/

/-- A pick fails at a summary. -/
theorem pruned_of_pick_error {paths : List Path} {e : TrieError}
    (h : pick depth paths n = .error e) : e.Pruned := by
  induction n generalizing depth paths with
  | empty => cases paths <;> cases h
  | leaf => cases paths <;> cases h
  | unknown =>
      cases paths with
      | nil => cases h
      | cons => cases h; exact ⟨_, _, rfl⟩
  | branch hash children ih =>
      cases paths with
      | nil => cases h
      | cons path rest =>
          rcases except_bind_eq_error.mp h with hpicked | ⟨_, _, hpure⟩
          · obtain ⟨i, hi⟩ := ofFnM_eq_error hpicked
            exact ih i hi
          · cases hpure

/-- A merge fails at two nodes that do not go together. -/
theorem mismatch_of_merge_error {l r : Node} {e : TrieError} (h : l.merge r = .error e) :
    ∃ left right, e = .rootMismatch left right := by
  fun_induction merge l r with
  | case1 => cases h; exact ⟨_, _, rfl⟩
  | case2 => cases h
  | case3 => cases h
  | case4 hash left other right _ ih =>
      rcases except_bind_eq_error.mp h with hmerged | ⟨_, _, hpure⟩
      · obtain ⟨i, hi⟩ := ofFnM_eq_error hmerged
        exact ih i hi
      · cases hpure
  | case5 => cases h
  | case6 => cases h
  | case7 => cases h; exact ⟨_, _, rfl⟩

end Node

namespace Trie

/-! ## Recipes -/

/-- How a trie is made. -/
inductive Recipe
  | empty
  | ofRootHash (hash : Hash)
  | put (base : Recipe) (key value : Hash)
  | remove (base : Recipe) (key : Hash)
  | cherryPick (base : Recipe) (keys : List Hash)
  | merge (left right : Recipe)

namespace Recipe

/-- The trie that a recipe makes, if no step fails. -/
def make : Recipe → Except TrieError Trie
  | empty => .ok Trie.empty
  | ofRootHash hash => .ok (Trie.ofRootHash hash)
  | put base key value => do
    let t ← base.make
    t.put key value
  | remove base key => do
    let t ← base.make
    let (t, _) ← t.remove key
    pure t
  | cherryPick base keys => do
    let t ← base.make
    t.cherryPick keys
  | merge left right => do
    let t ← left.make
    let u ← right.make
    t.merge u

/-- No trie that is picked from has a branch with the zero digest. -/
def Nonzero : Recipe → Prop
  | empty => True
  | ofRootHash _ => True
  | put base _ _ => base.Nonzero
  | remove base _ => base.Nonzero
  | cherryPick base _ => base.Nonzero ∧ ∀ t, base.make = .ok t → t.root.Nonzero
  | merge left right => left.Nonzero ∧ right.Nonzero

variable {r : Recipe} {t : Trie}

/-- Every step keeps tries regular. -/
theorem regular_of_make (h : r.make = .ok t) : t.root.Regular trieDepth := by
  induction r generalizing t with
  | empty =>
      cases h
      exact .empty trieDepth
  | ofRootHash hash =>
      cases h
      exact Node.regular_summary trieDepth hash
  | put base key value ih =>
      obtain ⟨u, hbase, hput⟩ := except_bind_eq_ok.mp h
      exact hereditary_put Node.hereditary_regular .leaf hput (ih hbase)
  | remove base key ih =>
      obtain ⟨u, hbase, h⟩ := except_bind_eq_ok.mp h
      obtain ⟨⟨v, removed⟩, hremove, h⟩ := except_bind_eq_ok.mp h
      cases h
      exact hereditary_remove Node.hereditary_regular hremove (ih hbase)
  | cherryPick base keys ih =>
      obtain ⟨u, hbase, hpick⟩ := except_bind_eq_ok.mp h
      exact (picked_of_cherryPick hpick).regular (ih hbase)
  | merge left right ihl ihr =>
      obtain ⟨u, hleft, h⟩ := except_bind_eq_ok.mp h
      obtain ⟨v, hright, hmerge⟩ := except_bind_eq_ok.mp h
      exact (merged_of_merge hmerge).regular (ihl hleft) (ihr hright)

/-- No step leaves a branch empty, unless it picks from a branch with the zero digest. -/
theorem populated_of_make (h : r.make = .ok t) (hzero : r.Nonzero) : t.root.Populated := by
  induction r generalizing t with
  | empty =>
      cases h
      exact .empty
  | ofRootHash hash =>
      cases h
      exact Node.populated_summary hash
  | put base key value ih =>
      obtain ⟨u, hbase, hput⟩ := except_bind_eq_ok.mp h
      exact hereditary_put Node.hereditary_populated (fun _ => .leaf value) hput (ih hbase hzero)
  | remove base key ih =>
      obtain ⟨u, hbase, h⟩ := except_bind_eq_ok.mp h
      obtain ⟨⟨v, removed⟩, hremove, h⟩ := except_bind_eq_ok.mp h
      cases h
      exact hereditary_remove Node.hereditary_populated hremove (ih hbase hzero)
  | cherryPick base keys ih =>
      obtain ⟨u, hbase, hpick⟩ := except_bind_eq_ok.mp h
      have hbeside := (regular_of_make hbase).nonzeroBeside (hzero.2 u hbase) (keys.map Path.ofHash)
      exact ((picked_of_cherryPick hpick).views hbeside).populated (ih hbase hzero.1)
  | merge left right ihl ihr =>
      obtain ⟨u, hleft, h⟩ := except_bind_eq_ok.mp h
      obtain ⟨v, hright, hmerge⟩ := except_bind_eq_ok.mp h
      exact (merged_of_merge hmerge).populated (regular_of_make hleft) (ihl hleft hzero.1)
        (ihr hright hzero.2)

/-! ## A trie with one key -/

/-- One value under the least key. -/
def single : Recipe := .put .empty Blob.zero Node.ones

/-- A key that parts from the least one at the first half byte. -/
def far : Hash := ⟨Vector.replicate 32 0xff⟩

/-- It is made, it answers for every key, and no branch of it has the zero digest. -/
theorem exists_single : ∃ t, single.make = .ok t ∧ t.root.Nonzero ∧
    (∀ key, ∃ found, t.get key = .ok found) ∧ t.get far = .ok none ∧
      t.get Blob.zero = .ok (some Node.ones) := by
  have hones : Node.ones ≠ Blob.zero := by decide
  have hput : Trie.empty.put Blob.zero Node.ones =
      .ok ⟨Node.line Node.ones (Path.ofHash Blob.zero)⟩ := by
    have hnonzero : ¬ Node.ones.isZero = true := fun heq => hones (Blob.isZero_iff.mp heq)
    rw [Trie.put, if_neg hnonzero, show Trie.empty.root = .empty from rfl, Node.put_empty]
    rfl
  have hget (key : Hash) :
      (⟨Node.line Node.ones (Path.ofHash Blob.zero)⟩ : Trie).get key =
        .ok (if key = Blob.zero then some Node.ones else none) := by
    rw [get_put hput, get_eq canonical_empty, find_empty]
    split <;> rfl
  refine ⟨_, hput, fun hashes hdigests hzero => ?_, fun key => ⟨_, hget key⟩, ?_, ?_⟩
  · have hmem := Node.hashOfChildren_mem_lineHashes hdigests
    rw [hzero] at hmem
    exact (List.nodup_cons.mp Node.nodup_lineHashes_ones).1 hmem
  · rw [hget, if_neg (by decide)]
  · rw [hget, if_pos rfl]

end Recipe

/-! ## Order -/

/-- Every node is fit for its place; an operation fails where it meets a summary or nodes
that do not go together, and no other failure occurs; and no walk asks a path for a half
byte past its end. -/
structure Orderly (t : Trie) : Prop where
  fit : ∀ path node, t.root.at? path = some node → node.Fit path.length
  get : ∀ key e, t.get key = .error e → e.Pruned
  put : ∀ key value e, t.put key value = .error e → e = .zeroValue ∨ e.Pruned
  remove : ∀ key e, t.remove key = .error e → e.Pruned
  cherryPick : ∀ keys e, t.cherryPick keys = .error e → e.Pruned
  prove : ∀ key e, t.prove key = .error e → e.Pruned
  merge : ∀ u e, t.merge u = .error e → ∃ left right, e = .rootMismatch left right
  getAt : ∀ key, Node.getAt (Path.ofHash key) 0 t.root = .settled (t.get key)
  putAt : ∀ key value, Node.putAt (Path.ofHash key) value trieDepth t.root =
    .settled (t.root.put 0 value (Path.ofHash key))
  removeAt : ∀ key, Node.removeAt (Path.ofHash key) 0 t.root =
    .settled (t.root.remove 0 (Path.ofHash key))
  pickAt : ∀ keys : List Hash, Node.pickAt 0 (keys.map Path.ofHash) t.root =
    .settled (t.root.pick 0 (keys.map Path.ofHash))

namespace Recipe

/-- What a recipe makes is in order, if no trie that it picks from has a branch with the zero
digest. -/
theorem orderly_of_make {r : Recipe} {t : Trie} (h : r.make = .ok t) (hzero : r.Nonzero) :
    t.Orderly where
  fit path node hat := by
    obtain ⟨left, hlen, hnode⟩ := (regular_of_make h).at? hat
    exact hnode.fit ((populated_of_make h hzero).at? hat) hlen
  get key e herror := ((regular_of_make h).along key).pruned_of_get_error herror
  put key value e herror := by
    unfold Trie.put at herror
    by_cases hvalue : value.isZero = true
    · rw [if_pos hvalue] at herror
      cases herror
      exact Or.inl rfl
    · rw [if_neg hvalue] at herror
      have hput := except_map_eq_error.mp herror
      exact Or.inr (((regular_of_make h).along key).pruned_of_put_error hput)
  remove key e herror := by
    have hremove := except_map_eq_error.mp herror
    exact ((regular_of_make h).along key).pruned_of_remove_error hremove
  cherryPick keys e herror := Node.pruned_of_pick_error (except_map_eq_error.mp herror)
  prove key e herror :=
    Node.pruned_of_pick_error (except_map_eq_error.mp (except_map_eq_error.mp herror))
  merge u e herror := Node.mismatch_of_merge_error (except_map_eq_error.mp herror)
  getAt key := Node.getAt_eq (Path.length_ofHash key) (Nat.zero_le _)
  putAt key value := Node.putAt_eq (Path.length_ofHash key) value le_rfl
  removeAt key := Node.removeAt_eq (Path.length_ofHash key) (Nat.zero_le _)
  pickAt keys := by
    have hpick := Node.pickAt_eq (regular_of_make h) (Nat.zero_add _) (Path.length_of_mem_map keys)
    rw [show List.drop 0 = (id : Path → Path) from rfl, List.map_id] at hpick
    exact hpick

/-- A recipe with all kinds of steps: two views of one trie are merged, and then something is
put beside a summary and taken away again. -/
def detour : Recipe :=
  .remove (.put (.merge (.cherryPick single [far]) (.cherryPick single [far, Blob.zero]))
    far Node.ones) far

theorem orderly_of_make_detour : ∃ t, detour.make = .ok t ∧ detour.Nonzero ∧ t.Orderly := by
  obtain ⟨base, hbase, hnonzero, hknown, hfar, -⟩ := exists_single
  obtain ⟨left, hleft⟩ := exists_cherryPick_of_get fun key (_ : key ∈ [far]) => hknown key
  obtain ⟨right, hright⟩ :=
    exists_cherryPick_of_get fun key (_ : key ∈ [far, Blob.zero]) => hknown key
  obtain ⟨both, hboth, hmerge, -⟩ :=
    exists_union (regular_of_make hbase) hnonzero hleft hright
  have hget : both.get far = .ok none := (get_cherryPick hboth (by simp)).trans hfar
  obtain ⟨more, hput⟩ := exists_put_of_get hget (show Node.ones ≠ Blob.zero by decide)
  have hagain : more.get far = .ok (some Node.ones) := by rw [get_put hput, if_pos rfl]
  obtain ⟨last, hremove⟩ := exists_remove_of_get hagain
  have hpicked : ∀ t, single.make = .ok t → t.root.Nonzero := by
    intro t ht
    rw [hbase] at ht
    cases ht
    exact hnonzero
  have hzero : detour.Nonzero := ⟨⟨trivial, hpicked⟩, ⟨trivial, hpicked⟩⟩
  have hviews : (merge (cherryPick single [far]) (cherryPick single [far, Blob.zero])).make =
      .ok both :=
    except_bind_eq_ok.mpr ⟨left, except_bind_eq_ok.mpr ⟨base, hbase, hleft⟩,
      except_bind_eq_ok.mpr ⟨right, except_bind_eq_ok.mpr ⟨base, hbase, hright⟩, hmerge⟩⟩
  have hmake : detour.make = .ok last :=
    except_bind_eq_ok.mpr ⟨more, except_bind_eq_ok.mpr ⟨both, hviews, hput⟩,
      except_bind_eq_ok.mpr ⟨_, hremove, rfl⟩⟩
  exact ⟨last, hmake, hzero, orderly_of_make hmake hzero⟩

/-! ## Picks and merges -/

/-- Picking keeps the root hash; what is picked for two lists of keys merges, either way
round, to what is picked for both together; merging with the whole gives the whole; and the
leaves of what is picked are those under the keys.  Tries with different root hashes do not
merge. -/
theorem union_of_cherryPick {r : Recipe} {t left right : Trie} {keys others : List Hash}
    (h : r.make = .ok t) (hzero : t.root.Nonzero) (hleft : t.cherryPick keys = .ok left)
    (hright : t.cherryPick others = .ok right) :
    left.rootHash = t.rootHash ∧ right.rootHash = t.rootHash ∧
      (∃ both, t.cherryPick (keys ++ others) = .ok both ∧ left.merge right = .ok both ∧
        right.merge left = .ok both) ∧
      left.merge t = .ok t ∧ t.merge t = .ok t ∧
      left.leaves = t.leaves.filter (fun entry => entry.1 ∈ keys) ∧
      ∀ u v : Trie, u.rootHash ≠ v.rootHash →
        u.merge v = .error (.rootMismatch u.rootHash v.rootHash) := by
  have hregular := regular_of_make h
  have hviews : left.root.Views t.root :=
    (picked_of_cherryPick hleft).views (hregular.nonzeroBeside hzero _)
  refine ⟨(picked_of_cherryPick hleft).hash_eq, (picked_of_cherryPick hright).hash_eq,
    exists_union hregular hzero hleft hright, merge_of_merged hviews.merged,
    merge_of_merged (Node.Views.refl t.root).merged, leaves_cherryPick hregular hleft, ?_⟩
  intro u v hne
  exact merge_of_ne hne

/-- A pick that leaves out the value, and one that shows it. -/
theorem union_of_cherryPick_single : ∃ t left right, single.make = .ok t ∧ t.root.Nonzero ∧
    t.cherryPick [far] = .ok left ∧ t.cherryPick [Blob.zero] = .ok right ∧
      left.rootHash = t.rootHash ∧ right.rootHash = t.rootHash ∧
      (∃ both, t.cherryPick ([far] ++ [Blob.zero]) = .ok both ∧ left.merge right = .ok both ∧
        right.merge left = .ok both) ∧
      left.merge t = .ok t ∧ t.merge t = .ok t ∧
      left.leaves = t.leaves.filter (fun entry => entry.1 ∈ [far]) ∧
      ∀ u v : Trie, u.rootHash ≠ v.rootHash →
        u.merge v = .error (.rootMismatch u.rootHash v.rootHash) := by
  obtain ⟨t, hmake, hnonzero, hknown, -⟩ := exists_single
  obtain ⟨left, hleft⟩ := exists_cherryPick_of_get fun key (_ : key ∈ [far]) => hknown key
  obtain ⟨right, hright⟩ := exists_cherryPick_of_get fun key (_ : key ∈ [Blob.zero]) => hknown key
  exact ⟨t, left, right, hmake, hnonzero, hleft, hright,
    union_of_cherryPick hmake hnonzero hleft hright⟩

end Recipe

end Trie

end ScriptLedger
