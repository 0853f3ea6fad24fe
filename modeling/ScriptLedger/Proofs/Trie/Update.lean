import Mathlib
import ScriptLedger.Proofs.Sequencing
import ScriptLedger.Trie.Basic

/-!
# What an update of a trie does

A node is looked at through its children: `Node.childrenAt` gives sixteen of
them for a branch and for the empty subtrie alike.  Reading a key and listing
the leaves are each one equation in these children, and putting a value replaces
one of them (`Node.childrenAt_put`).  Everything below follows by induction on
the path.

What an update keeps is a property that passes from a branch to its children and
back to a branch that is made anew (`Node.Hereditary`), as being fully known is.

## Main results

* `Trie.get_put` — putting a value changes the answer at its key and no other.
* `Trie.leaves_put` — in the list of leaves, the entry of the key is replaced,
  or inserted if there was none.
* `Trie.hereditary_put`, `Trie.hereditary_remove` — updates keep what is hereditary.
* `Trie.fullyKnown_put` — an update forgets nothing.
* `Trie.mem_leaves_of_get` — a value that is found is among the leaves.
-/

namespace ScriptLedger

open Sequencing

namespace Node

/-- No subtrie is known by its hash alone. -/
def FullyKnown : Node → Prop
  | .empty => True
  | .leaf _ => True
  | .branch _ children => ∀ i, (children i).FullyKnown
  | .unknown _ => False

/-! ## A node through its children -/

section Children

variable {depth : Nat} {node : Node} {children : Nibble → Node}

theorem get_cons_of_childrenAt (h : node.childrenAt depth = .ok children) (i : Nibble)
    (rest : Path) : get depth (i :: rest) node = get (depth + 1) rest (children i) := by
  cases node with
  | empty =>
      cases h
      cases rest <;> rfl
  | branch hash below => cases h; rfl
  | leaf value => cases h
  | unknown hash => cases h

theorem leaves_succ_of_childrenAt (h : node.childrenAt depth = .ok children) (levels : Nat) :
    node.leaves (levels + 1) = (List.finRange 16).flatMap fun i =>
      ((children i).leaves levels).map fun (path, value) => (i :: path, value) := by
  cases node with
  | empty =>
      cases h
      have hnone : (Node.empty).leaves levels = [] := by cases levels <;> rfl
      simp [leaves, hnone]
  | branch hash below => cases h; rfl
  | leaf value => cases h
  | unknown hash => cases h

end Children

theorem getElem_replaceChild (children : Nibble → Node) (i : Nibble) (child : Node) (j : Nibble) :
    getElem (replaceChild children i child) j j.isLt = if j = i then child else children j := by
  simp [replaceChild]

theorem all_isEmpty_iff {children : Vector Node 16} :
    children.toList.all isEmpty = true ↔
      ∀ i : Nibble, (getElem children i i.isLt).isEmpty = true := by
  rw [List.all_eq_true]
  constructor
  · intro h i
    exact h _ (by simp)
  · intro h child hmem
    obtain ⟨i, hi, rfl⟩ := Vector.mem_iff_getElem.mp (Vector.mem_toList_iff.mp hmem)
    exact h ⟨i, hi⟩

/-- A branch that has a child in it is never collapsed. -/
theorem ofChildren_replaceChild_eq {child : Node} (h : child.isEmpty = false)
    (children : Nibble → Node) (i : Nibble) :
    ofChildren (replaceChild children i child) =
      .branch (hashOfChildren fun j => if j = i then child.hash else (children j).hash)
        fun j => if j = i then child else children j := by
  have hsome : ¬ ((replaceChild children i child).toList.all isEmpty = true) := by
    intro hall
    have hchild := all_isEmpty_iff.mp hall i
    rw [getElem_replaceChild, if_pos rfl, h] at hchild
    cases hchild
  simp only [ofChildren, if_neg hsome, withHash, getElem_replaceChild, apply_ite Node.hash]

theorem ofChildren_replaceChild {child : Node} (h : child.isEmpty = false)
    (children : Nibble → Node) (i : Nibble) :
    ∃ hash, ofChildren (replaceChild children i child) =
      .branch hash fun j => if j = i then child else children j :=
  ⟨_, ofChildren_replaceChild_eq h children i⟩

/-! ## Putting a value -/

variable {depth : Nat} {value : Hash} {node : Node} {result : Option Node}

/-- Below a node the value is put into the child on the way, and the node is
made again if that child changed. -/
theorem put_cons_eq_ok {i : Nibble} {rest : Path}
    (h : put depth value (i :: rest) node = .ok result) :
    ∃ children child?, node.childrenAt depth = .ok children ∧
      put (depth + 1) value rest (children i) = .ok child? ∧
      result = child?.map fun child => ofChildren (replaceChild children i child) := by
  simp only [put] at h
  obtain ⟨children, hc, h⟩ := except_bind_eq_ok.mp h
  obtain ⟨child?, hp, h⟩ := except_bind_eq_ok.mp h
  cases h
  exact ⟨children, child?, hc, hp, rfl⟩

theorem put_cons_of_childrenAt {children : Nibble → Node} (h : node.childrenAt depth = .ok children)
    (i : Nibble) (rest : Path) :
    put depth value (i :: rest) node = (put (depth + 1) value rest (children i)).map fun child? =>
      child?.map fun child => ofChildren (replaceChild children i child) := by
  rw [put, h]
  rfl

theorem isEmpty_of_put {path : Path} {node' : Node}
    (h : put depth value path node = .ok (some node')) : node'.isEmpty = false := by
  induction path generalizing depth node node' with
  | nil =>
      simp only [put, Except.ok.injEq] at h
      split at h
      · cases h
      · cases h; rfl
  | cons i rest ih =>
      obtain ⟨children, child?, -, hp, hresult⟩ := put_cons_eq_ok h
      obtain ⟨child, rfl, rfl⟩ := Option.map_eq_some_iff.mp hresult.symm
      obtain ⟨hash, heq⟩ := ofChildren_replaceChild (ih hp) children i
      rw [heq]; rfl

/-- Putting a value below a node replaces the child on the way. -/
theorem childrenAt_put {i : Nibble} {rest : Path}
    (h : put depth value (i :: rest) node = .ok result) :
    ∃ children child?, node.childrenAt depth = .ok children ∧
      put (depth + 1) value rest (children i) = .ok child? ∧
      (result.getD node).childrenAt depth =
        .ok fun j => if j = i then child?.getD (children i) else children j := by
  obtain ⟨children, child?, hc, hp, rfl⟩ := put_cons_eq_ok h
  refine ⟨children, child?, hc, hp, ?_⟩
  cases child? with
  | none =>
      have hsame : (fun j => if j = i then children i else children j) = children := by
        funext j
        by_cases hj : j = i
        · rw [if_pos hj, hj]
        · rw [if_neg hj]
      simp only [Option.map_none, Option.getD_none, hc, hsame]
  | some child =>
      obtain ⟨hash, heq⟩ := ofChildren_replaceChild (isEmpty_of_put hp) children i
      simp only [Option.map_some, Option.getD_some, heq]
      rfl

/-- Putting a value changes the answer at the end of its path and no other. -/
theorem get_put {path : Path} (h : put depth value path node = .ok result) {q : Path}
    (hlen : q.length = path.length) :
    get depth q (result.getD node) =
      if q = path then .ok (some value) else get depth q node := by
  induction path generalizing depth node result q with
  | nil =>
      have hq : q = [] := List.length_eq_zero_iff.mp hlen
      subst hq
      simp only [put, Except.ok.injEq] at h
      subst h
      by_cases hnode : node = .leaf value
      · simp [hnode, get]
      · simp [hnode, get]
  | cons i rest ih =>
      obtain ⟨children, child?, hc, hp, hafter⟩ := childrenAt_put h
      cases q with
      | nil => cases hlen
      | cons j qs =>
          rw [get_cons_of_childrenAt hafter, get_cons_of_childrenAt hc]
          by_cases hj : j = i
          · subst hj
            rw [if_pos rfl, ih hp (by simpa using hlen)]
            simp only [List.cons.injEq, true_and]
          · rw [if_neg hj, if_neg (by simp [hj])]

/-- The children before and after one of them. -/
private theorem finRange_split (i : Nibble) :
    ∃ before after, List.finRange 16 = before ++ i :: after ∧ i ∉ before ∧ i ∉ after := by
  obtain ⟨before, after, h⟩ := List.append_of_mem (List.mem_finRange i)
  have hnodup := List.nodup_finRange 16
  rw [h, List.nodup_append, List.nodup_cons] at hnodup
  refine ⟨before, after, h, ?_, hnodup.2.1.1⟩
  intro hi
  exact hnodup.2.2 i hi i List.mem_cons_self rfl

/-- In the list of leaves, an update replaces the entry of its path, or inserts
one if there was none. -/
theorem leaves_put {path : Path} (h : put depth value path node = .ok result) :
    ∃ before entry after,
      node.leaves path.length = before ++ entry ++ after ∧
      (result.getD node).leaves path.length = before ++ (path, value) :: after ∧
      ∀ found, get depth path node = .ok found → entry = found.toList.map (path, ·) := by
  induction path generalizing depth node result with
  | nil =>
      refine ⟨[], node.leaves 0, [], ?_, ?_, ?_⟩
      · simp
      · simp only [put, Except.ok.injEq] at h
        subst h
        by_cases hnode : node = .leaf value
        · simp [hnode, leaves]
        · simp [hnode, leaves]
      · intro found hget
        cases node <;> cases hget <;> rfl
  | cons i rest ih =>
      obtain ⟨children, child?, hc, hp, hafter⟩ := childrenAt_put h
      obtain ⟨inner, entry, inner', hold, hnew, hentry⟩ := ih hp
      obtain ⟨first, last, hsplit, hfirst, hlast⟩ := finRange_split i
      let below (j : Nibble) : List (Path × Hash) :=
        ((children j).leaves rest.length).map fun (path, value) => (j :: path, value)
      have hbeside : ∀ js : List Nibble, i ∉ js →
          (js.flatMap fun j =>
            ((if j = i then child?.getD (children i) else children j).leaves rest.length).map
              fun (path, value) => (j :: path, value)) = js.flatMap below := by
        intro js hjs
        refine List.flatMap_congr fun j hj => ?_
        have hne : j ≠ i := fun heq => hjs (heq ▸ hj)
        simp only [if_neg hne, below]
      refine ⟨first.flatMap below ++ inner.map (fun (path, value) => (i :: path, value)),
        entry.map (fun (path, value) => (i :: path, value)),
        inner'.map (fun (path, value) => (i :: path, value)) ++ last.flatMap below, ?_, ?_, ?_⟩
      · rw [List.length_cons, leaves_succ_of_childrenAt hc, hsplit]
        simp [hold, below]
      · rw [List.length_cons, leaves_succ_of_childrenAt hafter, hsplit,
          List.flatMap_append, List.flatMap_cons, hbeside first hfirst, hbeside last hlast]
        simp [hnew]
      · intro found hget
        rw [get_cons_of_childrenAt hc] at hget
        rw [hentry found hget, List.map_map]
        rfl

/-- A value that is found at the end of a path is among the leaves. -/
theorem mem_leaves_of_get {path : Path} {found : Hash}
    (h : get depth path node = .ok (some found)) : (path, found) ∈ node.leaves path.length := by
  induction path generalizing depth node with
  | nil => cases node <;> cases h; exact List.mem_singleton_self _
  | cons i rest ih =>
      cases node with
      | branch hash children =>
          rw [List.length_cons, leaves, List.mem_flatMap]
          exact ⟨i, List.mem_finRange i, List.mem_map.mpr ⟨(rest, found), ih h, rfl⟩⟩
      | empty => cases h
      | leaf v => cases h
      | unknown hash => cases h

/-! ## What updates keep -/

/-- Below a branch the value is taken out of the child on the way, and the branch is made
again if that child changed. -/
theorem remove_cons_eq_ok {depth : Nat} {hash : Hash} {children : Nibble → Node} {i : Nibble}
    {rest : Path} {result : Option Node}
    (h : remove depth (i :: rest) (.branch hash children) = .ok result) :
    ∃ child?, remove (depth + 1) rest (children i) = .ok child? ∧
      result = child?.map fun child => ofChildren (replaceChild children i child) := by
  obtain ⟨child?, hremove, h⟩ := except_bind_eq_ok.mp h
  cases h
  exact ⟨child?, hremove, rfl⟩

/-- A property of nodes, by the levels that are left below them, that the empty subtrie has,
that a branch passes on to its children, and that a branch made anew takes over from them. -/
structure Hereditary (P : Nat → Node → Prop) : Prop where
  empty : ∀ levels, P levels .empty
  child : ∀ {levels : Nat} {hash : Hash} {children : Nibble → Node},
    P (levels + 1) (.branch hash children) → ∀ i, P levels (children i)
  branch : ∀ {levels : Nat} {children : Nibble → Node}, (∀ i, P levels (children i)) →
    (∃ i, (children i).isEmpty = false) →
      P (levels + 1) (.branch (hashOfChildren fun i => (children i).hash) children)

namespace Hereditary

variable {P : Nat → Node → Prop} {depth : Nat} {value : Hash} {path : Path} {node : Node}
variable {result : Option Node} (hP : Hereditary P)

include hP

theorem childrenAt (levels : Nat) {children : Nibble → Node}
    (h : node.childrenAt depth = .ok children) (hnode : P (levels + 1) node) (i : Nibble) :
    P levels (children i) := by
  cases node with
  | empty => cases h; exact hP.empty levels
  | branch hash below => cases h; exact hP.child hnode i
  | leaf value => cases h
  | unknown hash => cases h

theorem ofChildren {levels : Nat} {children : Vector Node 16}
    (h : ∀ i : Nibble, P levels (getElem children i i.isLt)) :
    P (levels + 1) (Node.ofChildren children) := by
  unfold Node.ofChildren
  by_cases hall : children.toList.all isEmpty = true
  · rw [if_pos hall]
    exact hP.empty _
  · rw [if_neg hall]
    refine hP.branch h ?_
    rw [all_isEmpty_iff] at hall
    push Not at hall
    obtain ⟨i, hi⟩ := hall
    exact ⟨i, Bool.eq_false_iff.mpr hi⟩

/-- A child that has the property may take the place of another one. -/
theorem replaceChild {levels : Nat} {children : Nibble → Node} {child : Node}
    (h : ∀ i, P levels (children i)) (hchild : P levels child) (i : Nibble) :
    P (levels + 1) (Node.ofChildren (Node.replaceChild children i child)) := by
  refine hP.ofChildren fun j => ?_
  rw [getElem_replaceChild]
  by_cases hj : j = i
  · rw [if_pos hj]
    exact hchild
  · rw [if_neg hj]
    exact h j

/-- Putting a value keeps the property. -/
theorem put (hleaf : P 0 (.leaf value)) (h : Node.put depth value path node = .ok result)
    (hnode : P path.length node) : P path.length (result.getD node) := by
  induction path generalizing depth node result with
  | nil =>
      simp only [Node.put, Except.ok.injEq] at h
      subst h
      by_cases hsame : node = .leaf value
      · rw [if_pos hsame]
        exact hnode
      · rw [if_neg hsame]
        exact hleaf
  | cons i rest ih =>
      obtain ⟨children, child?, hc, hp, hresult⟩ := put_cons_eq_ok h
      have hbelow := hP.childrenAt rest.length hc hnode
      subst hresult
      cases child? with
      | none => exact hnode
      | some child =>
          rw [Option.map_some, Option.getD_some]
          exact hP.replaceChild hbelow (ih hp (hbelow i)) i

/-- Taking a value away keeps the property. -/
theorem remove (h : Node.remove depth path node = .ok result) (hnode : P path.length node) :
    P path.length (result.getD node) := by
  induction path generalizing depth node result with
  | nil =>
      cases node with
      | empty => cases h; exact hnode
      | leaf value => cases h; exact hP.empty 0
      | branch hash children => cases h
      | unknown hash => cases h
  | cons i rest ih =>
      cases node with
      | empty => cases h; exact hnode
      | leaf value => cases h
      | unknown hash => cases h
      | branch hash children =>
          obtain ⟨child?, hremove, hresult⟩ := remove_cons_eq_ok h
          have hbelow := hP.child hnode
          subst hresult
          cases child? with
          | none => exact hnode
          | some child =>
              rw [Option.map_some, Option.getD_some]
              exact hP.replaceChild hbelow (ih hremove (hbelow i)) i

end Hereditary

theorem hereditary_fullyKnown : Hereditary fun _ node => node.FullyKnown where
  empty _ := trivial
  child h := h
  branch h _ := h

/-! ## Where a lookup succeeds -/

theorem exists_childrenAt_of_get {i : Nibble} {rest : Path} {found : Option Hash}
    (h : get depth (i :: rest) node = .ok found) :
    ∃ children, node.childrenAt depth = .ok children ∧
      get (depth + 1) rest (children i) = .ok found := by
  have hchildren : ∃ children, node.childrenAt depth = .ok children := by
    cases node with
    | empty => exact ⟨_, rfl⟩
    | branch hash children => exact ⟨_, rfl⟩
    | leaf value => cases h
    | unknown hash => cases h
  obtain ⟨children, hchildren⟩ := hchildren
  rw [get_cons_of_childrenAt hchildren] at h
  exact ⟨children, hchildren, h⟩

/-- Where a lookup has an answer a value can be put. -/
theorem exists_put_of_get {path : Path} {found : Option Hash}
    (h : get depth path node = .ok found) (value : Hash) :
    ∃ result, put depth value path node = .ok result := by
  induction path generalizing depth node with
  | nil => exact ⟨_, rfl⟩
  | cons i rest ih =>
      obtain ⟨children, hchildren, hget⟩ := exists_childrenAt_of_get h
      obtain ⟨child?, hput⟩ := ih hget
      exact ⟨_, by rw [put_cons_of_childrenAt hchildren, hput]; rfl⟩

/-- Putting what is there already changes nothing. -/
theorem put_of_get {path : Path} (h : get depth path node = .ok (some value)) :
    put depth value path node = .ok none := by
  induction path generalizing depth node with
  | nil =>
      cases node <;> cases h
      simp [put]
  | cons i rest ih =>
      cases node with
      | branch hash children =>
          have hchildren : (Node.branch hash children).childrenAt depth = .ok children := rfl
          rw [put_cons_of_childrenAt hchildren, ih h]
          rfl
      | _ => cases h

/-- Where a lookup has an answer the value can be taken away, if there is one. -/
theorem exists_remove_of_get {path : Path} {found : Option Hash}
    (h : get depth path node = .ok found) :
    ∃ result, remove depth path node = .ok result ∧ result.isSome = found.isSome := by
  induction path generalizing depth node with
  | nil =>
      cases node with
      | empty => cases h; exact ⟨none, rfl, rfl⟩
      | leaf value => cases h; exact ⟨some .empty, rfl, rfl⟩
      | branch hash children => cases h
      | unknown hash => cases h
  | cons i rest ih =>
      cases node with
      | empty => cases h; exact ⟨none, rfl, rfl⟩
      | leaf value => cases h
      | unknown hash => cases h
      | branch hash children =>
          obtain ⟨child?, hremove, hsome⟩ := ih h
          refine ⟨_, by rw [remove, hremove]; rfl, ?_⟩
          rw [Option.isSome_map]
          exact hsome

end Node

/-! ## Tries -/

namespace Trie

variable {t t' : Trie} {key value : Hash}

/-- The whole content of a trie is at hand. -/
def FullyKnown (t : Trie) : Prop := t.root.FullyKnown

theorem ofHash_inj {p q : Hash} : Path.ofHash p = Path.ofHash q ↔ p = q := by
  constructor
  · intro h
    rw [← Path.toHash_ofHash p, h, Path.toHash_ofHash]
  · rintro rfl; rfl

/-- A put that succeeds puts a node in place of the root. -/
theorem put_eq_ok (h : t.put key value = .ok t') :
    value ≠ Blob.zero ∧ ∃ result, t.root.put 0 value (Path.ofHash key) = .ok result ∧
      t' = ⟨result.getD t.root⟩ := by
  unfold put at h
  by_cases hzero : value.isZero = true
  · rw [if_pos hzero] at h
    cases h
  · rw [if_neg hzero] at h
    obtain ⟨result, hput, heq⟩ := except_map_eq_ok.mp h
    exact ⟨fun hvalue => hzero (Blob.isZero_iff.mpr hvalue), result, hput, heq.symm⟩

/-- So does a removal, and it tells whether there is another node. -/
theorem remove_eq_ok {removed : Bool} (h : t.remove key = .ok (t', removed)) :
    ∃ result, t.root.remove 0 (Path.ofHash key) = .ok result ∧ t' = ⟨result.getD t.root⟩ ∧
      removed = result.isSome := by
  obtain ⟨result, hremove, heq⟩ := except_map_eq_ok.mp h
  refine ⟨result, hremove, ?_⟩
  cases result with
  | none => cases heq; exact ⟨rfl, rfl⟩
  | some node => cases heq; exact ⟨rfl, rfl⟩

theorem exists_put_of_get {found : Option Hash} (h : t.get key = .ok found)
    (hvalue : value ≠ Blob.zero) : ∃ u, t.put key value = .ok u := by
  obtain ⟨result, hput⟩ := Node.exists_put_of_get h value
  have hnonzero : ¬ value.isZero = true := fun heq => hvalue (Blob.isZero_iff.mp heq)
  exact ⟨_, by rw [put, if_neg hnonzero, hput]; rfl⟩

/-- Putting what is there already changes nothing. -/
theorem put_of_get (h : t.get key = .ok (some value)) (hvalue : value ≠ Blob.zero) :
    t.put key value = .ok t := by
  have hnonzero : ¬ value.isZero = true := fun heq => hvalue (Blob.isZero_iff.mp heq)
  rw [put, if_neg hnonzero, Node.put_of_get h]
  rfl

theorem exists_remove_of_get {found : Option Hash} (h : t.get key = .ok found) :
    ∃ u, t.remove key = .ok (u, found.isSome) := by
  obtain ⟨result, hremove, hsome⟩ := Node.exists_remove_of_get h
  rw [remove, hremove, ← hsome]
  cases result with
  | none => exact ⟨_, rfl⟩
  | some node => exact ⟨_, rfl⟩

section Hereditary

variable {P : Nat → Node → Prop} (hP : Node.Hereditary P)

include hP

theorem hereditary_put (hleaf : value ≠ Blob.zero → P 0 (.leaf value))
    (h : t.put key value = .ok t') (ht : P trieDepth t.root) : P trieDepth t'.root := by
  obtain ⟨hvalue, result, hput, rfl⟩ := put_eq_ok h
  rw [← Path.length_ofHash key] at ht ⊢
  exact hP.put (hleaf hvalue) hput ht

theorem hereditary_remove {removed : Bool} (h : t.remove key = .ok (t', removed))
    (ht : P trieDepth t.root) : P trieDepth t'.root := by
  obtain ⟨result, hremove, rfl, -⟩ := remove_eq_ok h
  rw [← Path.length_ofHash key] at ht ⊢
  exact hP.remove hremove ht

end Hereditary

theorem get_put (h : t.put key value = .ok t') (other : Hash) :
    t'.get other = if other = key then .ok (some value) else t.get other := by
  obtain ⟨-, result, hput, rfl⟩ := put_eq_ok h
  rw [get, Node.get_put hput (by simp), get]
  simp only [ofHash_inj]

theorem fullyKnown_put (h : t.put key value = .ok t') (hknown : t.FullyKnown) :
    t'.FullyKnown :=
  hereditary_put Node.hereditary_fullyKnown (fun _ => trivial) h hknown

theorem leaves_put (h : t.put key value = .ok t') :
    ∃ before entry after, t.leaves = before ++ entry ++ after ∧
      t'.leaves = before ++ (key, value) :: after ∧
      ∀ found, t.get key = .ok found → entry = found.toList.map (key, ·) := by
  obtain ⟨-, result, hput, rfl⟩ := put_eq_ok h
  obtain ⟨before, entry, after, hold, hnew, hentry⟩ := Node.leaves_put hput
  rw [Path.length_ofHash] at hold hnew
  refine ⟨before.map fun (path, value) => (path.toHash, value),
    entry.map fun (path, value) => (path.toHash, value),
    after.map fun (path, value) => (path.toHash, value), ?_, ?_, ?_⟩
  · simp [leaves, hold]
  · simp [leaves, hnew]
  · intro found hget
    rw [hentry found hget, List.map_map]
    simp

theorem mem_leaves_of_get {found : Hash} (h : t.get key = .ok (some found)) :
    (key, found) ∈ t.leaves := by
  have hmem := Node.mem_leaves_of_get h
  rw [Path.length_ofHash] at hmem
  exact List.mem_map.mpr ⟨(Path.ofHash key, found), hmem, by simp⟩

end Trie

end ScriptLedger
