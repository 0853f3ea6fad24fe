import ScriptLedger.Proofs.Trie.Commitment

/-!
# Canonical tries

Updates leave no branch behind that holds nothing.  So a trie that was made by updates has
one shape for what it holds: a node is empty or has a value somewhere below it, and two
nodes that answer alike are the same.

On such nodes reading never fails and both updates are one: `Node.assign` replaces what is
found at the end of a path by something or by nothing.  Putting what is already there, and
removing what is not there, give the node itself, which is why the updates may stop early.

## Main results

* `Node.put_eq`, `Node.remove_eq` — the two updates assign.
* `Node.find_assign` — an assignment changes the answer at its path and no other.
* `Node.assign_find` — assigning what is found changes nothing.
* `Node.eq_of_find_eq`, `Trie.eq_of_find_eq` — a canonical trie is determined by its answers.
-/

namespace ScriptLedger

open Sequencing

namespace Node

/-! ## Reading and assigning without failure -/

/-- The children of a node; anything but a branch has sixteen empty ones. -/
def child : Node → Nibble → Node
  | .branch _ children => children
  | _ => fun _ => .empty

/-- The value at the end of a path. -/
def find : Path → Node → Option Hash
  | [], .leaf value => some value
  | [], _ => none
  | i :: rest, node => find rest (node.child i)

/-- The leaf of a value, or the empty subtrie. -/
def ofValue : Option Hash → Node
  | some value => .leaf value
  | none => .empty

/-- The node with what is at the end of a path replaced. -/
def assign (value? : Option Hash) : Path → Node → Node
  | [], _ => ofValue value?
  | i :: rest, node =>
    ofChildren (replaceChild node.child i (assign value? rest (node.child i)))

theorem isEmpty_iff {node : Node} : node.isEmpty = true ↔ node = .empty := by
  cases node <;> simp [isEmpty]

@[simp] theorem find_empty (path : Path) : find path .empty = none := by
  induction path with
  | nil => rfl
  | cons i rest ih => exact ih

/-- Replacing a child by itself changes nothing. -/
theorem replaceChild_self (children : Nibble → Node) (i : Nibble) :
    replaceChild children i (children i) = Vector.ofFn children := by
  unfold replaceChild
  congr 1
  funext j
  by_cases hj : j = i
  · rw [if_pos hj, hj]
  · rw [if_neg hj]

/-- A branch that is collapsed had empty children only. -/
theorem child_ofChildren (children : Vector Node 16) (i : Nibble) :
    (ofChildren children).child i = getElem children i i.isLt := by
  unfold ofChildren
  by_cases hall : children.toList.all isEmpty = true
  · rw [if_pos hall]
    exact (isEmpty_iff.mp (all_isEmpty_iff.mp hall i)).symm
  · rw [if_neg hall]
    rfl

theorem find_assign (value? : Option Hash) {path q : Path} (node : Node)
    (hlen : q.length = path.length) :
    find q (assign value? path node) = if q = path then value? else find q node := by
  induction path generalizing node q with
  | nil =>
      have hq : q = [] := List.length_eq_zero_iff.mp hlen
      rw [hq, if_pos rfl]
      cases value? <;> rfl
  | cons i rest ih =>
      cases q with
      | nil => cases hlen
      | cons j qs =>
          rw [assign, find, child_ofChildren, getElem_replaceChild, find]
          by_cases hj : j = i
          · rw [if_pos hj, ih _ (by simpa using hlen), hj]
            simp only [List.cons.injEq, true_and]
          · rw [if_neg hj, if_neg (by simp [hj])]

/-! ## Canonical nodes -/

/-- A node as updates leave it: it is formed, and every branch has a child that is not
empty. -/
inductive Canonical : Nat → Node → Prop
  | empty (levels : Nat) : Canonical levels .empty
  | leaf {value : Hash} (hvalue : value ≠ Blob.zero) : Canonical 0 (.leaf value)
  | branch {levels : Nat} {hash : Hash} {children : Nibble → Node}
      (hhash : hash = hashOfChildren fun i => (children i).hash)
      (hchildren : ∀ i, Canonical levels (children i))
      (hsome : ∃ i, (children i).isEmpty = false) : Canonical (levels + 1) (.branch hash children)

variable {depth levels : Nat} {n m : Node} {path : Path} {value : Hash}

namespace Canonical

theorem hereditary : Hereditary Canonical where
  empty := .empty
  child h i := by
    cases h with
    | branch _ hchildren _ => exact hchildren i
  branch h hsome := .branch rfl h hsome

theorem formed (h : n.Canonical levels) : n.Formed levels := by
  induction h with
  | empty levels => exact .empty levels
  | leaf hvalue => exact .leaf hvalue
  | branch hhash _ _ ih => exact .branch hhash ih

theorem child (h : n.Canonical (levels + 1)) (i : Nibble) : (n.child i).Canonical levels := by
  cases h with
  | empty => exact .empty levels
  | branch _ hchildren _ => exact hchildren i

theorem ofValue {value? : Option Hash} (h : ∀ value, value? = some value → value ≠ Blob.zero) :
    (Node.ofValue value?).Canonical 0 := by
  cases value? with
  | none => exact .empty 0
  | some value => exact .leaf (h value rfl)

theorem assign (h : n.Canonical path.length) {value? : Option Hash}
    (hvalue : ∀ value, value? = some value → value ≠ Blob.zero) :
    (Node.assign value? path n).Canonical path.length := by
  induction path generalizing n with
  | nil => exact ofValue hvalue
  | cons i rest ih =>
      exact hereditary.replaceChild h.child (ih (h.child i)) i

end Canonical

/-- A canonical node is made again from its children. -/
theorem ofChildren_child (h : n.Canonical (levels + 1)) :
    ofChildren (Vector.ofFn n.child) = n := by
  have hgetElem : ∀ i : Nibble, (Vector.ofFn n.child)[i] = n.child i := fun i => by simp
  cases h with
  | empty =>
      have hall : (Vector.ofFn Node.empty.child).toList.all isEmpty = true :=
        all_isEmpty_iff.mpr fun i => by rw [hgetElem]; rfl
      rw [ofChildren, if_pos hall]
  | @branch _ hash children hhash _ hsome =>
      obtain ⟨i, hi⟩ := hsome
      have hmade := ofChildren_replaceChild_eq hi children i
      rw [replaceChild_self] at hmade
      have hsame : (fun j => if j = i then children i else children j) = children := by
        funext j
        by_cases hj : j = i
        · rw [if_pos hj, hj]
        · rw [if_neg hj]
      have hhashes : (fun j => if j = i then (children i).hash else (children j).hash) =
          fun j => (children j).hash := by
        funext j
        by_cases hj : j = i
        · rw [if_pos hj, hj]
        · rw [if_neg hj]
      rw [hsame, hhashes, ← hhash] at hmade
      exact hmade

/-- Assigning what is found changes nothing. -/
theorem assign_find (h : n.Canonical path.length) : assign (find path n) path n = n := by
  induction path generalizing n with
  | nil => cases h <;> rfl
  | cons i rest ih =>
      rw [find, assign, ih (h.child i), replaceChild_self]
      exact ofChildren_child h

/-! ## Reading and updating -/

theorem childrenAt_eq (h : n.Canonical (levels + 1)) (depth : Nat) :
    n.childrenAt depth = .ok n.child := by
  cases h <;> rfl

theorem get_eq (h : n.Canonical path.length) (depth : Nat) :
    get depth path n = .ok (find path n) := by
  induction path generalizing n depth with
  | nil => cases h <;> rfl
  | cons i rest ih =>
      rw [get_cons_of_childrenAt (childrenAt_eq h depth), ih (h.child i), find]

/-- Putting a value assigns it, unless it is there. -/
theorem put_eq (h : n.Canonical path.length) (depth : Nat) (value : Hash) :
    put depth value path n =
      .ok (if find path n = some value then none else some (assign (some value) path n)) := by
  induction path generalizing n depth with
  | nil =>
      have hfound : n = .leaf value ↔ find [] n = some value := by
        cases h <;> simp [find]
      simp only [put, hfound]
      rfl
  | cons i rest ih =>
      simp only [put, childrenAt_eq h depth, ih (h.child i), bind, Except.bind, pure, Except.pure]
      by_cases hfound : find rest (n.child i) = some value
      · have hhere : find (i :: rest) n = some value := hfound
        rw [if_pos hfound, if_pos hhere, Option.map_none]
      · have hhere : find (i :: rest) n ≠ some value := hfound
        rw [if_neg hfound, if_neg hhere, Option.map_some, assign]

/-- Removing takes away what is found, if there is something. -/
theorem remove_eq (h : n.Canonical path.length) (depth : Nat) :
    remove depth path n =
      .ok (if find path n = none then none else some (assign none path n)) := by
  induction path generalizing n depth with
  | nil => cases h <;> rfl
  | cons i rest ih =>
      cases h with
      | empty =>
          rw [find_empty, if_pos rfl]
          rfl
      | @branch _ hash children _ hchildren _ =>
          simp only [remove, ih (hchildren i), bind, Except.bind, pure, Except.pure]
          by_cases hfound : find rest (children i) = none
          · have hhere : find (i :: rest) (.branch hash children) = none := hfound
            rw [if_pos hfound, if_pos hhere, Option.map_none]
          · have hhere : find (i :: rest) (.branch hash children) ≠ none := hfound
            rw [if_neg hfound, if_neg hhere, Option.map_some, assign]
            rfl

/-! ## Answers determine the node -/

theorem exists_find (h : n.Canonical levels) (hn : n.isEmpty = false) :
    ∃ path value, path.length = levels ∧ find path n = some value := by
  induction h with
  | empty => cases hn
  | @leaf value _ => exact ⟨[], value, rfl, rfl⟩
  | branch _ _ hsome ih =>
      obtain ⟨i, hi⟩ := hsome
      obtain ⟨rest, value, hlen, hfound⟩ := ih i hi
      exact ⟨i :: rest, value, congrArg Nat.succ hlen, hfound⟩

/-- A canonical node in which nothing is found is empty. -/
theorem eq_empty_of_find (h : n.Canonical levels)
    (hnone : ∀ path, path.length = levels → find path n = none) : n = .empty := by
  by_contra hne
  have hsome : n.isEmpty = false := Bool.eq_false_iff.mpr fun heq => hne (isEmpty_iff.mp heq)
  obtain ⟨path, value, hlen, hfound⟩ := exists_find h hsome
  rw [hnone path hlen] at hfound
  cases hfound

/-- Canonical nodes that answer alike are the same. -/
theorem eq_of_find_eq (hn : n.Canonical levels) (hm : m.Canonical levels)
    (h : ∀ path, path.length = levels → find path n = find path m) : n = m := by
  induction hn generalizing m with
  | empty levels =>
      refine (eq_empty_of_find hm fun path hlen => ?_).symm
      rw [← h path hlen, find_empty]
  | @leaf value hvalue =>
      have hsame := h [] rfl
      cases hm with
      | empty => cases hsame
      | leaf => cases hsame; rfl
  | @branch levels hash children hhash hchildren hsome ih =>
      cases hm with
      | empty =>
          refine eq_empty_of_find (.branch hhash hchildren hsome) fun path hlen => ?_
          rw [h path hlen, find_empty]
      | @branch _ hash' children' hhash' hchildren' _ =>
          have hsame : children = children' := by
            funext i
            exact ih i (hchildren' i) fun path hlen => h (i :: path) (congrArg Nat.succ hlen)
          rw [hhash, hhash', hsame]

end Node

/-! ## Keys -/

namespace Nibble

theorem split_ofNat (high low : Nibble) :
    split (UInt8.ofNat (16 * high.val + low.val)) = [high, low] := by
  have hlt : 16 * high.val + low.val < 256 := by omega
  have hbyte : (UInt8.ofNat (16 * high.val + low.val)).toNat = 16 * high.val + low.val := by
    rw [UInt8.toNat_ofNat', Nat.mod_eq_of_lt hlt]
  have hhigh : ofNat ((16 * high.val + low.val) / 16) = high := by
    refine Fin.ext ?_
    show (16 * high.val + low.val) / 16 % 16 = high.val
    omega
  have hlow : ofNat (16 * high.val + low.val) = low := by
    refine Fin.ext ?_
    show (16 * high.val + low.val) % 16 = low.val
    omega
  rw [split, hbyte, hhigh, hlow]

/-- Half bytes that come in pairs are those of the bytes they make. -/
theorem flatMap_split_join (count : Nat) {path : List Nibble} (h : path.length = 2 * count) :
    (join path).flatMap split = path := by
  induction count generalizing path with
  | zero =>
      rw [List.length_eq_zero_iff.mp h]
      rfl
  | succ count ih =>
      match path, h with
      | high :: low :: rest, h =>
        have hrest : rest.length = 2 * count := by
          simp only [List.length_cons] at h
          omega
        rw [join, List.flatMap_cons, split_ofNat, ih hrest]
        rfl

end Nibble

/-- Every path of full length is that of a key. -/
theorem Path.ofHash_toHash {path : Path} (h : path.length = trieDepth) :
    ofHash path.toHash = path := by
  have hsplit : (Nibble.join path).flatMap Nibble.split = path :=
    Nibble.flatMap_split_join 32 h
  have hlen : (Nibble.join path).length = Kind.hash.size := by
    have htotal := Nibble.length_flatMap_split (Nibble.join path)
    rw [hsplit, show path.length = 64 from h] at htotal
    show (Nibble.join path).length = 32
    omega
  have hmade : Blob.ofList .hash (Nibble.join path) =
      .ok ⟨⟨(Nibble.join path).toArray, by simpa using hlen⟩⟩ := dif_pos hlen
  rw [ofHash, toHash, hmade]
  exact (congrArg (List.flatMap Nibble.split) (Blob.toList_of_ofList hmade)).trans hsplit

/-! ## Tries -/

namespace Trie

variable {t u : Trie} {key value : Hash}

/-- The trie is as updates leave it. -/
def Canonical (t : Trie) : Prop := t.root.Canonical trieDepth

/-- The value under a key. -/
def find (t : Trie) (key : Hash) : Option Hash := t.root.find (Path.ofHash key)

/-- The trie with what is under a key replaced. -/
def assign (t : Trie) (key : Hash) (value? : Option Hash) : Trie :=
  ⟨t.root.assign value? (Path.ofHash key)⟩

theorem canonical_empty : Trie.empty.Canonical := .empty trieDepth

theorem Canonical.formed (h : t.Canonical) : t.Formed := Node.Canonical.formed h

/-- The same with the length of a path in place of the depth. -/
theorem Canonical.root (h : t.Canonical) (key : Hash) :
    t.root.Canonical (Path.ofHash key).length := by
  rw [Path.length_ofHash]
  exact h

theorem Canonical.assign (h : t.Canonical) (key : Hash) {value? : Option Hash}
    (hvalue : ∀ value, value? = some value → value ≠ Blob.zero) :
    (t.assign key value?).Canonical := by
  have hroot := Node.Canonical.assign (h.root key) hvalue
  rw [Path.length_ofHash] at hroot
  exact hroot

theorem Canonical.assign_some (h : t.Canonical) (key : Hash) (hvalue : value ≠ Blob.zero) :
    (t.assign key (some value)).Canonical := by
  refine h.assign key fun other hother => ?_
  cases hother
  exact hvalue

theorem find_empty (key : Hash) : Trie.empty.find key = none := Node.find_empty _

theorem find_assign (t : Trie) (key : Hash) (value? : Option Hash) (other : Hash) :
    (t.assign key value?).find other = if other = key then value? else t.find other := by
  rw [find, assign, Node.find_assign value? t.root (by simp), find]
  simp only [ofHash_inj]

/-- Assigning what is found changes nothing. -/
theorem assign_find (h : t.Canonical) (key : Hash) : t.assign key (t.find key) = t := by
  rw [assign, find, Node.assign_find (h.root key)]

theorem get_eq (h : t.Canonical) (key : Hash) : t.get key = .ok (t.find key) :=
  Node.get_eq (h.root key) 0

theorem contains_empty (key : Hash) : Trie.empty.contains key = .ok false := by
  rw [contains, get_eq canonical_empty, find_empty]
  rfl

/-- Putting a value assigns it. -/
theorem put_eq (h : t.Canonical) (key : Hash) (hvalue : value ≠ Blob.zero) :
    t.put key value = .ok (t.assign key (some value)) := by
  have hnonzero : ¬ value.isZero = true := fun heq => hvalue (Blob.isZero_iff.mp heq)
  rw [put, if_neg hnonzero, Node.put_eq (h.root key) 0 value]
  show Except.ok _ = _
  by_cases hfound : t.root.find (Path.ofHash key) = some value
  · have hsame := assign_find h key
    rw [find, hfound] at hsame
    rw [if_pos hfound, hsame]
    rfl
  · rw [if_neg hfound]
    rfl

theorem ne_zero_of_put (hput : t.put key value = .ok u) : value ≠ Blob.zero := by
  rintro rfl
  rw [put, if_pos (Blob.isZero_iff.mpr rfl)] at hput
  cases hput

/-- What a put has made of a trie is what assigning makes of it. -/
theorem eq_assign_of_put (h : t.Canonical) (hput : t.put key value = .ok u) :
    u = t.assign key (some value) := by
  rw [put_eq h key (ne_zero_of_put hput)] at hput
  exact (Except.ok.inj hput).symm

/-- Removing assigns nothing, and tells whether there was something. -/
theorem remove_eq (h : t.Canonical) (key : Hash) :
    t.remove key = .ok (t.assign key none, (t.find key).isSome) := by
  rw [remove, Node.remove_eq (h.root key) 0]
  show Except.ok _ = _
  by_cases hfound : t.root.find (Path.ofHash key) = none
  · have hsame := assign_find h key
    rw [find, hfound] at hsame
    rw [if_pos hfound, hsame, find, hfound]
    rfl
  · rw [if_neg hfound, find, Option.isSome_iff_ne_none.mpr hfound]
    rfl

/-- Canonical tries with the same values under all keys are the same. -/
theorem eq_of_find_eq (ht : t.Canonical) (hu : u.Canonical) (h : ∀ key, t.find key = u.find key) :
    t = u := by
  refine congrArg Trie.mk (Node.eq_of_find_eq ht hu fun path hlen => ?_)
  have hkey := h path.toHash
  rwa [find, find, Path.ofHash_toHash hlen] at hkey

end Trie

end ScriptLedger
