import ScriptLedger.Proofs.Trie.Canonical
import ScriptLedger.Proofs.Trie.Views

/-!
# Regular tries

Tries that are known in part have summaries beside the nodes that updates make.  A regular
node is one with which every operation can work: branches keep the digests of their
children, leaves are on the last level and keep something, branches are above it, and the
hash of a summary is not the one of the empty subtrie.

Updates collapse a branch that holds nothing.  Picking makes no new branches, but a branch
with the zero digest would be summed up as the empty subtrie, and then the one above it may
be left with nothing.  So that no branch is empty is kept as long as no branch has the zero
digest.

## Main results

* `Node.hereditary_regular`, `Node.hereditary_populated` — updates keep both.
* `Node.Regular.pruned_of_get_error` and the ones after it — an operation on a regular node
  fails where it meets a summary, and for no other reason.
-/

namespace ScriptLedger

open Sequencing

namespace Node

/-! ## Regular nodes -/

/-- A node with so many levels below it: branches keep the digests of their children, leaves
are at the last level and keep something, and summaries are not those of nothing. -/
inductive Regular : Nat → Node → Prop
  | empty (levels : Nat) : Regular levels .empty
  | leaf {value : Hash} (hvalue : value ≠ Blob.zero) : Regular 0 (.leaf value)
  | unknown (levels : Nat) {hash : Hash} (hhash : hash ≠ Blob.zero) : Regular levels (.unknown hash)
  | branch {levels : Nat} {hash : Hash} {children : Nibble → Node}
      (hhash : hash = hashOfChildren fun i => (children i).hash)
      (hchildren : ∀ i, Regular levels (children i)) : Regular (levels + 1) (.branch hash children)

/-- Every branch has a child that is not empty. -/
inductive Populated : Node → Prop
  | empty : Populated .empty
  | leaf (value : Hash) : Populated (.leaf value)
  | unknown (hash : Hash) : Populated (.unknown hash)
  | branch {hash : Hash} {children : Nibble → Node} (hchildren : ∀ i, Populated (children i))
      (hsome : ∃ i, (children i).isEmpty = false) : Populated (.branch hash children)

/-- No branch has the digest that is kept for the empty subtrie. -/
def Nonzero (n : Node) : Prop := ∀ hashes, n.Digests hashes → hashOfChildren hashes ≠ Blob.zero

variable {depth levels : Nat} {n : Node} {path : Path} {value : Hash} {e : TrieError}

theorem hereditary_regular : Hereditary Regular where
  empty := .empty
  child h i := by
    cases h with
    | branch _ hchildren => exact hchildren i
  branch h _ := .branch rfl h

theorem hereditary_populated : Hereditary fun _ node => node.Populated where
  empty _ := .empty
  child h i := by
    cases h with
    | branch hchildren _ => exact hchildren i
  branch h hsome := .branch h hsome

theorem Nonzero.child {hash : Hash} {children : Nibble → Node}
    (h : (Node.branch hash children).Nonzero) (i : Nibble) : (children i).Nonzero :=
  fun hashes hdigests => h hashes (.inside i hdigests)

theorem regular_summary (levels : Nat) (hash : Hash) : (summary hash).Regular levels := by
  unfold summary
  by_cases hzero : hash.isZero = true
  · rw [if_pos hzero]
    exact .empty levels
  · rw [if_neg hzero]
    exact .unknown levels fun heq => hzero (Blob.isZero_iff.mpr heq)

theorem hash_summary (hash : Hash) : (summary hash).hash = hash := by
  unfold summary
  by_cases hzero : hash.isZero = true
  · rw [if_pos hzero, Blob.isZero_iff.mp hzero]
    rfl
  · rw [if_neg hzero]
    rfl

theorem populated_summary (hash : Hash) : (summary hash).Populated := by
  unfold summary
  by_cases hzero : hash.isZero = true
  · rw [if_pos hzero]
    exact .empty
  · rw [if_neg hzero]
    exact .unknown hash

theorem Formed.regular (h : n.Formed levels) : n.Regular levels := by
  induction h with
  | empty levels => exact .empty levels
  | leaf hvalue => exact .leaf hvalue
  | branch hhash _ ih => exact .branch hhash ih

namespace Regular

theorem hashed (h : n.Regular levels) : n.Hashed := by
  induction h with
  | empty => exact .empty
  | leaf => exact .leaf _
  | unknown => exact .unknown _
  | branch hhash _ ih => exact .branch hhash ih

/-- The same with the length of a path in place of the depth. -/
theorem along (h : n.Regular trieDepth) (key : Hash) : n.Regular (Path.ofHash key).length := by
  rw [Path.length_ofHash]
  exact h

/-- Rebuilding the hashes of a regular node gives those that it keeps. -/
theorem recomputedHash_eq (h : n.Regular levels) : n.recomputedHash = n.hash := by
  induction h with
  | empty => rfl
  | leaf => rfl
  | unknown => rfl
  | branch hhash _ ih =>
      rw [recomputedHash, funext ih]
      exact hhash.symm

/-- Only the empty subtrie has the zero hash. -/
theorem hash_ne_zero (h : n.Regular levels) (hzero : n.Nonzero) (hn : n.isEmpty = false) :
    n.hash ≠ Blob.zero := by
  cases h with
  | empty => cases hn
  | leaf hvalue => exact hvalue
  | unknown _ hhash => exact hhash
  | branch hhash _ =>
      rw [Node.hash, hhash]
      exact hzero _ .here

theorem summary_eq (h : n.Regular levels) (hzero : n.Nonzero) (hn : n.isEmpty = false) :
    summary n.hash = .unknown n.hash := by
  rw [summary, if_neg]
  exact fun hhash => h.hash_ne_zero hzero hn (Blob.isZero_iff.mp hhash)

theorem nonzeroBeside (h : n.Regular levels) (hzero : n.Nonzero) (paths : List Path) :
    n.NonzeroBeside paths := by
  induction h generalizing paths with
  | empty => trivial
  | leaf hvalue => exact fun _ => hvalue
  | unknown _ hhash => exact fun _ => hhash
  | branch hhash _ ih =>
      refine ⟨fun _ => ?_, fun _ i => ih i (hzero.child i) _⟩
      rw [hhash]
      exact hzero _ .here

end Regular

/-- No digest has to be assumed different from zero if the routes go to the last branch above
every value. -/
theorem Canonical.nonzeroBeside (h : n.Canonical levels)
    (hroutes : ∀ path value, path.length = levels → 0 < levels → find path n = some value →
      ∃ route ∈ paths, route.length = levels ∧ route.dropLast = path.dropLast) :
    n.NonzeroBeside paths := by
  induction h generalizing paths with
  | empty => trivial
  | leaf hvalue => exact fun _ => hvalue
  | @branch levels hash children hhash hchildren hsome ih =>
      refine ⟨fun hnone => ?_, fun _ i => ih i fun path value hlen hpos hfound => ?_⟩
      · obtain ⟨i, hi⟩ := hsome
        obtain ⟨path, value, hlen, hfound⟩ := exists_find (hchildren i) hi
        obtain ⟨route, hmem, -⟩ :=
          hroutes (i :: path) value (congrArg Nat.succ hlen) (Nat.succ_pos _) hfound
        rw [hnone] at hmem
        cases hmem
      · obtain ⟨route, hmem, hroute, hdrop⟩ :=
          hroutes (i :: path) value (congrArg Nat.succ hlen) (Nat.succ_pos _) hfound
        cases route with
        | nil => cases hroute
        | cons j rest =>
            have hrest : rest.length = levels := Nat.succ.inj hroute
            rw [List.dropLast_cons_of_ne_nil (List.ne_nil_of_length_pos (by omega)),
              List.dropLast_cons_of_ne_nil (List.ne_nil_of_length_pos (by omega))] at hdrop
            obtain ⟨rfl, hbefore⟩ := List.cons.inj hdrop
            exact ⟨rest, mem_taking.mpr hmem, hrest, hbefore⟩

/-! ## Why an operation fails -/

namespace Regular

theorem childrenAt_error (h : n.Regular (levels + 1)) (herror : n.childrenAt depth = .error e) :
    e.Pruned := by
  cases h with
  | empty => cases herror
  | unknown => cases herror; exact ⟨_, _, rfl⟩
  | branch => cases herror

theorem pruned_of_get_error (h : n.Regular path.length) (herror : get depth path n = .error e) :
    e.Pruned := by
  induction path generalizing n depth with
  | nil =>
      cases h with
      | empty => cases herror
      | leaf => cases herror
      | unknown => cases herror; exact ⟨_, _, rfl⟩
  | cons i rest ih =>
      cases h with
      | empty => cases herror
      | unknown => cases herror; exact ⟨_, _, rfl⟩
      | branch _ hchildren => exact ih (hchildren i) herror

theorem pruned_of_put_error (h : n.Regular path.length)
    (herror : put depth value path n = .error e) : e.Pruned := by
  induction path generalizing n depth with
  | nil => cases herror
  | cons i rest ih =>
      rcases except_bind_eq_error.mp herror with hchildren | ⟨children, hchildren, hrest⟩
      · exact h.childrenAt_error hchildren
      · rcases except_bind_eq_error.mp hrest with hput | ⟨_, _, hpure⟩
        · exact ih (hereditary_regular.childrenAt rest.length hchildren h i) hput
        · cases hpure

theorem pruned_of_remove_error (h : n.Regular path.length)
    (herror : remove depth path n = .error e) : e.Pruned := by
  induction path generalizing n depth with
  | nil =>
      cases h with
      | empty => cases herror
      | leaf => cases herror
      | unknown => cases herror; exact ⟨_, _, rfl⟩
  | cons i rest ih =>
      cases h with
      | empty => cases herror
      | unknown => cases herror; exact ⟨_, _, rfl⟩
      | branch _ hchildren =>
          rcases except_bind_eq_error.mp herror with hremove | ⟨_, _, hpure⟩
          · exact ih (hchildren i) hremove
          · cases hpure

end Regular

end Node

end ScriptLedger
