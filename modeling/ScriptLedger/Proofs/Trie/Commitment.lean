import Mathlib.Data.Set.Function
import ScriptLedger.Proofs.Trie.Update

/-!
# The root hash commits to the trie

Two tries with one root hash are the same, if in neither of them two nodes have one
digest by accident.  All that has to be assumed is about the digests that the nodes at
hand were given: `Node.Digests` says which those are.  The zero digest is kept for the
empty subtrie, so a branch that has it by accident would pass for nothing.

Leaves and branches are told apart by their depth and not by their hashes, so this is
about nodes that are formed as updates form them.

## Main results

* `Trie.formed_put` — an update forms a trie.
* `Trie.eq_of_rootHash_eq` — the root hash commits to the trie.
-/

namespace ScriptLedger

open Sequencing

namespace Node

/-! ## Nodes as updates form them -/

/-- A node with so many levels below it: it is fully known, branches keep the digests of
their children, and leaves are at the last level and keep something. -/
inductive Formed : Nat → Node → Prop
  | empty (levels : Nat) : Formed levels .empty
  | leaf {value : Hash} (hvalue : value ≠ Blob.zero) : Formed 0 (.leaf value)
  | branch {levels : Nat} {hash : Hash} {children : Nibble → Node}
      (hhash : hash = hashOfChildren fun i => (children i).hash)
      (hchildren : ∀ i, Formed levels (children i)) : Formed (levels + 1) (.branch hash children)

theorem hereditary_formed : Hereditary Formed where
  empty := .empty
  child h i := by
    cases h with
    | branch _ hchildren => exact hchildren i
  branch h _ := .branch rfl h

/-! ## Commitment -/

/-- The digests of children of which a branch in a node was given the digest. -/
inductive Digests : Node → (Nibble → Hash) → Prop
  | here {hash : Hash} {children : Nibble → Node} :
      Digests (.branch hash children) fun i => (children i).hash
  | inside {hash : Hash} {children : Nibble → Node} {hashes : Nibble → Hash} (i : Nibble)
      (h : Digests (children i) hashes) : Digests (.branch hash children) hashes

variable {N : Set (Nibble → Hash)} {n m : Node}

theorem digests_child {hash : Hash} {children : Nibble → Node}
    (h : ∀ hashes, (Node.branch hash children).Digests hashes → hashes ∈ N) (i : Nibble)
    (hashes : Nibble → Hash) (hchild : (children i).Digests hashes) : hashes ∈ N :=
  h hashes (.inside i hchild)

/-- Formed nodes with one hash are the same. -/
theorem eq_of_hash_eq {levels : Nat} (hn : Formed levels n) (hm : Formed levels m)
    (hN : N.InjOn hashOfChildren) (hzero : ∀ hashes ∈ N, hashOfChildren hashes ≠ Blob.zero)
    (hin : ∀ hashes, n.Digests hashes → hashes ∈ N)
    (him : ∀ hashes, m.Digests hashes → hashes ∈ N) (h : n.hash = m.hash) : n = m := by
  induction hn generalizing m with
  | empty levels =>
      cases hm with
      | empty => rfl
      | leaf hvalue => exact absurd h.symm hvalue
      | branch hhash hchildren => exact absurd (hhash.symm.trans h.symm) (hzero _ (him _ .here))
  | leaf hvalue =>
      cases hm with
      | empty => exact absurd h hvalue
      | leaf => exact congrArg leaf h
  | @branch levels hash children hhash hchildren ih =>
      cases hm with
      | empty => exact absurd (hhash.symm.trans h) (hzero _ (hin _ .here))
      | @branch _ hash' below hhash' hbelow =>
          have hhashes := hN (hin _ .here) (him _ .here) (hhash.symm.trans (h.trans hhash'))
          have hsame : children = below := by
            funext i
            exact ih i (hbelow i) (digests_child hin i) (digests_child him i)
              (congrFun hhashes i)
          rw [hsame, show hash = hash' from h]

end Node

namespace Trie

variable {N : Set (Nibble → Hash)} {t u : Trie}

/-- The trie is as updates form it. -/
def Formed (t : Trie) : Prop := Node.Formed trieDepth t.root

theorem formed_empty : Formed Trie.empty := .empty trieDepth

/-- An update forms a trie. -/
theorem formed_put {key value : Hash} (h : t.put key value = .ok u) (ht : t.Formed) :
    u.Formed :=
  hereditary_put Node.hereditary_formed .leaf h ht

/-- The root hash commits to the trie. -/
theorem eq_of_rootHash_eq (ht : t.Formed) (hu : u.Formed) (hN : N.InjOn Node.hashOfChildren)
    (hzero : ∀ hashes ∈ N, Node.hashOfChildren hashes ≠ Blob.zero)
    (hin : ∀ hashes, t.root.Digests hashes → hashes ∈ N)
    (him : ∀ hashes, u.root.Digests hashes → hashes ∈ N) (h : t.rootHash = u.rootHash) :
    t = u :=
  congrArg Trie.mk (Node.eq_of_hash_eq ht hu hN hzero hin him h)

end Trie

end ScriptLedger
