import ScriptLedger.Trie.Basic

/-!
# Partial views

Two operations change how much of a trie is known and never its root hash.
`cherryPick` keeps the routes to some keys and sums up everything beside them;
`merge` puts two views of one trie together.  A proof that a key has a value,
or that it has none, is the view that holds the route to that key: checking
it rebuilds the root hash from the nodes it carries.
-/

namespace ScriptLedger

namespace Node

/-! ## Picking -/

/-- The routes below a depth that some paths take; everything else becomes a
summary. -/
def pick (depth : Nat) : List Path → Node → Except TrieError Node
  | [], node => .ok (summary node.hash)
  | _ :: _, .empty => .ok .empty
  | _ :: _, .leaf value => .ok (.leaf value)
  | _ :: _, .unknown hash => .error (.prunedNode depth hash)
  | paths@(_ :: _), .branch hash children => do
    let picked ← Vector.ofFnM fun i : Nibble =>
      (children i).pick (depth + 1)
        ((paths.filter fun path => path.head? == some i).map List.tail)
    pure (withHash hash picked)

/-! ## Merging -/

/-- What at least one of two views of a subtrie knows. -/
def merge (left right : Node) : Except TrieError Node :=
  if left.hash ≠ right.hash then .error (.rootMismatch left.hash right.hash)
  else
    match left, right with
    | .unknown _, right => .ok right
    | left, .unknown _ => .ok left
    | .branch hash l, .branch _ r => do
      let merged ← Vector.ofFnM fun i : Nibble => (l i).merge (r i)
      pure (withHash hash merged)
    | .leaf v, .leaf _ => .ok (.leaf v)
    | .empty, .empty => .ok .empty
    | left, right => .error (.rootMismatch left.hash right.hash)

end Node

namespace Trie

/-- The part of a trie that answers for the given keys, with the same root
hash. -/
def cherryPick (t : Trie) (keys : List Hash) : Except TrieError Trie :=
  (t.root.pick 0 (keys.map Path.ofHash)).map Trie.mk

/-- The union of two views of one trie. -/
def merge (t u : Trie) : Except TrieError Trie := (t.root.merge u.root).map Trie.mk

end Trie

/-! ## Proofs -/

/-- Evidence that a key has a value under a root hash, or that it has none. -/
structure MerkleProof where
  key : Hash
  view : Trie
deriving DecidableEq

/-- The evidence for a key. -/
def Trie.prove (t : Trie) (key : Hash) : Except TrieError MerkleProof :=
  (t.cherryPick [key]).map fun view => { key, view }

namespace MerkleProof

/-- The value under the key, if the evidence belongs to the root hash. -/
def verify (proof : MerkleProof) (root : Hash) : Except TrieError (Option Hash) :=
  let computed := proof.view.root.recomputedHash
  if computed ≠ root then .error (.rootMismatch computed root)
  else proof.view.get proof.key

/-- Whether the evidence shows that the key has a value. -/
def isInclusion (proof : MerkleProof) (root : Hash) : Bool :=
  match proof.verify root with
  | .ok (some _) => true
  | _ => false

end MerkleProof

end ScriptLedger
