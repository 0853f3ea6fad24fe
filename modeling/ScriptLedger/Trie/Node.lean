import ScriptLedger.Digest.Basic
import ScriptLedger.Trie.Path

/-!
# Trie nodes

A node of the sixteen-way Merkle trie.  An empty subtrie has the zero hash and
is never spread out as a branch of nothing; a leaf sits at the full depth and
is its own hash; a branch hashes the hashes of its sixteen children in order;
an unknown node is a subtrie of which only the hash is kept.

A branch keeps its hash beside its children, so a hash is read and not
computed.  Branches made by `Node.ofChildren` keep the true one.
`recomputedHash` trusts no kept hash of a branch and is what a proof is
checked with.
-/

namespace ScriptLedger

/-- A node of a trie. -/
inductive Node
  | empty
  | leaf (value : Hash)
  | branch (hash : Hash) (children : Nibble → Node)
  /-- A subtrie known only by its hash. -/
  | unknown (hash : Hash)

/-- Why a trie operation has no answer. -/
inductive TrieError
  /-- The path leads into a subtrie of which only the hash is known. -/
  | prunedNode (depth : Nat) (hash : Hash)
  /-- Two views do not belong to one trie. -/
  | rootMismatch (left right : Hash)
  /-- A leaf or a branch stands at a depth where it may not. -/
  | malformedNode (depth : Nat)
  /-- The zero value marks empty subtries and cannot be stored. -/
  | zeroValue
deriving DecidableEq

/-- The wording of a failure. -/
def TrieError.message : TrieError → String
  | .prunedNode depth hash =>
    "Pruned node at depth " ++ toString depth ++ " (hash " ++ hash.toHex
      ++ ") must be materialised"
  | .rootMismatch left right => "Root mismatch: " ++ left.toHex ++ " != " ++ right.toHex
  | .malformedNode depth =>
    "Leaf found above depth 64 (depth " ++ toString depth ++ ")"
  | .zeroValue => "Zero value cannot be stored (reserved for empty subtries)"

namespace Node

/-! ## Hashes -/

/-- The hash of a node. -/
def hash : Node → Hash
  | .empty => Blob.zero
  | .leaf value => value
  | .branch hash _ => hash
  | .unknown hash => hash

/-- The digest of the hashes of sixteen children. -/
def hashOfChildren (hashes : Nibble → Hash) : Hash :=
  sha256 ((List.finRange 16).flatMap fun i => (hashes i).toList)

/-- The hash rebuilt from the nodes at hand, whatever hashes branches keep. -/
def recomputedHash : Node → Hash
  | .empty => Blob.zero
  | .leaf value => value
  | .branch _ children => hashOfChildren fun i => (children i).recomputedHash
  | .unknown hash => hash

/-! ## Making nodes -/

/-- Whether a node is the empty subtrie. -/
def isEmpty : Node → Bool
  | .empty => true
  | _ => false

/-- Whether a node is more than a hash. -/
def isKnown : Node → Bool
  | .unknown _ => false
  | _ => true

/-- The summary of a subtrie with a hash; the zero hash is the empty subtrie. -/
def summary (hash : Hash) : Node := if hash.isZero then .empty else .unknown hash

/-- A branch that keeps the given hash. -/
def withHash (hash : Hash) (children : Vector Node 16) : Node :=
  .branch hash fun i => children[i]

/-- The branch over sixteen children, or the empty subtrie if all are empty. -/
def ofChildren (children : Vector Node 16) : Node :=
  if children.toList.all isEmpty then .empty
  else withHash (hashOfChildren fun i => children[i].hash) children

/-- Sixteen children with one of them replaced. -/
def replaceChild (children : Nibble → Node) (i : Nibble) (child : Node) : Vector Node 16 :=
  Vector.ofFn fun j => if j = i then child else children j

/-! ## Equality -/

/-- Whether two nodes are the same, kept hashes included. -/
def same : Node → Node → Bool
  | .empty, .empty => true
  | .leaf v, .leaf w => v == w
  | .branch h c, .branch k d => h == k && (List.finRange 16).all fun i => (c i).same (d i)
  | .unknown h, .unknown k => h == k
  | _, _ => false

theorem same_iff {a b : Node} : a.same b ↔ a = b := by
  induction a generalizing b with
  | empty => cases b <;> simp [same]
  | leaf v => cases b <;> simp [same]
  | unknown h => cases b <;> simp [same]
  | branch h c ih =>
    cases b with
    | branch k d =>
      simp only [same, Bool.and_eq_true, beq_iff_eq, List.all_eq_true, List.mem_finRange,
        forall_const, ih, branch.injEq]
      exact and_congr_right fun _ => funext_iff.symm
    | _ => simp [same]

instance : DecidableEq Node := fun a b => decidable_of_iff (a.same b) same_iff

/-! ## What a view holds -/

/-- The known leaves below a node with so many levels left, each with the rest
of its path, in path order. -/
def leaves : (levels : Nat) → Node → List (Path × Hash)
  | 0, .leaf value => [([], value)]
  | levels + 1, .branch _ children =>
    (List.finRange 16).flatMap fun i =>
      ((children i).leaves levels).map fun (path, value) => (i :: path, value)
  | _, _ => []

/-- The number of branches. -/
def branchCount : Node → Nat
  | .branch _ children => 1 + ((List.finRange 16).map fun i => (children i).branchCount).sum
  | _ => 0

/-- The leaves and the unknown nodes with their positions, in path order. -/
def frontier : Node → List (Path × Node)
  | .branch _ children =>
    (List.finRange 16).flatMap fun i =>
      ((children i).frontier).map fun (path, node) => (i :: path, node)
  | .empty => []
  | node => [([], node)]

end Node

end ScriptLedger
