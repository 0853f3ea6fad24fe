import ScriptLedger.Trie.Node

/-!
# The Merkle trie

A persistent map from digests to non-zero digests that commits to its content
by the hash of its root.  Every update makes a new trie and shares what it
does not touch.  An operation that would have to look into an unknown node
fails instead of guessing.

Along a path the operations recurse on the half bytes that are left, so a path
has to end exactly at the depth of the leaves.
-/

namespace ScriptLedger

/-- A Merkle trie. -/
structure Trie where
  root : Node
deriving DecidableEq

namespace Node

/-! ## Lookup -/

/-- The value at the end of a path that starts at a depth. -/
def get (depth : Nat) : Path → Node → Except TrieError (Option Hash)
  | [], .leaf value => .ok (some value)
  | [], .branch _ _ => .error (.malformedNode depth)
  | _ :: _, .leaf _ => .error (.malformedNode depth)
  | i :: rest, .branch _ children => get (depth + 1) rest (children i)
  | _, .empty => .ok none
  | _, .unknown hash => .error (.prunedNode depth hash)

/-! ## Update -/

/-- The children to descend into; an empty node has sixteen empty ones. -/
def childrenAt (depth : Nat) : Node → Except TrieError (Nibble → Node)
  | .empty => .ok fun _ => .empty
  | .branch _ children => .ok children
  | .unknown hash => .error (.prunedNode depth hash)
  | .leaf _ => .error (.malformedNode depth)

/-- The node with a value put at the end of a path; absent when that value is
already there. -/
def put (depth : Nat) (value : Hash) : Path → Node → Except TrieError (Option Node)
  | [], node => .ok (if node = .leaf value then none else some (.leaf value))
  | i :: rest, node => do
    let children ← node.childrenAt depth
    let child? ← put (depth + 1) value rest (children i)
    pure (child?.map fun child => ofChildren (replaceChild children i child))

/-- The node with the value at the end of a path taken away; absent when there
was none. -/
def remove (depth : Nat) : Path → Node → Except TrieError (Option Node)
  | _, .empty => .ok none
  | _, .unknown hash => .error (.prunedNode depth hash)
  | [], .leaf _ => .ok (some .empty)
  | _ :: _, .leaf _ => .error (.malformedNode depth)
  | [], .branch _ _ => .error (.malformedNode depth)
  | i :: rest, .branch _ children => do
    let child? ← remove (depth + 1) rest (children i)
    pure (child?.map fun child => ofChildren (replaceChild children i child))

end Node

namespace Trie

/-- The trie that holds nothing. -/
def empty : Trie := ⟨.empty⟩

/-- A trie of which only the root hash is known. -/
def ofRootHash (hash : Hash) : Trie := ⟨.summary hash⟩

/-- The hash that commits to the content. -/
def rootHash (t : Trie) : Hash := t.root.hash

/-- Whether the trie holds nothing. -/
def isEmpty (t : Trie) : Bool := t.root.isEmpty

/-- The value under a key. -/
def get (t : Trie) (key : Hash) : Except TrieError (Option Hash) :=
  t.root.get 0 (Path.ofHash key)

/-- Whether a key has a value. -/
def contains (t : Trie) (key : Hash) : Except TrieError Bool :=
  (t.get key).map Option.isSome

/-- The trie with a value under a key. -/
def put (t : Trie) (key value : Hash) : Except TrieError Trie :=
  if value.isZero then .error .zeroValue
  else (t.root.put 0 value (Path.ofHash key)).map fun node? => ⟨node?.getD t.root⟩

/-- The trie without a key, and whether the key had a value. -/
def remove (t : Trie) (key : Hash) : Except TrieError (Trie × Bool) :=
  (t.root.remove 0 (Path.ofHash key)).map fun
    | some node => (⟨node⟩, true)
    | none => (t, false)

/-- The known keys and values, in the order of the keys. -/
def leaves (t : Trie) : List (Hash × Hash) :=
  (t.root.leaves trieDepth).map fun (path, value) => (path.toHash, value)

/-- The number of known keys. -/
def size (t : Trie) : Nat := t.leaves.length

end Trie

end ScriptLedger
