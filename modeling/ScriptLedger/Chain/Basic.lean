import Std.Data.TreeMap
import Std.Data.TreeSet
import ScriptLedger.Block.Build

/-!
# Chains

A chain keeps every block it has accepted, by name; despite the word it is a
forest.  A head is a block that no block in it names as its parent.  Of the
heads, the one with the greatest sum of difficulties is canonical, and of
several such the one with the least name.

A block enters a chain in two ways.  `insert` takes one that was built here;
`receive` takes the header and the transactions of one that was built
elsewhere, builds it again, and compares.  Both ask for the proof of work, and
accept a block that is already there.
-/

namespace ScriptLedger

/-- The blocks that have been accepted, with the rules they follow. -/
structure Chain where
  rules : Rules
  blocks : Std.TreeMap Hash Block
  heads : Std.TreeSet Hash

namespace Chain

/-- The chain without blocks. -/
def empty (rules : Rules) : Chain := { rules, blocks := ∅, heads := ∅ }

/-! ## Reading -/

/-- The number of blocks. -/
def size (c : Chain) : Nat := c.blocks.size

/-- Whether there is no block. -/
def isEmpty (c : Chain) : Bool := c.blocks.isEmpty

/-- The block with a name. -/
def get? (c : Chain) (hash : Hash) : Option Block := c.blocks[hash]?

/-- Whether there is a block with a name. -/
def contains (c : Chain) (hash : Hash) : Bool := c.blocks.contains hash

/-- The blocks among the heads, in the order of their names. -/
def headBlocks (c : Chain) : List Block := c.heads.toList.filterMap c.get?

/-- Of two blocks the one with more work; the first if both have the same. -/
def heavier (best : Option Block) (b : Block) : Option Block :=
  match best with
  | none => some b
  | some a => if a.accumulatedDifficulty < b.accumulatedDifficulty then some b else some a

/-- The head with the most work, and of several the one with the least name. -/
def canonicalHead (c : Chain) : Option Block := c.headBlocks.foldl heavier none

/-- At most so many blocks along the parents, from a name on. -/
def walk (c : Chain) : (left : Nat) → Hash → List Block
  | 0, _ => []
  | left + 1, hash =>
    match c.get? hash with
    | none => []
    | some b => b :: walk c left b.prevBlockHash

/-- A block and its ancestors, newest first. -/
def ancestors (c : Chain) (hash : Hash) : List Block := c.walk c.size hash

/-! ## Adding blocks -/

/-- The parent with a name; a first block has none, and its name for it is
zero. -/
def parent (c : Chain) (prev : Hash) : Except BlockError (Option Block) :=
  if prev.isZero then .ok none
  else
    match c.get? prev with
    | some b => .ok (some b)
    | none => .error (.unknownParent prev)

/-- The chain with one more block, which is a head in place of its parent. -/
def add (c : Chain) (hash : Hash) (b : Block) : Chain :=
  { c with
    blocks := c.blocks.insert hash b
    heads := (c.heads.erase b.prevBlockHash).insert hash }

/-- Adds a block that was built here.  Its parent has to be there already. -/
def insert (c : Chain) (b : Block) : Archived BlockError (Chain × Hash) := do
  let hash := b.hash
  if !b.meetsTarget then throw (.insufficientWork hash b.skeleton.header.difficulty)
  let _ ← ofExcept (c.parent b.prevBlockHash)
  if c.contains hash then pure (c, hash)
  else
    let b ← b.commit.adaptExcept .state
    pure (c.add hash b, hash)

/-- Builds the block of a header again. -/
def rebuild (c : Chain) (header : BlockHeader) (transactions : List Transaction) :
    Archived BlockError Block := do
  let received := header.skeleton
  let parent ← ofExcept (c.parent received.prevBlockHash)
  let skeleton ←
    Skeleton.build c.rules parent transactions received.minerAddress received.timestamp
  if skeleton.header ≠ received then
    throw (.headerMismatch (Record.hash received) (Record.hash skeleton.header))
  let b : Block := { skeleton, nonce := header.nonce }
  if !b.meetsTarget then throw (.insufficientWork b.hash received.difficulty)
  pure b

/-- Adds a block that was built elsewhere. -/
def receive (c : Chain) (header : BlockHeader) (transactions : List Transaction) :
    Archived BlockError (Chain × Hash) := do
  let b ← c.rebuild header transactions
  c.insert b

end Chain

end ScriptLedger
