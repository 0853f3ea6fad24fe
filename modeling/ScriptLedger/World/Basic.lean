import ScriptLedger.Trie.View
import ScriptLedger.World.Archive

/-!
# World states

A world state is a trie from addresses to the digests of account records,
together with the store where the records lie.  It is a snapshot: putting an
account makes a new one, and the old one still reads what it read before.

A fork is the same snapshot over an overlay of its store.  Committing a fork
copies the records that its trie still names to the bottom store and leaves
the rest behind.
-/

namespace ScriptLedger

/-- A snapshot of all accounts. -/
structure World where
  trie : Trie
  store : StoreId
deriving DecidableEq

/-- Why a snapshot cannot be read or written. -/
inductive StateError
  /-- The trie has no answer. -/
  | trie (cause : TrieError)
  /-- The store does not have the record that the trie names. -/
  | missingRecord (address hash : Hash)
deriving DecidableEq

/-- The wording of a failure. -/
def StateError.message : StateError → String
  | .trie cause => cause.message
  | .missingRecord address hash =>
    "Account record " ++ hash.toHex ++ " for address " ++ address.toHex
      ++ " is not in the store"

namespace World

/-! ## Reading -/

/-- The snapshot without accounts over a store. -/
def empty (store : StoreId) : World := ⟨Trie.empty, store⟩

/-- The hash that commits to all accounts. -/
def rootHash (w : World) : Hash := w.trie.rootHash

/-- Whether there is an account at an address. -/
def contains (w : World) (address : Hash) : Except StateError Bool :=
  (w.trie.contains address).mapError .trie

/-- The record that the store has for an entry of the trie. -/
def recordOf (a : Archive) (w : World) (address hash : Hash) : Except StateError Account :=
  match a.get? w.store hash with
  | some account => .ok account
  | none => .error (.missingRecord address hash)

/-- The account at an address. -/
def account? (a : Archive) (w : World) (address : Hash) :
    Except StateError (Option Account) :=
  match w.trie.get address with
  | .error cause => .error (.trie cause)
  | .ok none => .ok none
  | .ok (some hash) => (recordOf a w address hash).map some

/-- The public key of the account at an address, if the account can be read. -/
def pubkey? (a : Archive) (w : World) (address : Hash) : Option Pubkey :=
  match w.account? a address with
  | .ok (some account) => some account.pubKey
  | _ => none

/-- All accounts, in the order of their addresses. -/
def accounts (a : Archive) (w : World) : Except StateError (List Account) :=
  w.trie.leaves.mapM fun (address, hash) => recordOf a w address hash

/-! ## Writing -/

/-- The snapshot with an account at its address. -/
def put (w : World) (account : Account) : Archived StateError World := do
  modify fun a => a.insert w.store account
  match w.trie.put account.address (Record.hash account) with
  | .ok trie => pure { w with trie }
  | .error cause => throw (.trie cause)

/-- The same snapshot over a new overlay of its store. -/
def fork {ε : Type} (w : World) : Archived ε World :=
  modifyGet fun a =>
    let (store, a) := a.addOverlay w.store
    ({ w with store }, a)

/-- Copies the record of an entry of the trie from one store to another, unless
it is there. -/
def copyRecord (w : World) (target : StoreId) (address hash : Hash) :
    Archived StateError Unit := do
  let a ← get
  unless a.contains target hash do
    match recordOf a w address hash with
    | .ok account => modify fun a => a.insert target account
    | .error cause => throw cause

/-- The snapshot over the bottom store, with every record it names copied
there. -/
def commit (w : World) : Archived StateError World := do
  let target := (← get).bottom w.store
  if target = w.store then pure w
  else do
    w.trie.leaves.forM fun (address, hash) => w.copyRecord target address hash
    pure { w with store := target }

end World

end ScriptLedger
