import ScriptLedger.Block.Basic
import ScriptLedger.Block.Error

/-!
# Searching for a proof of work

Nonces are numbered by a lane and a counter, so that several lanes can search
side by side without trying a nonce twice:

    byte 0        lane
    bytes 1 – 23  zero
    bytes 24 – 31 counter, most significant byte first

The attempts are split evenly among the lanes, rounded up.  The lanes are gone
through in order, and the first nonce that meets the difficulty seals the
block.
-/

namespace ScriptLedger

namespace Work

/-- The nonce of an attempt. -/
def nonceFor (lane : UInt8) (counter : UInt64) : Hash :=
  ⟨⟨(lane :: List.replicate 23 0 ++ Word.bigEndian counter).toArray, by
    simp [Word.bigEndian]⟩⟩

end Work

/-- How hard a miner searches. -/
structure Miner where
  /-- The number of lanes. -/
  threads : UInt8
  /-- Nonces to try in all lanes together before giving up. -/
  maxAttempts : UInt64 := 10000000
deriving Repr, DecidableEq

namespace Miner

/-- The number of lanes that are searched: at least one. -/
def lanes (miner : Miner) : Nat := max miner.threads.toNat 1

/-- The number of attempts in each lane. -/
def attemptsPerLane (miner : Miner) : Nat :=
  (miner.maxAttempts.toNat + (miner.lanes - 1)) / miner.lanes

/-- Whether a nonce seals a skeleton. -/
def seals (s : Skeleton) (nonce : Hash) : Bool := (s.withNonce nonce).meetsTarget

/-- The first nonce of a lane that seals a skeleton, among so many from a
counter on. -/
def searchLane (s : Skeleton) (lane : Nat) : (left counter : Nat) → Option Hash
  | 0, _ => none
  | left + 1, counter =>
    let nonce := Work.nonceFor (UInt8.ofNat lane) (UInt64.ofNat counter)
    if seals s nonce then some nonce else searchLane s lane left (counter + 1)

/-- The first nonce that seals a skeleton. -/
def search (miner : Miner) (s : Skeleton) : Option Hash :=
  (List.range miner.lanes).findSome? fun lane => searchLane s lane miner.attemptsPerLane 0

/-- The skeleton with a proof of work. -/
def mine (miner : Miner) (s : Skeleton) : Except BlockError Block :=
  match miner.search s with
  | some nonce => .ok { skeleton := s, nonce }
  | none => .error (.miningFailed miner.maxAttempts)

end Miner

end ScriptLedger
