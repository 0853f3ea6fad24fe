import ScriptLedger.Proofs.Trie.Commitment

/-!
# Accidents of the digest

`Trie.eq_of_rootHash_eq` assumes that no two branches have one digest by accident.  Here it
is turned round: from two tries that differ and have one root hash, an accident can be shown
among their own branches.  It is shown by the messages that were digested, which are the
hashes of sixteen children one after the other.

## Main results

* `Node.preimage_inj` — the message of a branch tells the hashes of its children.
* `Trie.or_accident` — what holds of two tries without accidents, holds or there is one.
* `Trie.eq_or_accident` — two tries with one root hash are the same, or there is an accident.
-/

namespace ScriptLedger

namespace Node

variable {hashes hashes' : Nibble → Hash}

/-- The message whose digest a branch over children with these hashes has. -/
def preimage (hashes : Nibble → Hash) : List UInt8 :=
  (List.finRange 16).flatMap fun i => (hashes i).toList

theorem flatMap_toList_inj {l : List Nibble}
    (h : (l.flatMap fun i => (hashes i).toList) = l.flatMap fun i => (hashes' i).toList) :
    ∀ i ∈ l, hashes i = hashes' i := by
  induction l with
  | nil => exact fun i hmem => absurd hmem List.not_mem_nil
  | cons j rest ih =>
      rw [List.flatMap_cons, List.flatMap_cons] at h
      have hlen : (hashes j).toList.length = (hashes' j).toList.length := by simp
      obtain ⟨hfirst, hrest⟩ := List.append_inj h hlen
      have hsame : hashes j = hashes' j := Blob.ext (Vector.toList_inj.mp hfirst)
      exact List.forall_mem_cons.mpr ⟨hsame, ih hrest⟩

/-- The message of a branch tells the hashes of its children. -/
theorem preimage_inj (h : preimage hashes = preimage hashes') : hashes = hashes' :=
  funext fun i => flatMap_toList_inj h i (List.mem_finRange i)

theorem length_preimage (hashes : Nibble → Hash) : (preimage hashes).length = 512 := by
  have hsize : ∀ i, (hashes i).toList.length = 32 := fun i => Blob.length_toList (hashes i)
  simp only [preimage, List.length_flatMap, hsize, List.map_const', List.length_finRange,
    List.sum_replicate, smul_eq_mul, Nat.reduceMul]

/-- A branch in the node has the digest of this message. -/
def Digested (n : Node) (message : List UInt8) : Prop :=
  ∃ hashes, n.Digests hashes ∧ message = preimage hashes

end Node

namespace Trie

variable {t u : Trie}

/-- Among the branches of two tries there are two with different messages and one digest, or
there is one with the digest that is kept for the empty subtrie. -/
inductive Accident (t u : Trie) : Prop
  | collision {x y : List UInt8} (hx : t.root.Digested x ∨ u.root.Digested x)
      (hy : t.root.Digested y ∨ u.root.Digested y) (hxlen : x.length = 512)
      (hylen : y.length = 512) (hne : x ≠ y) (hsame : sha256 x = sha256 y) : Accident t u
  | zero {x : List UInt8} (hx : t.root.Digested x ∨ u.root.Digested x)
      (hzero : sha256 x = Blob.zero) : Accident t u

/-- What holds of two tries if their branches have different digests, and none that is kept for
the empty subtrie, holds or there is an accident. -/
theorem or_accident {p : Prop}
    (h : {hashes | t.root.Digests hashes ∨ u.root.Digests hashes}.InjOn Node.hashOfChildren →
      (∀ hashes, t.root.Digests hashes ∨ u.root.Digests hashes →
        Node.hashOfChildren hashes ≠ Blob.zero) → p) : p ∨ Accident t u := by
  by_cases haccident : Accident t u
  · exact Or.inr haccident
  left
  have hdigested : ∀ {hashes}, t.root.Digests hashes ∨ u.root.Digests hashes →
      t.root.Digested (Node.preimage hashes) ∨ u.root.Digested (Node.preimage hashes) := by
    rintro hashes (hin | hin)
    · exact Or.inl ⟨hashes, hin, rfl⟩
    · exact Or.inr ⟨hashes, hin, rfl⟩
  refine h ?_ ?_
  · intro hashes hin hashes' hin' hsame
    by_contra hne
    -- A branch has the digest of its message by definition.
    have hdigest : sha256 (Node.preimage hashes) = sha256 (Node.preimage hashes') := hsame
    exact haccident (.collision (hdigested hin) (hdigested hin') (Node.length_preimage hashes)
      (Node.length_preimage hashes') (fun heq => hne (Node.preimage_inj heq)) hdigest)
  · intro hashes hin hzero
    exact haccident (.zero (hdigested hin) hzero)

/-- Two tries with one root hash are the same, or there is an accident. -/
theorem eq_or_accident (ht : t.Formed) (hu : u.Formed) (h : t.rootHash = u.rootHash) :
    t = u ∨ Accident t u :=
  or_accident fun hN hzero =>
    eq_of_rootHash_eq ht hu hN hzero (fun _ => Or.inl) (fun _ => Or.inr) h

end Trie

end ScriptLedger
