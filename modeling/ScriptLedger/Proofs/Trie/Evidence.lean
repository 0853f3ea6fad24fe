import ScriptLedger.Proofs.Trie.FiniteMap
import ScriptLedger.Proofs.Trie.Recipe

/-!
# Evidence

The check of a proof rebuilds the root hash from the nodes that the proof carries.  Whoever
makes the proof chooses these nodes: leaves above the last level, branches at it, summaries on
the route and hashes that are not those of the children.  None of this makes the check answer
anything but what the trie answers, unless there is an accident of the digest among the
branches of the proof and of the trie.

The hashes of leaves and of branches are of one kind, so that a leaf may stand in for a branch
and the other way round.  What is read there is an error: on the route of a key, a leaf above
the last level and a branch at it are malformed.  A leaf that keeps the zero hash would pass
for the empty subtrie, and has to be ruled out.

## Main results

* `MerkleProof.verify_of_prove` — the evidence that a trie gives is accepted.
* `MerkleProof.proves_of_make` — a trie can prove each of its answers, and nothing else.
* `MerkleProof.get_of_verify` — what evidence shows is so, or there is an accident.
-/

namespace ScriptLedger

open Sequencing

namespace Node

variable {depth levels : Nat} {path : Path} {n m : Node} {N : Set (Nibble → Hash)}

/-! ## Rebuilding -/

/-- The node with the hash of every branch rebuilt from the nodes at hand. -/
def rebuilt : Node → Node
  | .branch _ children =>
    .branch (hashOfChildren fun i => (children i).recomputedHash) fun i => (children i).rebuilt
  | node => node

theorem hash_rebuilt (n : Node) : n.rebuilt.hash = n.recomputedHash := by
  cases n <;> rfl

theorem hashed_rebuilt (n : Node) : n.rebuilt.Hashed := by
  induction n with
  | empty => exact .empty
  | leaf value => exact .leaf value
  | unknown hash => exact .unknown hash
  | branch _ children ih =>
      have hhashes : (fun i => (children i).recomputedHash) = fun i => (children i).rebuilt.hash :=
        funext fun i => (hash_rebuilt (children i)).symm
      exact .branch (congrArg hashOfChildren hhashes) ih

/-- A lookup does not read the hashes of branches. -/
theorem get_rebuilt (depth : Nat) (path : Path) (n : Node) :
    get depth path n.rebuilt = get depth path n := by
  induction path generalizing depth n with
  | nil => cases n <;> rfl
  | cons i rest ih =>
      cases n with
      | branch _ children => exact ih (depth + 1) (children i)
      | _ => rfl

/-! ## Leaves -/

/-- No leaf keeps the zero hash. -/
def LeavesNonzero : Node → Prop
  | .leaf value => value ≠ Blob.zero
  | .branch _ children => ∀ i, (children i).LeavesNonzero
  | _ => True

theorem LeavesNonzero.rebuilt (h : n.LeavesNonzero) : n.rebuilt.LeavesNonzero := by
  induction n with
  | branch _ children ih => exact fun i => ih i (h i)
  | _ => exact h

theorem Regular.leavesNonzero (h : n.Regular levels) : n.LeavesNonzero := by
  induction h with
  | leaf hvalue => exact hvalue
  | branch _ _ ih => exact ih
  | _ => trivial

/-! ## Where there are answers -/

/-- A node without summaries has an answer at every path. -/
theorem Regular.exists_get (h : n.Regular path.length) (hknown : n.FullyKnown) :
    ∃ found, get depth path n = .ok found := by
  induction path generalizing depth n with
  | nil =>
      cases h with
      | empty => exact ⟨none, rfl⟩
      | leaf => exact ⟨some _, rfl⟩
      | unknown => exact hknown.elim
  | cons i rest ih =>
      cases h with
      | empty => exact ⟨none, rfl⟩
      | unknown => exact hknown.elim
      | branch _ hchildren => exact ih (hchildren i) (hknown i)

/-- A node has an answer at every path that can be picked from it. -/
theorem Picked.exists_get {paths : List Path} (h : Picked paths n m) (hpath : path ∈ paths)
    (hn : n.Regular path.length) : ∃ found, get depth path n = .ok found := by
  induction h generalizing path depth with
  | summary => cases hpath
  | empty => cases path <;> exact ⟨none, rfl⟩
  | leaf =>
      cases path with
      | nil => exact ⟨some _, rfl⟩
      | cons i rest => cases hn
  | branch _ _ ih =>
      cases path with
      | nil => cases hn
      | cons i rest =>
          cases hn with
          | branch _ hchildren => exact ih i (mem_taking.mpr hpath) (hchildren i)

/-! ## What a hash tells of a route -/

/-- What a node answers is what a formed one with the same hash answers. -/
theorem get_of_hash_eq {found : Option Hash} (hn : n.Hashed) (hleaves : n.LeavesNonzero)
    (hm : m.Formed path.length) (hN : N.InjOn hashOfChildren)
    (hzero : ∀ hashes ∈ N, hashOfChildren hashes ≠ Blob.zero)
    (hin : ∀ hashes, n.Digests hashes → hashes ∈ N)
    (him : ∀ hashes, m.Digests hashes → hashes ∈ N) (h : n.hash = m.hash)
    (hget : get depth path n = .ok found) : get depth path m = .ok found := by
  induction path generalizing depth n m with
  | nil =>
      cases n with
      | empty =>
          cases hget
          cases hm with
          | empty => rfl
          | leaf hvalue => exact absurd h.symm hvalue
      | leaf value =>
          cases hget
          cases hm with
          | empty => exact absurd h hleaves
          | leaf => exact congrArg (fun value => Except.ok (some value)) h.symm
      | branch => cases hget
      | unknown => cases hget
  | cons i rest ih =>
      cases n with
      | empty =>
          cases hget
          cases hm with
          | empty => rfl
          | branch hhash _ => exact absurd (hhash.symm.trans h.symm) (hzero _ (him _ .here))
      | leaf => cases hget
      | unknown => cases hget
      | branch hash children =>
          cases hn with
          | branch hhash hchildren =>
              cases hm with
              | empty => exact absurd (hhash.symm.trans h) (hzero _ (hin _ .here))
              | branch hhash' hbelow =>
                  have hhashes := hN (hin _ .here) (him _ .here) (hhash.symm.trans (h.trans hhash'))
                  exact ih (hchildren i) (hleaves i) (hbelow i) (digests_child hin i)
                    (digests_child him i) (congrFun hhashes i) hget

end Node

namespace MerkleProof

variable {proof : MerkleProof} {root : Hash} {x : Option Hash} {t : Trie} {key : Hash}

/-- The trie of the evidence as the check takes it, with no hash of a branch trusted. -/
def rebuilt (proof : MerkleProof) : Trie := ⟨proof.view.root.rebuilt⟩

theorem verify_eq_ok : proof.verify root = .ok x ↔
    proof.view.root.recomputedHash = root ∧ proof.view.get proof.key = .ok x := by
  unfold verify
  by_cases hroot : proof.view.root.recomputedHash = root
  · simp [hroot]
  · simp [hroot]

/-- Evidence is for one root hash. -/
theorem verify_of_ne (h : root ≠ proof.view.root.recomputedHash) :
    proof.verify root = .error (.rootMismatch proof.view.root.recomputedHash root) :=
  if_pos h.symm

/-! ## The evidence that a trie gives -/

/-- A trie gives evidence for a key just if it has an answer there. -/
theorem exists_prove_iff (ht : t.root.Regular trieDepth) :
    (∃ proof, t.prove key = .ok proof) ↔ ∃ x, t.get key = .ok x := by
  constructor
  · rintro ⟨proof, h⟩
    obtain ⟨view, hpick, rfl⟩ := except_map_eq_ok.mp h
    exact (Trie.picked_of_cherryPick hpick).exists_get List.mem_cons_self (ht.along key)
  · rintro ⟨x, hget⟩
    obtain ⟨view, hpick⟩ := Trie.exists_cherryPick_of_get fun other (hmem : other ∈ [key]) =>
      ⟨x, List.mem_singleton.mp hmem ▸ hget⟩
    exact ⟨_, except_map_eq_ok.mpr ⟨view, hpick, rfl⟩⟩

/-- Of all leaves, the evidence for a key shows the one under the key. -/
theorem leaves_of_prove (ht : t.root.Regular trieDepth) (h : t.prove key = .ok proof)
    (hget : t.get key = .ok x) : proof.view.leaves = x.toList.map fun value => (key, value) := by
  obtain ⟨view, hpick, rfl⟩ := except_map_eq_ok.mp h
  refine Trie.leaves_eq_of_mem_iff (by cases x <;> simp) ?_
  rintro ⟨place, value⟩
  rw [Trie.leaves_cherryPick ht hpick, List.mem_filter, decide_eq_true_eq, List.mem_singleton,
    List.mem_map]
  constructor
  · rintro ⟨hleaf, rfl⟩
    rw [Trie.get_of_mem_leaves hleaf] at hget
    exact ⟨value, Option.mem_toList.mpr (Except.ok.inj hget).symm, rfl⟩
  · rintro ⟨found, hfound, heq⟩
    cases heq
    rw [Option.mem_toList.mp hfound] at hget
    exact ⟨Trie.mem_leaves_of_get hget, rfl⟩

/-- The check rebuilds the root hash of the trie. -/
theorem recomputedHash_of_prove (ht : t.root.Regular trieDepth) (h : t.prove key = .ok proof) :
    proof.view.root.recomputedHash = t.rootHash := by
  obtain ⟨view, hpick, rfl⟩ := except_map_eq_ok.mp h
  have hpicked := Trie.picked_of_cherryPick hpick
  exact (hpicked.regular ht).recomputedHash_eq.trans hpicked.hash_eq

/-- The evidence that a trie gives for a key is accepted, and shows what is under the key. -/
theorem verify_of_prove (ht : t.root.Regular trieDepth) (h : t.prove key = .ok proof)
    (hget : t.get key = .ok x) : proof.verify t.rootHash = .ok x := by
  have hroot := recomputedHash_of_prove ht h
  obtain ⟨view, hpick, rfl⟩ := except_map_eq_ok.mp h
  have hview : view.get key = t.get key := Trie.get_cherryPick hpick List.mem_cons_self
  exact verify_eq_ok.mpr ⟨hroot, hview.trans hget⟩

/-- Every trie can prove each of its answers: it gives evidence for a key just if it has an
answer there, which is everywhere if it has no summaries; and the evidence is accepted with
this answer under the root hash of the trie, shows no leaf but the one under the key, and is
refused under any other root hash. -/
theorem proves_of_make {r : Trie.Recipe} (h : r.make = .ok t) (key : Hash) :
    ((∃ proof, t.prove key = .ok proof) ↔ ∃ x, t.get key = .ok x) ∧
      (t.FullyKnown → ∃ proof, t.prove key = .ok proof) ∧
      ∀ proof, t.prove key = .ok proof → proof.key = key ∧
        ∃ x, t.get key = .ok x ∧ proof.verify t.rootHash = .ok x ∧
          proof.view.leaves = x.toList.map (fun value => (key, value)) ∧
          ∀ root, root ≠ t.rootHash → proof.verify root = .error (.rootMismatch t.rootHash root) := by
  have ht := Trie.Recipe.regular_of_make h
  have hiff : (∃ proof, t.prove key = .ok proof) ↔ ∃ x, t.get key = .ok x := exists_prove_iff ht
  refine ⟨hiff, fun hknown => hiff.mpr ((ht.along key).exists_get hknown), fun proof hprove => ?_⟩
  obtain ⟨x, hget⟩ := hiff.mp ⟨proof, hprove⟩
  refine ⟨?_, x, hget, verify_of_prove ht hprove hget, leaves_of_prove ht hprove hget, ?_⟩
  · obtain ⟨view, -, rfl⟩ := except_map_eq_ok.mp hprove
    rfl
  · intro root hroot
    rw [← recomputedHash_of_prove ht hprove] at hroot ⊢
    exact verify_of_ne hroot

/-- A view from which the only value was left out proves that there is nothing under another
key, and proves nothing of the key of the value. -/
theorem proves_of_make_view : ∃ (t : Trie) (proof : MerkleProof),
    (Trie.Recipe.cherryPick .single [Trie.Recipe.far]).make = .ok t ∧
      t.prove Trie.Recipe.far = .ok proof ∧ t.get Trie.Recipe.far = .ok none ∧
      proof.verify t.rootHash = .ok none ∧ proof.view.leaves = [] ∧
      proof.verify Blob.zero = .error (.rootMismatch t.rootHash Blob.zero) ∧
      ¬ ∃ proof, t.prove Blob.zero = .ok proof := by
  obtain ⟨base, hbase, hnonzero, hknown, hfar, hfound⟩ := Trie.Recipe.exists_single
  obtain ⟨t, hpick⟩ :=
    Trie.exists_cherryPick_of_get fun key (_ : key ∈ [Trie.Recipe.far]) => hknown key
  have hbaseRegular := Trie.Recipe.regular_of_make hbase
  have hmake : (Trie.Recipe.cherryPick .single [Trie.Recipe.far]).make = .ok t :=
    except_bind_eq_ok.mpr ⟨base, hbase, hpick⟩
  have hget : t.get Trie.Recipe.far = .ok none :=
    (Trie.get_cherryPick hpick List.mem_cons_self).trans hfar
  have hroot : Blob.zero ≠ t.rootHash := by
    have hsome : base.root.isEmpty = false := by
      refine Bool.eq_false_iff.mpr fun hempty => ?_
      rw [Trie.get, Node.isEmpty_iff.mp hempty] at hfound
      cases hfound
    have hhash : t.rootHash = base.rootHash := (Trie.picked_of_cherryPick hpick).hash_eq
    rw [hhash]
    exact (hbaseRegular.hash_ne_zero hnonzero hsome).symm
  obtain ⟨hiff, -, hproves⟩ := proves_of_make hmake Trie.Recipe.far
  obtain ⟨proof, hprove⟩ := hiff.mpr ⟨none, hget⟩
  obtain ⟨-, x, hx, hverify, hleaves, hother⟩ := hproves proof hprove
  rw [hget] at hx
  cases hx
  refine ⟨t, proof, hmake, hprove, hget, hverify, hleaves, hother Blob.zero hroot, fun hzero => ?_⟩
  obtain ⟨x, hx⟩ := (proves_of_make hmake Blob.zero).1.mp hzero
  obtain ⟨cause, -, hpruned⟩ := Trie.pruned_of_not_mem hbaseRegular
    (hbaseRegular.nonzeroBeside hnonzero _) hpick hfound (by decide)
  rw [hpruned] at hx
  cases hx

/-! ## Evidence from anywhere -/

/-- What evidence shows under the root hash of a trie is what the trie holds, or there is an
accident among the branches of both. -/
theorem get_of_verify {edits : List Trie.Edit} (ht : Trie.ofEdits edits = .ok t)
    (hleaves : proof.view.root.LeavesNonzero) (h : proof.verify t.rootHash = .ok x) :
    t.get proof.key = .ok x ∨ Trie.Accident proof.rebuilt t := by
  obtain ⟨u, hrun, hholds⟩ := Trie.Edit.exists_ofEdits edits
  rw [ht] at hrun
  cases hrun
  have hformed : t.root.Formed (Path.ofHash proof.key).length := by
    rw [Path.length_ofHash]
    exact hholds.canonical.formed
  obtain ⟨hroot, hget⟩ := verify_eq_ok.mp h
  have hsame : proof.view.root.rebuilt.hash = t.root.hash :=
    (Node.hash_rebuilt proof.view.root).trans hroot
  refine Trie.or_accident fun hN hzero => ?_
  refine Node.get_of_hash_eq (Node.hashed_rebuilt _) hleaves.rebuilt hformed hN hzero
    (fun _ => Or.inl) (fun _ => Or.inr) hsame ?_
  exact (Node.get_rebuilt 0 _ _).trans hget

/-- The evidence for the only key of a trie. -/
theorem get_of_verify_single : ∃ (t : Trie) (proof : MerkleProof),
    Trie.ofEdits [.put Blob.zero Node.ones (by decide)] = .ok t ∧ proof.view.root.LeavesNonzero ∧
      proof.verify t.rootHash = .ok (some Node.ones) ∧
      (t.get proof.key = .ok (some Node.ones) ∨ Trie.Accident proof.rebuilt t) := by
  obtain ⟨t, hmake, -, hknown, -, hfound⟩ := Trie.Recipe.exists_single
  have hregular := Trie.Recipe.regular_of_make hmake
  obtain ⟨view, hpick⟩ :=
    Trie.exists_cherryPick_of_get fun key (_ : key ∈ [Blob.zero]) => hknown key
  have hprove : t.prove Blob.zero = .ok ⟨Blob.zero, view⟩ := except_map_eq_ok.mpr ⟨view, hpick, rfl⟩
  have hedits : Trie.ofEdits [.put Blob.zero Node.ones (by decide)] = .ok t :=
    except_bind_eq_ok.mpr ⟨t, hmake, rfl⟩
  have hleaves := ((Trie.picked_of_cherryPick hpick).regular hregular).leavesNonzero
  have hverify := verify_of_prove hregular hprove hfound
  exact ⟨t, _, hedits, hleaves, hverify, get_of_verify hedits hleaves hverify⟩

end MerkleProof

end ScriptLedger
