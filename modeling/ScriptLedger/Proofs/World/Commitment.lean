import ScriptLedger.Proofs.Record.Document
import ScriptLedger.Proofs.Trie.Accident
import ScriptLedger.Proofs.World.Desk

/-!
# What a root hash says of the accounts

Snapshots are compared by their root hashes.  Three commitments stand one upon the other: the
root hash names a trie, the trie names the digests of records, and the digest of a record
names its text, from which the record can be read back.  The first and the third may fail by
an accident of the digest, which is then there to be shown: two messages with one digest among
the branches of the two tries or among the texts of their records, or a branch whose digest is
zero.

The other direction is free of accidents.  A trie that was made by updates is determined by
what it answers, and what it answers is determined by the accounts; by what updates they came
about, over which stores they lie and what else these stores hold leaves no trace.

## Main results

* `World.Whole.find_eq` — the accounts determine what the trie answers.
* `World.Whole.sameAccounts_or_accident` — snapshots with one root hash.
* `Desk.rootHash_binds` — any two snapshots, whatever was done to make them.
-/

namespace ScriptLedger

open Sequencing

variable {a b : Archive} {w v : World} {address : Hash} {found : Option Account}

namespace World

/-! ## Snapshots made by updates -/

/-- A snapshot that has all that its trie names, over a trie as updates leave it. -/
structure Whole (a : Archive) (w : World) : Prop extends w.Backed a where
  canonical : w.trie.Canonical

/-- Both snapshots give the same answer at every address. -/
def SameAccounts (a : Archive) (w : World) (b : Archive) (v : World) : Prop :=
  ∀ address, w.account? a address = v.account? b address

namespace Whole

/-- There is an answer at every address. -/
theorem exists_account? (h : w.Whole a) (address : Hash) :
    ∃ found, w.account? a address = .ok found := by
  have hget := Trie.get_eq h.canonical address
  cases hfind : w.trie.find address with
  | none => exact ⟨none, account?_eq_none_iff.mpr (hfind ▸ hget)⟩
  | some hash =>
      rw [hfind] at hget
      obtain ⟨account, hrecord⟩ := h.shown address hash (Trie.mem_leaves_of_get hget)
      exact ⟨some account, account?_eq_some_iff.mpr ⟨hash, hget, hrecord⟩⟩

/-- The accounts determine what the trie answers. -/
theorem find_eq (h : w.Whole a) (hw : w.account? a address = .ok found) :
    w.trie.find address = found.map Record.hash := by
  have hget := Trie.get_eq h.canonical address
  cases found with
  | none =>
      rw [account?_eq_none_iff, hget] at hw
      exact Except.ok.inj hw
  | some account =>
      obtain ⟨hash, hhash, hrecord⟩ := account?_eq_some_iff.mp hw
      rw [Option.map_some, Archive.hash_of_get? hrecord]
      exact Except.ok.inj (hget.symm.trans hhash)

/-- Snapshots with the same accounts have the same trie. -/
theorem trie_eq (hw : w.Whole a) (hv : v.Whole b) (h : w.SameAccounts a b v) :
    w.trie = v.trie := by
  refine Trie.eq_of_find_eq hw.canonical hv.canonical fun address => ?_
  obtain ⟨found, hfound⟩ := hw.exists_account? address
  rw [hw.find_eq hfound, hv.find_eq ((h address).symm.trans hfound)]

end Whole

/-! ## Accidents -/

/-- An accident of the digest among the branches of two snapshots, or among the texts of two
records that they have at one address. -/
inductive Accident (a : Archive) (w : World) (b : Archive) (v : World) : Prop
  | trie (h : Trie.Accident w.trie v.trie)
  | record {address : Hash} {x y : Account} (hx : w.account? a address = .ok (some x))
      (hy : v.account? b address = .ok (some y)) (hne : Record.text x ≠ Record.text y)
      (hsame : sha256 (Bytes.utf8 (Record.text x)) = sha256 (Bytes.utf8 (Record.text y)))

/-- Records at one address with one digest are the same, or there is an accident. -/
theorem eq_or_accident {x y : Account} (hx : w.account? a address = .ok (some x))
    (hy : v.account? b address = .ok (some y)) (h : Record.hash x = Record.hash y) :
    x = y ∨ w.Accident a b v := by
  by_cases htext : Record.text x = Record.text y
  · exact Or.inl (Record.text_inj htext)
  · rw [Record.hash, Record.hash, Record.bytes_eq, Record.bytes_eq] at h
    exact Or.inr (.record hx hy htext h)

namespace Whole

/-- Snapshots with the same trie have the same accounts, or there is an accident. -/
theorem sameAccounts_of_trie_eq (hw : w.Whole a) (hv : v.Whole b) (h : w.trie = v.trie) :
    w.SameAccounts a b v ∨ w.Accident a b v := by
  by_cases haccident : w.Accident a b v
  · exact Or.inr haccident
  refine Or.inl fun address => ?_
  obtain ⟨found, hfound⟩ := hw.exists_account? address
  obtain ⟨found', hfound'⟩ := hv.exists_account? address
  have hdigest : found.map Record.hash = found'.map Record.hash := by
    rw [← hw.find_eq hfound, h, hv.find_eq hfound']
  have hsame : found = found' := by
    cases found with
    | none => exact (Option.map_eq_none_iff.mp hdigest.symm).symm
    | some x =>
        obtain ⟨y, rfl, hhash⟩ := Option.map_eq_some_iff.mp hdigest.symm
        rw [(eq_or_accident hfound hfound' hhash.symm).resolve_right haccident]
  rw [hfound, hfound', hsame]

/-- Snapshots with one root hash have the same accounts, or there is an accident. -/
theorem sameAccounts_or_accident (hw : w.Whole a) (hv : v.Whole b)
    (h : w.rootHash = v.rootHash) : w.SameAccounts a b v ∨ w.Accident a b v := by
  rcases Trie.eq_or_accident hw.canonical.formed hv.canonical.formed h with heq | haccident
  · exact hw.sameAccounts_of_trie_eq hv heq
  · exact Or.inr (.trie haccident)

end Whole

end World

namespace Desk

variable {acts acts' : List Act}

/-- No part of a snapshot is taken. -/
def Unpicked (acts : List Act) : Prop := ∀ place keys, Act.cherryPick place keys ∉ acts

/-- Without parts, every snapshot is whole. -/
theorem whole_of_mem (hacts : Unpicked acts) (h : w ∈ (empty.run acts).worlds) :
    w.Whole (empty.run acts).archive := by
  have hcanonical : Inherited fun _ w => w.trie.Canonical :=
    inherited_trie Trie.canonical_empty fun ht hadd =>
      Trie.hereditary_put Node.Canonical.hereditary .leaf hadd ht
  obtain ⟨hbacked, hw⟩ := each_of_mem (inherited_backed.and hcanonical)
    (fun place keys hmem => absurd hmem (hacts place keys)) h
  exact ⟨hbacked, hw⟩

/-- The factory, put into a store and not into an overlay. -/
def direct : List Act := [.addStore, .start 0, .put 0 Genesis.account]

theorem run_direct : ∃ a, Genesis.Alone a ⟨Genesis.trie, 0⟩ ∧
    empty.run direct = ⟨a, [World.empty 0, ⟨Genesis.trie, 0⟩]⟩ := by
  obtain ⟨a, hstart, hwithin, hsize⟩ : ∃ a : Archive,
      empty.run [.addStore, .start 0] = ⟨a, [World.empty 0]⟩ ∧
        a.Within {Genesis.account} ∧ 0 < a.stores.size :=
    ⟨Archive.empty.addStore.2, rfl, (fun _ hmem => nomatch hmem), by decide⟩
  exact ⟨_, run_factory hstart 0 rfl hwithin hsize⟩

/-- Snapshots answer at every address.  Any two with the same accounts have one root hash, and
any two with one root hash have the same accounts, unless an accident of the digest can be
shown. -/
theorem rootHash_binds (hacts : Unpicked acts) (hacts' : Unpicked acts')
    (hw : w ∈ (empty.run acts).worlds) (hv : v ∈ (empty.run acts').worlds) :
    (∀ address, ∃ found, w.account? (empty.run acts).archive address = .ok found) ∧
    (w.SameAccounts (empty.run acts).archive (empty.run acts').archive v →
      w.rootHash = v.rootHash) ∧
    (w.rootHash = v.rootHash →
      w.SameAccounts (empty.run acts).archive (empty.run acts').archive v ∨
        w.Accident (empty.run acts).archive (empty.run acts').archive v) := by
  have hw := whole_of_mem hacts hw
  have hv := whole_of_mem hacts' hv
  refine ⟨hw.exists_account?, fun hsame => ?_, hw.sameAccounts_or_accident hv⟩
  rw [World.rootHash, World.rootHash, hw.trie_eq hv hsame]

/-- The factory over an overlay and the factory over a store have one root hash. -/
theorem rootHash_binds_direct : ∃ a b, (empty.run founding).archive = a ∧
    (empty.run direct).archive = b ∧ Unpicked founding ∧ Unpicked direct ∧
    (⟨Genesis.trie, 1⟩ : World) ∈ (empty.run founding).worlds ∧
    (⟨Genesis.trie, 0⟩ : World) ∈ (empty.run direct).worlds ∧
    World.SameAccounts a ⟨Genesis.trie, 1⟩ b ⟨Genesis.trie, 0⟩ ∧
    World.rootHash ⟨Genesis.trie, 1⟩ = World.rootHash ⟨Genesis.trie, 0⟩ ∧
    (World.SameAccounts a ⟨Genesis.trie, 1⟩ b ⟨Genesis.trie, 0⟩ ∨
      World.Accident a ⟨Genesis.trie, 1⟩ b ⟨Genesis.trie, 0⟩) := by
  obtain ⟨a, halone, -, hrun⟩ := run_founding
  obtain ⟨b, halone', hrun'⟩ := run_direct
  have hacts : Unpicked founding := by simp [Unpicked, founding]
  have hacts' : Unpicked direct := by simp [Unpicked, direct]
  have hw : (⟨Genesis.trie, 1⟩ : World) ∈ (empty.run founding).worlds := by simp [hrun]
  have hv : (⟨Genesis.trie, 0⟩ : World) ∈ (empty.run direct).worlds := by simp [hrun']
  have hsame : World.SameAccounts a ⟨Genesis.trie, 1⟩ b ⟨Genesis.trie, 0⟩ :=
    halone'.stored.account?_eq halone.stored rfl halone'.within halone.within
      Genesis.injOn_account
  have hbinds := rootHash_binds hacts hacts' hw hv
  rw [hrun, hrun'] at hbinds
  obtain ⟨-, hroot, haccounts⟩ := hbinds
  exact ⟨a, b, by rw [hrun], by rw [hrun'], hacts, hacts', hw, hv, hsame, hroot hsame,
    haccounts (hroot hsame)⟩

end Desk

end ScriptLedger
