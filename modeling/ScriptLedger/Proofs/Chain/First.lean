import ScriptLedger.Proofs.Chain.Stage
import ScriptLedger.Proofs.World.Genesis

/-!
# The first block

The trie of the first state is a line, so all digests of a first block without transactions
can be computed: those of the branches of the line, from the account up to the root, and the
one of the header.  No two of them are the same, and none is zero.

## Main results

* `Skeleton.content_of_build_first` — what a first block without transactions is.
* `Genesis.line_digests` — the digests of its state are different, and what the root is.
* `Stage.exists_single` — a chain can come to have this block and no other.
-/

namespace ScriptLedger

open Digest Sequencing

variable {R : Set Rules} {rules : Rules} {a a' : Archive} {w : World} {s : Stage} {b : Block}

deriving instance DecidableEq for Octet

namespace Genesis

/-- The header of a first block without transactions over the first state. -/
def header (difficulty : UInt64) (miner stateRoot : Hash) (timestamp : UInt64) : SkeletonHeader :=
  { prevBlockHash := Blob.zero, timestamp, height := 1, difficulty
    accumulatedDifficulty := difficulty, minerAddress := miner, stateRoot
    txRoot := Trie.empty.rootHash }

/-- The words of the root of the first state. -/
def rootWords : Octet UInt32 :=
  ⟨0x3f5600c7, 0xd49755ae, 0x924b3c0d, 0x0d15f326, 0x6bca8cd4, 0xde12a4a4, 0x4e61c259, 0x0ed0935e⟩

/-- The digests of the first state, from the account up to the root, are different, and none
is zero; the last of them is the root. -/
theorem line_digests :
    (Blob.zero :: Node.lineHashes (Record.hash account) (Path.ofHash address)).Nodup ∧
      trie.rootHash = Node.ofWords rootWords := by
  obtain ⟨d, hd, hdigest⟩ := Node.exists_digest (Record.bytes account)
  obtain ⟨root, seen, hroot, hseen, hclimb⟩ := Node.exists_climb hd (Path.ofHash address)
  have hcomputed : Numbers.digest (Record.bytes account) (fun d =>
      Node.climb (Path.ofHash address) d fun root seen =>
        decide ((0 :: seen.map Octet.a).Nodup ∧ root.map UInt32.ofNat = rootWords)) = true := by
    simp only [account, Record.bytes, Record.toJson, Account.toJson, Json.render_object_cons,
      Json.renderMembers_cons, Json.renderMembers_nil, Json.render_ofBlob, Json.render_ofUInt64,
      Json.render_text]
    decide +kernel
  rw [hdigest, hclimb, decide_eq_true_iff] at hcomputed
  refine ⟨Node.nodup_of_climb hseen hcomputed.1, ?_⟩
  rw [← hcomputed.2, hroot.ofWords_eq]
  rfl

theorem nodup_lineHashes :
    (Blob.zero :: Node.lineHashes (Record.hash account) (Path.ofHash address)).Nodup :=
  line_digests.1

theorem rootHash_trie : trie.rootHash = Node.ofWords rootWords := line_digests.2

/-- The header of the first block without transactions that the rules of difficulty one
allow, under a nonce. -/
def sealed (nonce : Hash) : BlockHeader :=
  { nonce, skeleton := header 1 address trie.rootHash 0 }

/-- Another nonce. -/
def ones : Hash := ⟨Vector.replicate 32 1⟩

/-- Under another nonce the first block without transactions has another digest, and neither
digest is zero. -/
theorem nodup_sealed :
    [Blob.zero, Record.hash (sealed Blob.zero), Record.hash (sealed ones)].Nodup := by
  have hnodup : (Blob.zero ::
      [Record.bytes (⟨Blob.zero, header 1 address (Node.ofWords rootWords) 0⟩ : BlockHeader),
        Record.bytes (⟨ones, header 1 address (Node.ofWords rootWords) 0⟩ : BlockHeader)].map
          sha256).Nodup := by
    refine Node.nodup_of_digests ?_
    simp only [header, Record.bytes, Record.toJson, BlockHeader.toJson, SkeletonHeader.toJson,
      Json.render_object_cons, Json.renderMembers_cons, Json.renderMembers_nil,
      Json.render_ofBlob, Json.render_ofUInt64]
    decide +kernel
  rw [sealed, sealed, rootHash_trie]
  exact hnodup

theorem hash_sealed_ne_zero : Record.hash (sealed Blob.zero) ≠ Blob.zero :=
  fun heq => (List.nodup_cons.mp nodup_sealed).1 (List.mem_cons.mpr (Or.inl heq.symm))

end Genesis

namespace Skeleton

/-- A first block without transactions is determined by the rules, the miner and the time. -/
theorem content_of_build_first {miner : Hash} {timestamp : UInt64} {skeleton : Skeleton}
    (h : build rules none [] miner timestamp a = .ok skeleton a') :
    skeleton.content = (Genesis.header rules.difficulty miner Genesis.trie.rootHash timestamp, [],
      Genesis.trie, Trie.empty) := by
  obtain ⟨start, mid, world, txTrie, place, hbase, hloop, hplace, rfl⟩ := build_eq_ok_iff.mp h
  cases hplace
  have hnone : ordered [] = [] := by simp [ordered]
  rw [hnone] at hloop ⊢
  cases hloop
  obtain ⟨first, last, hgenesis, hfork⟩ := bind_eq_ok.mp hbase
  have htrie : start.trie = Genesis.trie := by
    rw [(World.agrees_fork hfork).trie]
    exact Genesis.trie_of_world (adaptExcept_eq_ok.mp hgenesis)
  rw [content, World.rootHash, htrie]
  rfl

/-- With no work and at time zero it is the first block of `Genesis.sealed`. -/
theorem withNonce_of_content {skeleton : Skeleton} (nonce : Hash)
    (h : skeleton.content = (Genesis.header 1 Genesis.address Genesis.trie.rootHash 0, [],
      Genesis.trie, Trie.empty)) : skeleton.withNonce nonce = Genesis.sealed nonce := by
  have hheader : skeleton.header = _ := congrArg Prod.fst h
  rw [withNonce, hheader]
  rfl

end Skeleton

namespace Stage

/-- All blocks are the same first block without transactions, and it is in the chain. -/
structure Single (s : Stage) (b : Block) : Prop where
  get? : s.chain.get? b.hash = some b
  only : ∀ x, s.Has x → x.content = b.content
  content : b.skeleton.content = (Genesis.header 1 Genesis.address Genesis.trie.rootHash 0, [],
    Genesis.trie, Trie.empty)
  nonce : b.nonce = Blob.zero
  collisionless : s.archive.Collisionless

namespace Single

variable (h : s.Single b)

include h

theorem hash_ne_zero : b.hash ≠ Blob.zero := by
  rw [Block.hash, Block.header, h.nonce, Skeleton.withNonce_of_content _ h.content]
  exact Genesis.hash_sealed_ne_zero

end Single

/-- What a first block is committed to is the only block, if there is none but it. -/
theorem single_of_commit {skeleton : Skeleton} {stored : Block}
    (hbuild : Skeleton.build { difficulty := 1 } none [] Genesis.address 0 a = .ok skeleton a')
    (hcommit : Block.commit ⟨skeleton, Blob.zero⟩ a' = .ok stored s.archive)
    (hcol : s.archive.Collisionless) (hget : s.chain.get? stored.hash = some stored)
    (honly : ∀ x, s.Has x → x.content = stored.content) : s.Single stored := by
  have hcontent := (Block.content_of_commit hcommit).2
  refine ⟨hget, honly, ?_, congrArg Prod.snd hcontent, hcol⟩
  exact (congrArg Prod.fst hcontent).trans (Skeleton.content_of_build_first hbuild)

/-- A chain can come to have a first block and no other. -/
theorem exists_single (hrules : { difficulty := 1 } ∈ R) :
    ∃ s b, Reached R { difficulty := 1 } s ∧ s.Single b := by
  obtain ⟨skeleton, a, stored, a', hbuild, hcommit, hreached, -, hcol⟩ :=
    exists_reached_first hrules
  refine ⟨_, stored, hreached, single_of_commit hbuild hcommit hcol (Chain.get?_add_self ..) ?_⟩
  rintro x (⟨other, hmem⟩ | ⟨hash, hget⟩)
  · cases List.mem_singleton.mp hmem
    exact (Block.content_of_commit hcommit).2.symm
  · rcases Chain.get?_add_cases hget with ⟨-, rfl⟩ | hget
    · rfl
    · simp at hget

end Stage

end ScriptLedger
